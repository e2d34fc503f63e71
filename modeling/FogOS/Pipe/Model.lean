import FogOS.Library.Transition

/-!
# Pipes

One `struct pipe` and the calls of `pipewrite`, `piperead` and `pipeclose` that use it. A step is
the acquisition of `pi->lock`, one round of a loop, or a whole `pipeclose`. A call that sleeps
gives up the lock and may take it again at any later time, so `wakeup` does not appear. The
bytes put in and taken out are recorded in order.
-/

namespace FogOS.Pipe

open Function Library

def pipesize : Nat := 512

/-- The value of a `uint` after an assignment. -/
def uint (n : Nat) : Nat := n % 2 ^ 32

/-- Where a process is in a call: before it takes the lock, or at the head of a loop with the
lock. The counter `i` of a loop is the number of bytes that it has transferred. -/
inductive Point
  | idle
  | write (n : Int) (i : Nat)
  | writeLoop (n : Int) (i : Nat)
  | read (n : Int)
  | readWait (n : Int)
  | readCopy (n : Int) (i : Nat)
  deriving DecidableEq

/-- A call that has returned: its argument `n`, its result, and for `piperead` whether a `copyout`
failed. -/
inductive Return (ι : Type*)
  | wrote (p : ι) (n ret : Int)
  | read (p : ι) (n ret : Int) (fault : Bool)
  deriving DecidableEq

variable {ι : Type*}

structure PipeState (ι : Type*) where
  data : Nat → UInt8
  nread : Nat
  nwrite : Nat
  readopen : Bool
  writeopen : Bool
  lock : Option ι
  point : ι → Point
  inserted : List UInt8
  removed : List UInt8
  returns : List (Return ι)

inductive Act (ι : Type*)
  | pipewrite (p : ι) (n : Int)
  | piperead (p : ι) (n : Int)
  | acquire (p : ι)
  | writeRound (p : ι) (killed : Bool) (ch : Option UInt8)
  | readRound (p : ι) (killed : Bool) (copied : Bool)
  | pipeclose (p : ι) (writable : Bool)

/-- The step is not possible in this state. -/
inductive Stop
  | disabled
  deriving DecidableEq

namespace PipeState

/-- The pipe that `pipealloc` makes in a page with the given bytes. -/
def alloc (data : Nat → UInt8) : PipeState ι where
  data := data
  nread := 0
  nwrite := 0
  readopen := true
  writeopen := true
  lock := none
  point := fun _ => .idle
  inserted := []
  removed := []
  returns := []

/-- Both ends are closed, so the page has been given back. -/
def freed (s : PipeState ι) : Bool := !s.readopen && !s.writeopen

variable [DecidableEq ι]

def goto (s : PipeState ι) (p : ι) (pt : Point) : PipeState ι :=
  { s with point := update s.point p pt }

/-- Release the lock and return. -/
def ret (s : PipeState ι) (p : ι) (r : Return ι) : PipeState ι :=
  { s.goto p .idle with lock := none, returns := s.returns ++ [r] }

/-- Release the lock and sleep; the call goes on from `pt`, before it takes the lock again. -/
def sleep (s : PipeState ι) (p : ι) (pt : Point) : PipeState ι :=
  { s.goto p pt with lock := none }

/-- `pi->data[pi->nwrite++ % PIPESIZE] = ch` -/
def putByte (s : PipeState ι) (ch : UInt8) : PipeState ι :=
  { s with
    data := update s.data (s.nwrite % pipesize) ch
    nwrite := uint (s.nwrite + 1)
    inserted := s.inserted ++ [ch] }

/-- `ch = pi->data[pi->nread++ % PIPESIZE]` -/
def takeByte (s : PipeState ι) : PipeState ι :=
  { s with
    nread := uint (s.nread + 1)
    removed := s.removed ++ [s.data (s.nread % pipesize)] }

/-- A round of the loop of `pipewrite`: `killed` is the result of `killed(pr)`, and `ch` the byte
that `copyin` finds, if it succeeds. -/
def writeRound (s : PipeState ι) (p : ι) (n : Int) (i : Nat) (killed : Bool) (ch : Option UInt8) :
    PipeState ι :=
  if (i : Int) < n then
    if s.readopen = false ∨ killed = true then s.ret p (.wrote p n (-1))
    else if s.nwrite = uint (s.nread + pipesize) then s.sleep p (.write n i)
    else
      match ch with
      | none => s.ret p (.wrote p n i)
      | some ch => (s.putByte ch).goto p (.writeLoop n (i + 1))
  else s.ret p (.wrote p n i)

/-- A test of the condition of the first loop of `piperead`. -/
def readWait (s : PipeState ι) (p : ι) (n : Int) (killed : Bool) : PipeState ι :=
  if s.nread = s.nwrite ∧ s.writeopen = true then
    if killed = true then s.ret p (.read p n (-1) false) else s.sleep p (.read n)
  else s.goto p (.readCopy n 0)

/-- A round of the second loop of `piperead`; a byte that cannot be copied out is lost. -/
def readCopy (s : PipeState ι) (p : ι) (n : Int) (i : Nat) (copied : Bool) : PipeState ι :=
  if (i : Int) < n then
    if s.nread = s.nwrite then s.ret p (.read p n i false)
    else if copied = true then s.takeByte.goto p (.readCopy n (i + 1))
    else s.takeByte.ret p (.read p n i true)
  else s.ret p (.read p n i false)

def pipeclose (s : PipeState ι) (writable : Bool) : PipeState ι :=
  if writable = true then { s with writeopen := false } else { s with readopen := false }

end PipeState

variable [DecidableEq ι]

def step (s : PipeState ι) (a : Act ι) : Except Stop (PipeState ι) :=
  if s.freed = true then .error .disabled
  else
    match a with
    | .pipewrite p n =>
      if s.point p = .idle then .ok (s.goto p (.write n 0)) else .error .disabled
    | .piperead p n => if s.point p = .idle then .ok (s.goto p (.read n)) else .error .disabled
    | .acquire p =>
      if s.lock ≠ none then .error .disabled
      else
        match s.point p with
        | .write n i => .ok ({ s with lock := some p }.goto p (.writeLoop n i))
        | .read n => .ok ({ s with lock := some p }.goto p (.readWait n))
        | _ => .error .disabled
    | .writeRound p killed ch =>
      match s.point p with
      | .writeLoop n i => .ok (s.writeRound p n i killed ch)
      | _ => .error .disabled
    | .readRound p killed copied =>
      match s.point p with
      | .readWait n => .ok (s.readWait p n killed)
      | .readCopy n i => .ok (s.readCopy p n i copied)
      | _ => .error .disabled
    | .pipeclose p writable =>
      if s.lock = none ∧ s.point p = .idle then .ok (s.pipeclose writable) else .error .disabled

end FogOS.Pipe
