import FogOS.Fs.Table
import FogOS.Library.Dialogue
import FogOS.Process.Table

/-!
# References to open files, inodes and pipes

`ftable`, the reference counts of `itable`, the pipes, and `ofile[]` and `cwd` of the processes,
with the operations by which system calls use them. An operation is one critical section, or code
between two of them that only the process itself can see. The states `SLEEPING`, `RUNNABLE` and
`RUNNING` are one here. For each process the references that its system call has are recorded.
-/

namespace FogOS.Refs

open Function Library Fs List

/-- `NFILE`. -/
abbrev nfile : Nat := 100

/-- `NOFILE`. -/
abbrev nofile : Nat := 16

abbrev FileSlot : Type := Fin nfile
abbrev Fd : Type := Fin nofile
abbrev InodeSlot : Type := Fin ninode
abbrev ProcSlot : Type := Process.Slot

inductive FdType
  | none
  | pipe
  | inode
  | device
  deriving DecidableEq

/-- The fields of `struct file` that decide what it refers to. -/
structure File where
  ref : Nat
  type : FdType
  readable : Bool
  writable : Bool
  pipe : Nat
  ip : InodeSlot

structure Inode where
  dev : Nat
  inum : Nat
  ref : Nat

/-- A page that may hold a pipe. -/
structure Pipe where
  live : Bool
  readopen : Bool
  writeopen : Bool

inductive ProcState
  | unused
  | used
  | runnable
  | zombie
  deriving DecidableEq

structure Proc where
  state : ProcState
  ofile : Fd → Option FileSlot
  cwd : Option InodeSlot

def Proc.zero : Proc := ⟨.unused, fun _ => none, none⟩

/-- A reference: to a `struct file`, to an in-memory inode, or an open end of a pipe. -/
inductive Token
  | file (f : FileSlot)
  | inode (k : InodeSlot)
  | pipe (pi : Nat) (writable : Bool)
  deriving DecidableEq

/-- What a `struct file` refers to. -/
inductive Contents
  | none
  | pipe (pi : Nat) (writable : Bool)
  | inode (k : InodeSlot)
  deriving DecidableEq

def File.contents (f : File) : Contents :=
  match f.type with
  | .none => .none
  | .pipe => .pipe f.pipe f.writable
  | .inode => .inode f.ip
  | .device => .inode f.ip

def Contents.tokens : Contents → Multiset Token
  | .none => 0
  | .pipe pi w => {.pipe pi w}
  | .inode k => {.inode k}

/-- The calls in which a descriptor or `cwd` is for a time without a reference of its own. -/
inductive Kind
  | dup
  | exit
  | chdir
  | other
  deriving DecidableEq

/-- The record of the call that a process is in: the references that the call has, the descriptor
and whether it is `cwd` that has none, what the call knows of files, and the child it makes. -/
structure Rec where
  held : Multiset Token
  bare : Option Fd
  bareCwd : Bool
  known : FileSlot → Option Contents
  child : Option ProcSlot
  kind : Kind

def Rec.empty : Rec := ⟨0, none, false, fun _ => none, none, .other⟩

/-- What only the system call of a process changes: its `struct proc`, its record, and the
`struct proc` of the child it makes. -/
structure View where
  self : Proc
  record : Rec
  kid : Proc

inductive Op
  | choose
  | notInit
  | ofile (fd : Fd)
  | takeFd (fd : Fd)
  | clearFd (fd : Fd)
  | fdalloc (f : FileSlot)
  | filealloc
  | filedup (f : FileSlot)
  | fileclose (f : FileSlot)
  | setInode (f : FileSlot) (device : Bool) (k : InodeSlot) (readable writable : Bool)
  | setPipe (f0 f1 : FileSlot) (pi : Nat)
  | kalloc
  | pipeclose (pi : Nat) (writable : Bool)
  | cwd
  | takeCwd
  | setCwd (k : Option InodeSlot)
  | dirent (dp : InodeSlot)
  | iget (dev inum : Nat)
  | idup (k : InodeSlot)
  | put (k : InodeSlot)
  | use (k : InodeSlot)
  | useFile (f : FileSlot)
  | allocproc
  | freeproc (np : ProcSlot)
  | childFd (np : ProcSlot) (fd : Fd) (f : FileSlot)
  | childCwd (np : ProcSlot) (k : InodeSlot)
  | setRunnable (np : ProcSlot)
  | zombie
  | reap

def Op.Reply : Op → Type
  | choose => Bool
  | ofile _ => Option FileSlot
  | takeFd _ => Option FileSlot
  | fdalloc _ => Option Fd
  | filealloc => Option FileSlot
  | fileclose _ => Option File
  | kalloc => Option Nat
  | cwd => Option InodeSlot
  | takeCwd => Option InodeSlot
  | dirent _ => Option (Nat × Nat)
  | iget _ _ => InodeSlot
  | allocproc => Option ProcSlot
  | _ => Unit

abbrev Call (α : Type) : Type := Dialogue Op Op.Reply α

/-- The kernel panics, or an object without references is used. `wait` is a step that cannot be
made now. -/
inductive Stop
  | wait
  | initExiting
  | filedup
  | fileclose
  | fileread
  | igetNoInodes
  | released
  deriving DecidableEq

/-- The outcome of what is not modelled: a condition, a number, a process. -/
structure Choice where
  flag : Bool
  n : Nat
  q : ProcSlot

structure State where
  files : FileSlot → File
  inodes : InodeSlot → Inode
  pipes : Nat → Pipe
  procs : ProcSlot → Proc
  records : ProcSlot → Rec
  thread : ProcSlot → Call Int

/-- `initproc`, the first process. -/
def initproc : ProcSlot := 0

namespace State

variable (s : State)

def setFile (f : FileSlot) (x : File) : State := { s with files := update s.files f x }

def setInode (k : InodeSlot) (x : Inode) : State :=
  { s with inodes := update s.inodes k x }

def setPipe (pi : Nat) (x : Pipe) : State := { s with pipes := update s.pipes pi x }

def setProc (p : ProcSlot) (x : Proc) : State := { s with procs := update s.procs p x }

def setRecord (p : ProcSlot) (x : Rec) : State :=
  { s with records := update s.records p x }

def setThread (p : ProcSlot) (x : Call Int) : State :=
  { s with thread := update s.thread p x }

def kidOf : Option ProcSlot → Proc
  | some np => s.procs np
  | none => .zero

def view (p : ProcSlot) : View where
  self := s.procs p
  record := s.records p
  kid := s.kidOf (s.records p).child

/-- The scan of `filealloc`. -/
def freeFile : Option FileSlot :=
  (List.finRange nfile).find? fun f => decide ((s.files f).ref = 0)

/-- The scan of `fdalloc`. -/
def freeFd (p : ProcSlot) : Option Fd :=
  (List.finRange nofile).find? fun fd => decide ((s.procs p).ofile fd = none)

def findInode (dev inum : Nat) : Option InodeSlot :=
  (List.finRange ninode).find? fun k =>
    decide (0 < (s.inodes k).ref) && decide ((s.inodes k).dev = dev) &&
      decide ((s.inodes k).inum = inum)

def freeInode : Option InodeSlot :=
  (List.finRange ninode).find? fun k => decide ((s.inodes k).ref = 0)

def iget (dev inum : Nat) : Except Stop (State × InodeSlot) :=
  match s.findInode dev inum with
  | some k => .ok (s.setInode k { s.inodes k with ref := (s.inodes k).ref + 1 }, k)
  | none =>
    match s.freeInode with
    | some k => .ok (s.setInode k ⟨dev, inum, 1⟩, k)
    | none => .error .igetNoInodes

def fileclose (f : FileSlot) : Except Stop (State × Option File) :=
  if (s.files f).ref < 1 then .error .fileclose
  else if 0 < (s.files f).ref - 1 then
    .ok (s.setFile f { s.files f with ref := (s.files f).ref - 1 }, none)
  else .ok (s.setFile f { s.files f with ref := 0, type := .none }, some (s.files f))

/-- `pipeclose`; the page goes to `kfree` when both ends are closed. -/
def pipeclose (pi : Nat) (writable : Bool) : Except Stop (State × Unit) :=
  if (s.pipes pi).live = false then .error .released
  else
    let readopen := writable && (s.pipes pi).readopen
    let writeopen := !writable && (s.pipes pi).writeopen
    .ok (s.setPipe pi ⟨readopen || writeopen, readopen, writeopen⟩, ())

/-- `fileread`, `filewrite` and `filestat` of an open file use its pipe or its inode. -/
def useFile (f : FileSlot) : Except Stop (State × Unit) :=
  match (s.files f).contents with
  | .none => .error .fileread
  | .pipe pi _ => if (s.pipes pi).live = false then .error .released else .ok (s, ())
  | .inode k => if (s.inodes k).ref = 0 then .error .released else .ok (s, ())

/-- The entry that `dirlookup` finds, or the inode that `ialloc` allocates: on the device of `dp`,
with any number. -/
def dirent (dp : InodeSlot) (c : Choice) : Except Stop (State × Option (Nat × Nat)) :=
  if (s.inodes dp).ref = 0 then .error .released
  else .ok (s, if c.flag then some ((s.inodes dp).dev, c.n) else none)

/-- An operation of process `p`. -/
def exec (p : ProcSlot) (c : Choice) : (o : Op) → Except Stop (State × o.Reply)
  | .choose => .ok (s, c.flag)
  | .notInit => if p = initproc then .error .initExiting else .ok (s, ())
  | .ofile fd => .ok (s, (s.procs p).ofile fd)
  | .takeFd fd => .ok (s, (s.procs p).ofile fd)
  | .clearFd fd =>
    .ok (s.setProc p { s.procs p with ofile := update (s.procs p).ofile fd none }, ())
  | .fdalloc f =>
    match s.freeFd p with
    | some fd =>
      .ok (s.setProc p { s.procs p with ofile := update (s.procs p).ofile fd (some f) }, some fd)
    | none => .ok (s, none)
  | .filealloc =>
    match s.freeFile with
    | some f => .ok (s.setFile f { s.files f with ref := 1 }, some f)
    | none => .ok (s, none)
  | .filedup f =>
    if (s.files f).ref < 1 then .error .filedup
    else .ok (s.setFile f { s.files f with ref := (s.files f).ref + 1 }, ())
  | .fileclose f => s.fileclose f
  | .setInode f device k readable writable =>
    .ok (s.setFile f { s.files f with
      type := if device then .device else .inode
      ip := k
      readable := readable
      writable := writable }, ())
  | .setPipe f0 f1 pi =>
    .ok ((s.setFile f0 { s.files f0 with
        type := .pipe, readable := true, writable := false, pipe := pi }).setFile f1
      { s.files f1 with type := .pipe, readable := false, writable := true, pipe := pi }, ())
  | .kalloc =>
    if c.flag then
      if (s.pipes c.n).live then .error .wait
      else .ok (s.setPipe c.n ⟨true, true, true⟩, some c.n)
    else .ok (s, none)
  | .pipeclose pi writable => s.pipeclose pi writable
  | .cwd => .ok (s, (s.procs p).cwd)
  | .takeCwd => .ok (s, (s.procs p).cwd)
  | .setCwd k => .ok (s.setProc p { s.procs p with cwd := k }, ())
  | .dirent dp => s.dirent dp c
  | .iget dev inum => s.iget dev inum
  | .idup k =>
    if (s.inodes k).ref = 0 then .error .released
    else .ok (s.setInode k { s.inodes k with ref := (s.inodes k).ref + 1 }, ())
  | .put k =>
    if (s.inodes k).ref = 0 then .error .released
    else .ok (s.setInode k { s.inodes k with ref := (s.inodes k).ref - 1 }, ())
  | .use k => if (s.inodes k).ref = 0 then .error .released else .ok (s, ())
  | .useFile f => s.useFile f
  | .allocproc =>
    if c.flag then
      if (s.procs c.q).state = .unused then
        .ok (s.setProc c.q { s.procs c.q with state := .used }, some c.q)
      else .error .wait
    else .ok (s, none)
  | .freeproc np => .ok (s.setProc np { s.procs np with state := .unused }, ())
  | .childFd np fd f =>
    .ok (s.setProc np { s.procs np with ofile := update (s.procs np).ofile fd (some f) }, ())
  | .childCwd np k => .ok (s.setProc np { s.procs np with cwd := some k }, ())
  | .setRunnable np =>
    .ok ((s.setProc np { s.procs np with state := .runnable }).setThread np (.ret 0), ())
  | .zombie => .ok (s.setProc p { s.procs p with state := .zombie }, ())
  | .reap =>
    if (s.procs c.q).state = .zombie then
      .ok (s.setProc c.q { s.procs c.q with state := .unused }, ())
    else .error .wait

end State

namespace View

variable (v : View)

/-- The record with other references of the call. -/
def hold (H : Multiset Token) : Rec := { v.record with held := H }

def learn (f : FileSlot) (c : Option Contents) (H : Multiset Token) : Rec :=
  { v.record with known := update v.record.known f c, held := H }

/-- The record after an operation. A descriptor takes over a reference of the call, if the call
has one; `filedup` gives its reference to the descriptor that has none; a cleared descriptor
leaves its reference to the call. -/
def record' : (o : Op) → o.Reply → Rec
  | .takeFd fd, r =>
    match r with
    | some f => { v.record with bare := some fd, held := .file f ::ₘ v.record.held }
    | none => v.record
  | .clearFd fd, _ =>
    if v.record.bare = some fd then { v.record with bare := none }
    else
      match v.self.ofile fd with
      | some f => v.hold (.file f ::ₘ v.record.held)
      | none => v.record
  | .fdalloc f, r =>
    match r with
    | some fd =>
      if .file f ∈ v.record.held then v.hold (v.record.held.erase (.file f))
      else { v.record with bare := some fd }
    | none => v.record
  | .filealloc, r =>
    match r with
    | some f => v.learn f (some .none) (.file f ::ₘ v.record.held)
    | none => v.record
  | .filedup f, _ =>
    if v.record.bare.any fun fd => decide (v.self.ofile fd = some f) then
      { v.record with bare := none }
    else v.hold (.file f ::ₘ v.record.held)
  | .fileclose f, r =>
    match r with
    | some ff => v.learn f none (ff.contents.tokens + v.record.held.erase (.file f))
    | none => v.learn f none (v.record.held.erase (.file f))
  | .setInode f _ k _ _, _ =>
    v.learn f (some (.inode k)) (v.record.held.erase (.inode k))
  | .setPipe f0 f1 pi, _ =>
    { v.record with
      known := update (update v.record.known f0 (some (.pipe pi false))) f1 (some (.pipe pi true))
      held := (v.record.held.erase (.pipe pi false)).erase (.pipe pi true) }
  | .kalloc, r =>
    match r with
    | some pi => v.hold (.pipe pi true ::ₘ .pipe pi false ::ₘ v.record.held)
    | none => v.record
  | .pipeclose pi w, _ => v.hold (v.record.held.erase (.pipe pi w))
  | .takeCwd, r =>
    match r with
    | some k => { v.record with bareCwd := true, held := .inode k ::ₘ v.record.held }
    | none => v.record
  | .setCwd r, _ =>
    match r with
    | some k => { v.record with bareCwd := false, held := v.record.held.erase (.inode k) }
    | none => { v.record with bareCwd := false }
  | .iget _ _, k => v.hold (.inode k ::ₘ v.record.held)
  | .idup k, _ => v.hold (.inode k ::ₘ v.record.held)
  | .put k, _ => v.hold (v.record.held.erase (.inode k))
  | .allocproc, r =>
    match r with
    | some np => { v.record with child := some np }
    | none => v.record
  | .freeproc _, _ => { v.record with child := none }
  | .childFd _ _ f, _ => v.hold (v.record.held.erase (.file f))
  | .childCwd _ k, _ => v.hold (v.record.held.erase (.inode k))
  | .setRunnable _, _ => { v.record with child := none }
  | .zombie, _ => .empty
  | .choose, _ | .notInit, _ | .ofile _, _ | .cwd, _ | .dirent _, _ | .use _, _ | .useFile _, _
  | .reap, _ => v.record

end View

end FogOS.Refs
