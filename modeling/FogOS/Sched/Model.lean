import FogOS.Process.Table

/-!
# Scheduling

The CPUs, the kernel threads of the processes and the spin-locks of `proc.c`. Each CPU runs
`scheduler` or, after a `swtch`, the thread of a process; a CPU in `scheduler` also takes
interrupts. A step is one acquisition or release of a lock, one test, or one change of the fields
that a lock protects. `p->lock` is held across `swtch`: the holder of a lock is a CPU, so one
thread acquires it and another releases it. Memory outside the process table is `mem`.
-/

namespace FogOS.Sched

open Function Library Process

abbrev Cpu : Type := Nat

/-- The spin-locks other than those of the process table. -/
inductive Lock
  | wait
  | pipe (pi : Nat)
  | cons
  | ticks
  | other (addr : Nat)
  deriving DecidableEq

/-- The loops that test `killed` before they sleep, other than the one of `wait`. -/
inductive Loop
  | piperead (pi : Nat)
  | pipewrite (pi : Nat)
  | consoleread
  | sysSleep
  deriving DecidableEq

/-- The addresses `&pi->nread`, `&pi->nwrite`, `&cons.r` and `&ticks`. -/
def nreadChan (pi : Nat) : Chan := .other (4 * pi)
def nwriteChan (pi : Nat) : Chan := .other (4 * pi + 1)
def consChan : Chan := .other 2
def ticksChan : Chan := .other 3

namespace Loop

def lock : Loop → Lock
  | piperead pi => .pipe pi
  | pipewrite pi => .pipe pi
  | consoleread => .cons
  | sysSleep => .ticks

def chan : Loop → Chan
  | piperead pi => nreadChan pi
  | pipewrite pi => nwriteChan pi
  | consoleread => consChan
  | sysSleep => ticksChan

end Loop

/-- The next statement of a kernel thread, with what follows it. `lockP` and `unlockP` are on the
lock of a slot, `lockL` and `unlockL` on another lock; a name that ends in `At` is the body of a
loop over the table, with the lock of the slot held. -/
inductive Point
  | run
  | ret (v : Int)
  | lockP (q : Slot) (next : Point)
  | unlockP (q : Slot) (next : Point)
  | lockL (l : Lock) (next : Point)
  | unlockL (l : Lock) (next : Point)
  | wakeup (chan : Option Chan) (i : Nat) (next : Point)
  | wakeupAt (chan : Option Chan) (q : Slot) (next : Point)
  | kill (pid : Int) (i : Nat)
  | killAt (pid : Int) (q : Slot)
  | readKilled (yes no : Point)
  | setKilled
  | yieldSet (next : Point)
  | sleepSet (chan : Chan) (l : Lock) (next : Point)
  | sched (next : Point)
  | tidyUp (next : Point)
  | reparent (i : Nat) (status : Int)
  | exitSet (status : Int)
  | dead
  | wait (i : Nat) (havekids : Bool)
  | waitAt (q : Slot)
  | alloc (i : Nat)
  | allocAt (q : Slot)
  | copying (q : Slot)
  | setParent (q : Slot)
  | setRunnable (q : Slot)
  | loop (l : Loop)
  | full (pi : Nat)
  deriving DecidableEq

namespace Point

/-- `sleep(chan, lk)`, called by `p`. -/
def sleep (p : Slot) (chan : Chan) (l : Lock) (next : Point) : Point :=
  .lockP p (.unlockL l (.sleepSet chan l next))

/-- What `sleep` does once `sched` has returned. -/
def wake (p : Slot) (l : Lock) (next : Point) : Point :=
  .tidyUp (.unlockP p (.lockL l next))

/-- A call of `killed`. -/
def killed (p : Slot) (yes no : Point) : Point := .lockP p (.readKilled yes no)

/-- Where a new process starts: `forkret`. -/
def forkret (p : Slot) : Point := .unlockP p .run

end Point

/-- Where a CPU is in `scheduler`; `inside` is the time between the two `swtch` of a round. -/
inductive SchedPoint
  | pick (i : Nat)
  | test (p : Slot)
  | choose (p : Slot)
  | assign (p : Slot)
  | switch (p : Slot)
  | inside (p : Slot)
  | back (p : Slot)
  | drop (p : Slot)
  deriving DecidableEq

variable {M : Type}

structure State (M : Type) where
  procs : Slot → Proc
  plock : Slot → Option Cpu
  lock : Lock → Option Cpu
  noff : Cpu → Nat
  cproc : Cpu → Option Slot
  sched : Cpu → SchedPoint
  point : Slot → Point
  irq : Cpu → Point
  ret : Slot → Int
  nextpid : Int
  initproc : Option Slot
  mem : M

/-- What a thread does next where the model leaves it open: which call it makes, or how a test
ends that depends on data outside the model. -/
inductive Choice (M : Type)
  | go
  | yes
  | no
  | lock (l : Lock)
  | unlock (l : Lock)
  | store (m : M)
  | wakeup (chan : Chan)
  | kill (pid : Int)
  | setkilled
  | sleep (chan : Nat) (l : Lock)
  | fork
  | exit (status : Int)
  | wait
  | loop (l : Loop)

inductive Stop
  | disabled
  | panicAcquire
  | panicRelease
  | panicSchedLock
  | panicSchedLocks
  | panicSchedRunning
  | panicInitExiting
  | panicZombieExit
  deriving DecidableEq

namespace State

variable (s : State M)

def setProc (q : Slot) (v : Proc) : State M := { s with procs := update s.procs q v }

def setState (q : Slot) (x : ProcState) : State M := s.setProc q { s.procs q with state := x }

def setPoint (p : Slot) (x : Point) : State M := { s with point := update s.point p x }

def setSched (c : Cpu) (x : SchedPoint) : State M := { s with sched := update s.sched c x }

/-- The control of what runs on a CPU: a thread, or the interrupt handler of `scheduler`. -/
def put (c : Cpu) : Option Slot → Point → State M
  | some p, x => s.setPoint p x
  | none, x => { s with irq := update s.irq c x }

section Locks

def acquireP (c : Cpu) (q : Slot) : Except Stop (State M) :=
  match s.plock q with
  | none => .ok { s with
      plock := update s.plock q (some c)
      noff := update s.noff c (s.noff c + 1) }
  | some c' => .error (if c' = c then .panicAcquire else .disabled)

def releaseP (c : Cpu) (q : Slot) : Except Stop (State M) :=
  if s.plock q = some c then
    .ok { s with
      plock := update s.plock q none
      noff := update s.noff c (s.noff c - 1) }
  else .error .panicRelease

def acquireL (c : Cpu) (l : Lock) : Except Stop (State M) :=
  match s.lock l with
  | none => .ok { s with
      lock := update s.lock l (some c)
      noff := update s.noff c (s.noff c + 1) }
  | some c' => .error (if c' = c then .panicAcquire else .disabled)

def releaseL (c : Cpu) (l : Lock) : Except Stop (State M) :=
  if s.lock l = some c then
    .ok { s with
      lock := update s.lock l none
      noff := update s.noff c (s.noff c - 1) }
  else .error .panicRelease

end Locks

section Bodies

/-- `if(p->state == SLEEPING && p->chan == chan) p->state = RUNNABLE`. -/
def wakeSlot (chan : Option Chan) (q : Slot) : State M :=
  if (s.procs q).state = .sleeping ∧ (s.procs q).chan = chan then s.setState q .runnable else s

/-- `p->killed = 1; if(p->state == SLEEPING) p->state = RUNNABLE`. -/
def killSlot (q : Slot) : State M :=
  let s := s.setProc q { s.procs q with killed := true }
  if (s.procs q).state = .sleeping then s.setState q .runnable else s

/-- `freeproc`: every field is cleared. -/
def freeproc (q : Slot) : State M := s.setProc q .zero

/-- `allocproc` in an unused slot. -/
def allocSlot (q : Slot) : State M :=
  { s.setProc q { s.procs q with pid := s.nextpid, state := .used } with
    nextpid := int (s.nextpid + 1)
    point := update s.point q (.forkret q) }

end Bodies

/-- The statements that a thread and an interrupt handler share; `self` is `myproc()`. -/
def shared (c : Cpu) (self : Option Slot) : Point → Except Stop (State M)
  | .lockP q next =>
    match s.acquireP c q with
    | .ok t => .ok (t.put c self next)
    | .error e => .error e
  | .unlockP q next =>
    match s.releaseP c q with
    | .ok t => .ok (t.put c self next)
    | .error e => .error e
  | .wakeup chan i next =>
    if h : i < nproc then
      if some ⟨i, h⟩ = s.cproc c then .ok (s.put c self (.wakeup chan (i + 1) next))
      else .ok (s.put c self (.lockP ⟨i, h⟩ (.wakeupAt chan ⟨i, h⟩
        (.unlockP ⟨i, h⟩ (.wakeup chan (i + 1) next)))))
    else .ok (s.put c self next)
  | .wakeupAt chan q next => .ok ((s.wakeSlot chan q).put c self next)
  | _ => .error .disabled

/-- The calls that a thread and an interrupt handler share. -/
def sharedCall (c : Cpu) (self : Option Slot) : Choice M → Except Stop (State M)
  | .lock l => s.acquireL c l
  | .unlock l => s.releaseL c l
  | .store m => .ok { s with mem := m }
  | .wakeup chan => .ok (s.put c self (.wakeup (some chan) 0 .run))
  | _ => .error .disabled

/-- A thread outside the calls modelled here makes one. -/
def call (c : Cpu) (p : Slot) : Choice M → Except Stop (State M)
  | .kill pid => .ok (s.setPoint p (.kill pid 0))
  | .setkilled => .ok (s.setPoint p (.lockP p .setKilled))
  | .sleep addr l => .ok (s.setPoint p (.sleep p (.other addr) l .run))
  | .fork => .ok (s.setPoint p (.alloc 0))
  | .exit status =>
    if s.initproc = some p then .error .panicInitExiting
    else .ok (s.setPoint p (.lockL .wait (.reparent 0 status)))
  | .wait => .ok (s.setPoint p (.lockL .wait (.wait 0 false)))
  | .loop l => .ok (s.setPoint p (.lockL l.lock (.loop l)))
  | ch => s.sharedCall c (some p) ch

/-- One statement of `kill`. -/
def killStep (p : Slot) (pid : Int) (i : Nat) : State M :=
  if h : i < nproc then s.setPoint p (.lockP ⟨i, h⟩ (.killAt pid ⟨i, h⟩))
  else s.setPoint p (.ret (-1))

def killBody (p : Slot) (pid : Int) (q : Slot) : State M :=
  if (s.procs q).pid = pid then (s.killSlot q).setPoint p (.unlockP q (.ret 0))
  else s.setPoint p (.unlockP q (.kill pid (q.val + 1)))

/-- `swtch` to the scheduler, with the tests of `sched`. -/
def schedSwitch (c : Cpu) (p : Slot) (next : Point) : Except Stop (State M) :=
  if s.plock p ≠ some c then .error .panicSchedLock
  else if s.noff c ≠ 1 then .error .panicSchedLocks
  else if (s.procs p).state = .running then .error .panicSchedRunning
  else .ok ((s.setPoint p next).setSched c (.back p))

/-- One round of the loop of `reparent`, or what `exit` does after it. -/
def reparentStep (p : Slot) (i : Nat) (status : Int) : State M :=
  if h : i < nproc then
    if (s.procs ⟨i, h⟩).parent = some p then
      (s.setProc ⟨i, h⟩ { s.procs ⟨i, h⟩ with parent := s.initproc }).setPoint p
        (.wakeup (s.initproc.map .proc) 0 (.reparent (i + 1) status))
    else s.setPoint p (.reparent (i + 1) status)
  else s.setPoint p (.wakeup ((s.procs p).parent.map .proc) 0 (.lockP p (.exitSet status)))

/-- One round of the scan of `wait`, or what it does after the scan. -/
def waitStep (p : Slot) (i : Nat) (havekids : Bool) : State M :=
  if h : i < nproc then
    if (s.procs ⟨i, h⟩).parent = some p then
      s.setPoint p (.lockP ⟨i, h⟩ (.waitAt ⟨i, h⟩))
    else s.setPoint p (.wait (i + 1) havekids)
  else if havekids = false then s.setPoint p (.unlockL .wait (.ret (-1)))
  else s.setPoint p (.killed p (.unlockL .wait (.ret (-1)))
    (.sleep p (.proc p) .wait (.wait 0 false)))

/-- `wait` at a child: `ch` is `no` when `copyout` fails. -/
def waitBody (p q : Slot) (ch : Choice M) : State M :=
  if (s.procs q).state = .zombie then
    match ch with
    | .no => s.setPoint p (.unlockP q (.unlockL .wait (.ret (-1))))
    | _ => (s.freeproc q).setPoint p (.unlockP q (.unlockL .wait (.ret (s.procs q).pid)))
  else s.setPoint p (.unlockP q (.wait (q.val + 1) true))

def allocStep (p : Slot) (i : Nat) : State M :=
  if h : i < nproc then s.setPoint p (.lockP ⟨i, h⟩ (.allocAt ⟨i, h⟩))
  else s.setPoint p (.ret (-1))

def allocBody (p q : Slot) : State M :=
  if (s.procs q).state = .unused then (s.allocSlot q).setPoint p (.copying q)
  else s.setPoint p (.unlockP q (.alloc (q.val + 1)))

/-- `fork` after `allocproc`: `ch` is `no` when memory runs out. -/
def copyBody (p q : Slot) : Choice M → State M
  | .no => (s.freeproc q).setPoint p (.unlockP q (.ret (-1)))
  | _ => s.setPoint p (.unlockP q (.lockL .wait (.setParent q)))

/-- The test of a killable loop. `pipewrite` first looks whether the pipe is still open for
reading, and then at `killed`; the other loops first look whether they can go on. -/
def loopStep (p : Slot) (l : Loop) (ch : Choice M) : State M :=
  let stop : Point := .unlockL l.lock (.ret (-1))
  match l, ch with
  | .pipewrite _, .yes => s.setPoint p stop
  | .pipewrite pi, _ => s.setPoint p (.killed p stop (.full pi))
  | _, .yes => s.setPoint p .run
  | l, _ => s.setPoint p (.killed p stop (.sleep p l.chan l.lock (.loop l)))

/-- `pipewrite` looks whether the pipe is full: it sleeps, writes a byte, or has written all. -/
def fullStep (p : Slot) (pi : Nat) : Choice M → State M
  | .no => s.setPoint p (.wakeup (some (nreadChan pi)) 0
      (.sleep p (nwriteChan pi) (.pipe pi) (.loop (.pipewrite pi))))
  | .yes => s.setPoint p (.loop (.pipewrite pi))
  | _ => s.setPoint p .run

/-- One statement of the thread of `p` on CPU `c`. -/
def threadStep (c : Cpu) (p : Slot) (ch : Choice M) : Except Stop (State M) :=
  match s.point p with
  | .run => s.call c p ch
  | .ret v => .ok ({ s with ret := update s.ret p v }.setPoint p .run)
  | .lockL l next =>
    match s.acquireL c l with
    | .ok t => .ok (t.setPoint p next)
    | .error e => .error e
  | .unlockL l next =>
    match s.releaseL c l with
    | .ok t => .ok (t.setPoint p next)
    | .error e => .error e
  | .kill pid i => .ok (s.killStep p pid i)
  | .killAt pid q => .ok (s.killBody p pid q)
  | .readKilled yes no =>
    .ok (s.setPoint p (.unlockP p (if (s.procs p).killed = true then yes else no)))
  | .setKilled =>
    .ok ((s.setProc p { s.procs p with killed := true }).setPoint p (.unlockP p .run))
  | .yieldSet next => .ok ((s.setState p .runnable).setPoint p (.sched (.unlockP p next)))
  | .sleepSet chan l next =>
    .ok ((s.setProc p { s.procs p with chan := some chan, state := .sleeping }).setPoint p
      (.sched (.wake p l next)))
  | .sched next => s.schedSwitch c p next
  | .tidyUp next => .ok ((s.setProc p { s.procs p with chan := none }).setPoint p next)
  | .reparent i status => .ok (s.reparentStep p i status)
  | .exitSet status =>
    .ok ((s.setProc p { s.procs p with xstate := status, state := .zombie }).setPoint p
      (.unlockL .wait (.sched .dead)))
  | .dead => .error .panicZombieExit
  | .wait i havekids => .ok (s.waitStep p i havekids)
  | .waitAt q => .ok (s.waitBody p q ch)
  | .alloc i => .ok (s.allocStep p i)
  | .allocAt q => .ok (s.allocBody p q)
  | .copying q => .ok (s.copyBody p q ch)
  | .setParent q =>
    .ok ((s.setProc q { s.procs q with parent := some p }).setPoint p
      (.unlockL .wait (.lockP q (.setRunnable q))))
  | .setRunnable q =>
    .ok ((s.setState q .runnable).setPoint p (.unlockP q (.ret (s.procs q).pid)))
  | .loop l => .ok (s.loopStep p l ch)
  | .full pi => .ok (s.fullStep p pi ch)
  | x => s.shared c (some p) x

/-- A timer interrupt where interrupts are enabled: `yield`, and then the thread goes on. -/
def preempt (c : Cpu) (p : Slot) : Except Stop (State M) :=
  if s.noff c = 0 then .ok (s.setPoint p (.lockP p (.yieldSet (s.point p))))
  else .error .disabled

/-- One statement of an interrupt handler that runs on CPU `c` above `scheduler`. -/
def irqStep (c : Cpu) (ch : Choice M) : Except Stop (State M) :=
  match s.irq c with
  | .run => s.sharedCall c none ch
  | x => s.shared c none x

/-- One statement of `scheduler` on CPU `c`. Interrupts are enabled before each `acquire`. -/
def schedStep (c : Cpu) : Except Stop (State M) :=
  match s.sched c with
  | .pick i =>
    if s.irq c ≠ .run ∨ s.noff c ≠ 0 then .error .disabled
    else if h : i < nproc then
      match s.acquireP c ⟨i, h⟩ with
      | .ok t => .ok (t.setSched c (.test ⟨i, h⟩))
      | .error e => .error e
    else .ok (s.setSched c (.pick 0))
  | .test p =>
    if (s.procs p).state = .runnable then .ok (s.setSched c (.choose p))
    else .ok (s.setSched c (.drop p))
  | .choose p => .ok ((s.setState p .running).setSched c (.assign p))
  | .assign p =>
    .ok ({ s with cproc := update s.cproc c (some p) }.setSched c (.switch p))
  | .switch p => .ok (s.setSched c (.inside p))
  | .inside _ => .error .disabled
  | .back p => .ok ({ s with cproc := update s.cproc c none }.setSched c (.drop p))
  | .drop p =>
    match s.releaseP c p with
    | .ok t => .ok (t.setSched c (.pick (p.val + 1)))
    | .error e => .error e

end State

inductive Act (M : Type)
  | sched (c : Cpu)
  | thread (c : Cpu) (ch : Choice M)
  | irq (c : Cpu) (ch : Choice M)
  | timer (c : Cpu)

def step (s : State M) : Act M → Except Stop (State M)
  | .sched c => s.schedStep c
  | .thread c ch =>
    match s.sched c with
    | .inside p => s.threadStep c p ch
    | _ => .error .disabled
  | .irq c ch =>
    match s.sched c with
    | .pick _ => s.irqStep c ch
    | _ => .error .disabled
  | .timer c =>
    match s.sched c with
    | .inside p => s.preempt c p
    | _ => .error .disabled

/-- After `userinit`: the first process is ready to run, and every CPU enters `scheduler`. -/
def boot (m : M) : State M where
  procs := update (fun _ => .zero) 0 { Proc.zero with pid := 1, state := .runnable }
  plock _ := none
  lock _ := none
  noff _ := 0
  cproc _ := none
  sched _ := .pick 0
  point p := .forkret p
  irq _ := .run
  ret _ := 0
  nextpid := 2
  initproc := some 0
  mem := m

end FogOS.Sched
