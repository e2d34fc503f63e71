import FogOS.Library.Transition

/-!
# The process table

The fields of `struct proc` that `p->lock` and `wait_lock` protect, and the parts of
`fork`, `exit`, `wait` and `kill` that use them. A step is one critical section under
`wait_lock` or under one `p->lock`, made by a running process or by a scheduler.
What lies outside these sections is private to the process that executes it.
-/

namespace FogOS.Process

open Function Library

/-- `NPROC`. -/
abbrev nproc : Nat := 64

instance neZero_nproc : NeZero nproc := ⟨by decide⟩

/-- A slot of the array `proc`. -/
abbrev Slot : Type := Fin nproc

inductive ProcState
  | unused
  | used
  | sleeping
  | runnable
  | running
  | zombie
  deriving DecidableEq

/-- A sleep channel: the address of a `struct proc`, or another address. -/
inductive Chan
  | proc (p : Slot)
  | other (addr : Nat)
  deriving DecidableEq

structure Proc where
  state : ProcState
  chan : Option Chan
  killed : Bool
  xstate : Int
  pid : Int
  parent : Option Slot
  deriving DecidableEq

/-- A slot all of whose bytes are zero. -/
def Proc.zero : Proc := ⟨.unused, none, false, 0, 0, none⟩

/-- Where the kernel thread of a process is between two critical sections: outside the calls
modelled here, in `fork` before and after it has set the parent of the child, in `wait` before
it scans the table, in `kill` before it looks at slot `i`, or gone after `exit`. -/
inductive Phase
  | user
  | forked (np : Slot)
  | adopted (np : Slot)
  | waiting (addr : Nat)
  | killing (pid : Int) (i : Nat)
  | exited
  deriving DecidableEq

/-- What the calls did, oldest first. A process is named by its slot and by the number of times
the slot had been allocated. -/
inductive Event
  | exited (q : Slot) (life : Nat) (pid status : Int)
  | reaped (parent q : Slot) (life : Nat) (pid : Int) (status : Option Int)
  | waitFailed (p : Slot)
  | killReturned (p : Slot) (pid ret : Int)
  deriving DecidableEq

structure Table where
  procs : Slot → Proc
  phase : Slot → Phase
  nextpid : Int
  initproc : Slot
  lives : Slot → Nat
  events : List Event

/-- Why a step is not made: it is not enabled, or the kernel panics. -/
inductive Stop
  | disabled
  | initExiting
  deriving DecidableEq

/-- The value of an `int` after an assignment. -/
def int (n : Int) : Int := Int.bmod n (2 ^ 32)

namespace Table

@[simps procs phase lives events initproc]
def setProc (t : Table) (q : Slot) (pr : Proc) : Table :=
  { t with procs := update t.procs q pr }

@[simps procs phase lives events initproc]
def setPhase (t : Table) (q : Slot) (ph : Phase) : Table :=
  { t with phase := update t.phase q ph }

@[simps procs phase lives events initproc]
def emit (t : Table) (e : Event) : Table := { t with events := t.events ++ [e] }

/-- The process runs and its thread is at the given point. -/
def At (t : Table) (p : Slot) (ph : Phase) : Prop :=
  (t.procs p).state = .running ∧ t.phase p = ph

instance (t : Table) (p : Slot) (ph : Phase) : Decidable (t.At p ph) := by
  unfold At
  infer_instance

section Allocation

/-- `allocproc` has found the slot `np` unused: it takes a process id and the slot, and makes a
new thread. The other fields keep the values they have. -/
def allocproc (t : Table) (np : Slot) : Table :=
  { (t.setProc np { t.procs np with pid := t.nextpid, state := .used }).setPhase np .user with
    nextpid := int (t.nextpid + 1)
    lives := update t.lives np (t.lives np + 1) }

def freeproc (t : Table) (p : Slot) : Table :=
  t.setProc p { t.procs p with
    pid := 0, parent := none, chan := none, killed := false, xstate := 0, state := .unused }

/-- `fork` up to the release of `np->lock`. The scan for an unused slot looks at one slot at a
time, so it may find any unused slot or none; `memory` says whether there is memory for the
trapframe, the page table and the copy of the parent's pages. -/
def fork (t : Table) (p : Slot) (found : Option Slot) (memory : Bool) : Except Stop Table :=
  if t.At p .user then
    match found with
    | none => .ok t
    | some np =>
      if (t.procs np).state ≠ .unused then .error .disabled
      else if memory = true then .ok ((t.allocproc np).setPhase p (.forked np))
      else .ok ((t.allocproc np).freeproc np)
  else .error .disabled

/-- `np->parent = p` under `wait_lock`. -/
def forkParent (t : Table) (p : Slot) : Except Stop Table :=
  match t.phase p with
  | .forked np =>
    if (t.procs p).state = .running then
      .ok ((t.setProc np { t.procs np with parent := some p }).setPhase p (.adopted np))
    else .error .disabled
  | _ => .error .disabled

/-- `np->state = RUNNABLE` under `np->lock`. -/
def forkRunnable (t : Table) (p : Slot) : Except Stop Table :=
  match t.phase p with
  | .adopted np =>
    if (t.procs p).state = .running then
      .ok ((t.setProc np { t.procs np with state := .runnable }).setPhase p .user)
    else .error .disabled
  | _ => .error .disabled

end Allocation

section Sleep

def wakeup (t : Table) (me : Slot) (chan : Option Chan) : Table :=
  { t with procs := fun q =>
      if q ≠ me ∧ (t.procs q).state = .sleeping ∧ (t.procs q).chan = chan then
        { t.procs q with state := .runnable }
      else t.procs q }

theorem wakeup_parent (t : Table) (me : Slot) (chan : Option Chan) (q : Slot) :
    ((t.wakeup me chan).procs q).parent = (t.procs q).parent := by
  simp only [wakeup]
  split <;> rfl

theorem wakeup_self (t : Table) (me : Slot) (chan : Option Chan) :
    (t.wakeup me chan).procs me = t.procs me := by
  simp [wakeup]

/-- `sleep` up to `sched`. -/
def sleep (t : Table) (p : Slot) (chan : Chan) : Table :=
  t.setProc p { t.procs p with chan := some chan, state := .sleeping }

end Sleep

section Exit

/-- The children of `p` get `init` as their parent. -/
def adopt (t : Table) (p : Slot) : Table :=
  { t with procs := fun q =>
      if (t.procs q).parent = some p then { t.procs q with parent := some t.initproc }
      else t.procs q }

/-- Give the children of `p` to `init`; for each of them `init` is woken up. -/
def reparent (t : Table) (p : Slot) : Table :=
  if ∃ q, (t.procs q).parent = some p then (t.adopt p).wakeup p (some (.proc t.initproc))
  else t.adopt p

theorem reparent_self_state {t : Table} {p : Slot} {s : ProcState} (h : (t.procs p).state = s) :
    ((t.reparent p).procs p).state = s := by
  have hadopt : ((t.adopt p).procs p).state = s := by
    simp only [adopt]
    split <;> exact h
  unfold reparent
  split
  · rw [wakeup_self]
    exact hadopt
  · exact hadopt

/-- `exit` from the acquisition of `wait_lock` on. -/
def exit (t : Table) (p : Slot) (status : Int) : Except Stop Table :=
  if t.At p .user then
    if p = t.initproc then .error .initExiting
    else
      let t := t.reparent p
      let t := t.wakeup p ((t.procs p).parent.map .proc)
      let t := t.setProc p { t.procs p with xstate := status, state := .zombie }
      .ok ((t.setPhase p .exited).emit (.exited p (t.lives p) (t.procs p).pid status))
  else .error .disabled

def wait (t : Table) (p : Slot) (addr : Nat) : Except Stop Table :=
  if t.At p .user then .ok (t.setPhase p (.waiting addr)) else .error .disabled

/-- The zombie child that the scan of `wait` finds first. -/
def zombieChild (t : Table) (p : Slot) : Option Slot :=
  (List.finRange nproc).find? fun q =>
    decide ((t.procs q).parent = some p ∧ (t.procs q).state = .zombie)

/-- One round of the loop of `wait` under `wait_lock`; `copied` is the success of the `copyout`
of the exit status. -/
def waitScan (t : Table) (p : Slot) (copied : Bool) : Except Stop Table :=
  match t.phase p with
  | .waiting addr =>
    if (t.procs p).state = .running then
      match t.zombieChild p with
      | some q =>
        if addr ≠ 0 ∧ copied = false then .ok ((t.setPhase p .user).emit (.waitFailed p))
        else .ok (((t.freeproc q).setPhase p .user).emit (.reaped p q (t.lives q) (t.procs q).pid
            (if addr ≠ 0 then some (t.procs q).xstate else none)))
      | none =>
        if (∀ q, (t.procs q).parent ≠ some p) ∨ (t.procs p).killed = true then
          .ok ((t.setPhase p .user).emit (.waitFailed p))
        else .ok (t.sleep p (.proc p))
    else .error .disabled
  | _ => .error .disabled

end Exit

section Kill

def kill (t : Table) (p : Slot) (pid : Int) : Except Stop Table :=
  if t.At p .user then .ok (t.setPhase p (.killing pid 0)) else .error .disabled

/-- One round of the loop of `kill`, under the lock of slot `i`. -/
def killSlot (t : Table) (p : Slot) : Except Stop Table :=
  match t.phase p with
  | .killing pid i =>
    if (t.procs p).state = .running then
      if h : i < nproc then
        let q : Slot := ⟨i, h⟩
        if (t.procs q).pid = pid then
          let state := if (t.procs q).state = .sleeping then .runnable else (t.procs q).state
          .ok (((t.setProc q { t.procs q with killed := true, state := state }).setPhase p
            .user).emit (.killReturned p pid 0))
        else .ok (t.setPhase p (.killing pid (i + 1)))
      else .ok ((t.setPhase p .user).emit (.killReturned p pid (-1)))
    else .error .disabled
  | _ => .error .disabled

def setkilled (t : Table) (p : Slot) : Except Stop Table :=
  if t.At p .user then .ok (t.setProc p { t.procs p with killed := true })
  else .error .disabled

end Kill

section Scheduling

/-- A scheduler switches to `p`. A thread that comes back from `sleep` clears `p->chan` before it
releases `p->lock`. -/
def dispatch (t : Table) (p : Slot) : Except Stop Table :=
  if (t.procs p).state = .runnable then
    .ok (t.setProc p { t.procs p with state := .running, chan := none })
  else .error .disabled

/-- `yield`, which a timer interrupt may call at any time. -/
def yield (t : Table) (p : Slot) : Except Stop Table :=
  if (t.procs p).state = .running then .ok (t.setProc p { t.procs p with state := .runnable })
  else .error .disabled

end Scheduling

end Table

/-- The steps of the system. `sleep` and `wakeup` are those of the rest of the kernel. -/
inductive Act
  | fork (p : Slot) (found : Option Slot) (memory : Bool)
  | forkParent (p : Slot)
  | forkRunnable (p : Slot)
  | exit (p : Slot) (status : Int)
  | wait (p : Slot) (addr : Nat)
  | waitScan (p : Slot) (copied : Bool)
  | kill (p : Slot) (pid : Int)
  | killSlot (p : Slot)
  | setkilled (p : Slot)
  | sleep (p : Slot) (chan : Chan)
  | wakeup (p : Slot) (chan : Chan)
  | dispatch (p : Slot)
  | yield (p : Slot)
  deriving DecidableEq

def step (t : Table) : Act → Except Stop Table
  | .fork p found memory => t.fork p found memory
  | .forkParent p => t.forkParent p
  | .forkRunnable p => t.forkRunnable p
  | .exit p status => t.exit p status
  | .wait p addr => t.wait p addr
  | .waitScan p copied => t.waitScan p copied
  | .kill p pid => t.kill p pid
  | .killSlot p => t.killSlot p
  | .setkilled p => t.setkilled p
  | .sleep p chan => if t.At p .user then .ok (t.sleep p chan) else .error .disabled
  | .wakeup p chan => if t.At p .user then .ok (t.wakeup p (some chan)) else .error .disabled
  | .dispatch p => t.dispatch p
  | .yield p => t.yield p

section Inversion

variable {t t' : Table} {p : Slot} {pid : Int} {i : Nat}

theorem killSlot_phase (hs : t.killSlot p = .ok t') : ∃ pid i, t.phase p = .killing pid i := by
  unfold Table.killSlot at hs
  split at hs
  · next pid i hp => exact ⟨pid, i, hp⟩
  · cases hs

/-- A round of `kill` marks the slot it looks at, goes on to the next slot, or ends with -1. -/
theorem killSlot_cases (hp : t.phase p = .killing pid i) (hs : t.killSlot p = .ok t') :
    (∃ q : Slot, (t.procs q).pid = pid ∧ t' = ((t.setProc q { t.procs q with
        killed := true
        state := if (t.procs q).state = .sleeping then .runnable else (t.procs q).state }).setPhase p
          .user).emit (.killReturned p pid 0)) ∨
    t' = t.setPhase p (.killing pid (i + 1)) ∨
    t' = (t.setPhase p .user).emit (.killReturned p pid (-1)) := by
  simp only [Table.killSlot, hp] at hs
  obtain ⟨_, hs⟩ := of_guard hs
  split at hs
  · next hi =>
    split at hs
    · next hpid =>
      cases hs
      exact .inl ⟨⟨i, hi⟩, hpid, rfl⟩
    · cases hs
      exact .inr (.inl rfl)
  · cases hs
    exact .inr (.inr rfl)

theorem waitScan_phase {copied : Bool} (hs : t.waitScan p copied = .ok t') :
    ∃ addr, t.phase p = .waiting addr := by
  unfold Table.waitScan at hs
  split at hs
  · next addr hp => exact ⟨addr, hp⟩
  · cases hs

theorem zombieChild_spec {q : Slot} (h : t.zombieChild p = some q) :
    (t.procs q).parent = some p ∧ (t.procs q).state = .zombie := by
  have hq := List.find?_some h
  simpa using hq

/-- A round of `wait` reaps a zombie child, returns -1, or goes to sleep. -/
theorem waitScan_cases {addr : Nat} {copied : Bool} (hp : t.phase p = .waiting addr)
    (hs : t.waitScan p copied = .ok t') :
    (t.procs p).state = .running ∧
    ((∃ q, ((t.procs q).parent = some p ∧ (t.procs q).state = .zombie) ∧
        (addr ≠ 0 → copied = true) ∧
        t' = ((t.freeproc q).setPhase p .user).emit (.reaped p q (t.lives q) (t.procs q).pid
          (if addr ≠ 0 then some (t.procs q).xstate else none))) ∨
      (((∃ q, ((t.procs q).parent = some p ∧ (t.procs q).state = .zombie) ∧
          addr ≠ 0 ∧ copied = false) ∨
          (∀ q, (t.procs q).parent ≠ some p) ∨ (t.procs p).killed = true) ∧
        t' = (t.setPhase p .user).emit (.waitFailed p)) ∨
      ((∃ q, (t.procs q).parent = some p) ∧ t' = t.sleep p (.proc p))) := by
  simp only [Table.waitScan, hp] at hs
  obtain ⟨_, hs⟩ := of_guard hs
  next hrun =>
  refine ⟨hrun, ?_⟩
  split at hs
  · next q hq =>
    split at hs
    · next hfail =>
      cases hs
      exact .inr (.inl ⟨.inl ⟨q, zombieChild_spec hq, hfail⟩, rfl⟩)
    · next hok =>
      cases hs
      refine .inl ⟨q, zombieChild_spec hq, fun ha => ?_, rfl⟩
      exact Bool.eq_true_of_not_eq_false fun hc => hok ⟨ha, hc⟩
  · split at hs
    · next hnone =>
      cases hs
      exact .inr (.inl ⟨.inr hnone, rfl⟩)
    · next hsome =>
      cases hs
      refine .inr (.inr ⟨?_, rfl⟩)
      by_contra hno
      exact hsome (.inl fun q hq => hno ⟨q, hq⟩)

end Inversion

/-- The table after `userinit`: the first slot holds `init`. -/
def boot : Table where
  procs := update (fun _ => Proc.zero) 0 { Proc.zero with state := .runnable, pid := 1 }
  phase := fun _ => .user
  nextpid := 2
  initproc := 0
  lives := update (fun _ => 0) 0 1
  events := []

end FogOS.Process
