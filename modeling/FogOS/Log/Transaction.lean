import FogOS.Log.Commit
import FogOS.Library.Transition

/-!
# Group commit: `begin_op`, `log_write` and `end_op`

Any number of processes share one log. Each critical section under `log.lock` is
one step, and `commit`, which runs without the lock, is split at its disk
writes. `epoch`, `nextOp` and `wrote` are history: they number the commits and
the operations and record which operation logged which block before which
commit.
-/

namespace FogOS.Log

/-- The places inside `commit`: at its test of `lh.n`, and after each of its four calls. -/
inductive Stage where
  | entry | logWritten | headWritten | installed | finished
  deriving DecidableEq

/-- Where a process is with respect to the log. -/
inductive Phase where
  | idle
  | sleeping
  | waiting
  | inOp (op : Nat)
  | commit (stage : Stage)
  deriving DecidableEq

namespace Phase

/-- Between `begin_op` and `end_op`. -/
def isOp : Phase → Bool
  | inOp _ => true
  | _ => false

/-- Inside the committing part of `end_op`. -/
def isCommit : Phase → Bool
  | commit _ => true
  | _ => false

attribute [simp] isOp.eq_1 isOp.eq_2 isCommit.eq_1 isCommit.eq_2

end Phase

/-- One `log_write`: the operation, the block and the commit it waits for. -/
structure Entry where
  op : Nat
  block : Nat
  epoch : Nat
  deriving DecidableEq

/-- `struct log` with the processes around it. -/
structure LogState (ι : Type*) where
  outstanding : Int
  committing : Bool
  lh : List Nat
  phase : ι → Phase
  nextOp : Nat
  epoch : Nat
  wrote : List Entry

inductive LogPanic where
  | tooBig
  | outsideTrans
  | committing
  deriving DecidableEq

/-- Why a step is not taken: the process is elsewhere, or the kernel panics. -/
inductive Halt where
  | disabled
  | panic (p : LogPanic)
  deriving DecidableEq

inductive Event (ι : Type*) where
  | beginOp (p : ι)
  | logWrite (p : ι) (b : Nat)
  | endOp (p : ι)
  | commitStep (p : ι) (stage : Stage)
  deriving DecidableEq

namespace LogState

variable {ι : Type*} [DecidableEq ι]

@[simps outstanding committing lh]
def setPhase (s : LogState ι) (p : ι) (ph : Phase) : LogState ι :=
  { s with phase := Function.update s.phase p ph }

/-- `wakeup(&log)`: every sleeper tests its conditions again. -/
@[simps outstanding committing lh]
def wakeup (s : LogState ι) : LogState ι :=
  { s with phase := fun q => if s.phase q = .sleeping then .waiting else s.phase q }

/-- One pass of the loop of `begin_op`. -/
def beginOp (s : LogState ι) (p : ι) : Except Halt (LogState ι) :=
  if s.phase p = .idle ∨ s.phase p = .waiting then
    if s.committing then .ok (s.setPhase p .sleeping)
    else if (s.lh.length : Int) + (s.outstanding + 1) * maxOpBlocks > logSize then
      .ok (s.setPhase p .sleeping)
    else
      .ok { s.setPhase p (.inOp s.nextOp) with
        outstanding := s.outstanding + 1
        nextOp := s.nextOp + 1 }
  else .error .disabled

/-- `log_write` by a process inside an operation; `size` is `log.size`. -/
def logWrite (size : Nat) (s : LogState ι) (p : ι) (b : Nat) : Except Halt (LogState ι) :=
  match s.phase p with
  | .inOp op =>
    if s.lh.length ≥ logSize ∨ (s.lh.length : Int) ≥ (size : Int) - 1 then
      .error (.panic .tooBig)
    else if s.outstanding < 1 then .error (.panic .outsideTrans)
    else .ok { s with
      lh := absorb s.lh b
      wrote := ⟨op, b, s.epoch⟩ :: s.wrote }
  | _ => .error .disabled

/-- The first critical section of `end_op`. -/
def endOp (s : LogState ι) (p : ι) : Except Halt (LogState ι) :=
  match s.phase p with
  | .inOp _ =>
    let s' := { s with outstanding := s.outstanding - 1 }
    if s'.committing then .error (.panic .committing)
    else if s'.outstanding = 0 then
      .ok ({ s' with committing := true }.setPhase p (.commit .entry))
    else .ok (s'.wakeup.setPhase p .idle)
  | _ => .error .disabled

/-- One part of `commit`, and after it the last critical section of `end_op`. -/
def commitStep (s : LogState ι) (p : ι) (stage : Stage) : Except Halt (LogState ι) :=
  if s.phase p = .commit stage then
    match stage with
    | .entry => .ok (s.setPhase p (.commit (if 0 < s.lh.length then .logWritten else .finished)))
    | .logWritten => .ok (s.setPhase p (.commit .headWritten))
    | .headWritten =>
      .ok ({ s with lh := [], epoch := s.epoch + 1 }.setPhase p (.commit .installed))
    | .installed => .ok (s.setPhase p (.commit .finished))
    | .finished => .ok ({ s with committing := false }.wakeup.setPhase p .idle)
  else .error .disabled

def step (size : Nat) (s : LogState ι) : Event ι → Except Halt (LogState ι)
  | .beginOp p => s.beginOp p
  | .logWrite p b => s.logWrite size p b
  | .endOp p => s.endOp p
  | .commitStep p stage => s.commitStep p stage

/-- The log after `initlog`, with no process in an operation. -/
def init : LogState ι where
  outstanding := 0
  committing := false
  lh := []
  phase := fun _ => .idle
  nextOp := 0
  epoch := 0
  wrote := []

end LogState

end FogOS.Log
