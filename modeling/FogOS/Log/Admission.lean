import FogOS.Log.Invariant

/-!
# Log space admission

`begin_op` reserves `MAXOPBLOCKS` of `LOGSIZE` entries for each operation, but
the log that `mkfs` makes has only `LOGSIZE - 1` data blocks, and `log_write`
tests for room before it looks for an entry to absorb. A run is therefore safe
exactly while its transactions stay one block short of what was reserved.
-/

namespace FogOS.Log

open Library

variable {ι : Type*} [DecidableEq ι]

/-- The distinct blocks logged since the last time the header was cleared. -/
def pendingBlocks (evs : List (Event ι)) : Finset Nat :=
  evs.foldl (fun acc ev =>
    match ev with
    | .logWrite _ b => insert b acc
    | .commitStep _ .headWritten => ∅
    | _ => acc) ∅

/-- The distinct blocks that the latest operation of `p` has logged. -/
def opBlocks (p : ι) (evs : List (Event ι)) : Finset Nat :=
  evs.foldl (fun acc ev =>
    match ev with
    | .beginOp q => if q = p then ∅ else acc
    | .logWrite q b => if q = p then insert b acc else acc
    | _ => acc) ∅

/-- Every operation logs at most `n` distinct blocks. -/
def OpsWithin (n : Nat) (evs : List (Event ι)) : Prop :=
  ∀ pre ∈ evs.inits, ∀ p, (opBlocks p pre).card ≤ n

section History

variable (p : ι) (b : Nat) (st : Stage) (evs : List (Event ι))

omit [DecidableEq ι] in
@[simp] theorem pendingBlocks_beginOp :
    pendingBlocks (evs ++ [.beginOp p]) = pendingBlocks evs := by
  simp [pendingBlocks]

omit [DecidableEq ι] in
@[simp] theorem pendingBlocks_logWrite :
    pendingBlocks (evs ++ [.logWrite p b]) = insert b (pendingBlocks evs) := by
  simp [pendingBlocks]

omit [DecidableEq ι] in
@[simp] theorem pendingBlocks_endOp : pendingBlocks (evs ++ [.endOp p]) = pendingBlocks evs := by
  simp [pendingBlocks]

omit [DecidableEq ι] in
theorem pendingBlocks_commitStep :
    pendingBlocks (evs ++ [.commitStep p st]) =
      if st = .headWritten then ∅ else pendingBlocks evs := by
  cases st <;> simp [pendingBlocks]

theorem toFinset_absorb (bs : List Nat) : (absorb bs b).toFinset = insert b bs.toFinset := by
  unfold absorb
  split
  · next h => simp [h]
  · simp

end History

namespace LogState

variable [Fintype ι] {size : Nat} {s : LogState ι}

omit [Fintype ι] in
/-- The header lists the pending blocks. -/
theorem lh_toFinset_step {pre : List (Event ι)} {s' : LogState ι} {ev : Event ι}
    (h : s.lh.toFinset = pendingBlocks pre) (hs : s.step size ev = .ok s') :
    s'.lh.toFinset = pendingBlocks (pre ++ [ev]) := by
  cases ev with
  | beginOp p =>
    simp only [step, beginOp] at hs
    split at hs <;> [split at hs <;> [skip; split at hs]; skip] <;> cases hs <;> simpa using h
  | logWrite p b =>
    simp only [step, logWrite] at hs
    split at hs <;> [split at hs <;> [skip; split at hs]; skip] <;> cases hs
    simp [toFinset_absorb, h]
  | endOp p =>
    simp only [step, endOp] at hs
    split at hs <;> [split at hs <;> [skip; split at hs]; skip] <;> cases hs <;> simpa using h
  | commitStep p st =>
    simp only [step, commitStep] at hs
    rw [pendingBlocks_commitStep]
    obtain ⟨_, hs⟩ := of_guard hs
    cases st <;> cases hs <;> simp [h]

theorem lh_length_eq {evs : List (Event ι)}
    (hs : run (step size) init evs = .ok s) : s.lh.length = (pendingBlocks evs).card := by
  have hset : s.lh.toFinset = pendingBlocks evs :=
    run_history (I := fun pre s => s.lh.toFinset = pendingBlocks pre) rfl
      (fun _ _ _ _ h hstep => lh_toFinset_step h hstep) hs
  rw [← hset, List.toFinset_card_of_nodup (Inv.run hs).nodup]

/-- `log_write` is called in `s`: the process is inside an operation. -/
def InOp (s : LogState ι) (p : ι) : Prop := (s.phase p).isOp = true

omit [DecidableEq ι] [Fintype ι] in
/-- Exactly a full log makes `log_write` panic for want of space. -/
theorem logWrite_tooBig_iff {p : ι} {b : Nat} :
    s.logWrite size p b = .error (.panic .tooBig) ↔
      s.InOp p ∧ (logSize ≤ s.lh.length ∨ size ≤ s.lh.length + 1) := by
  unfold logWrite InOp
  split
  · next op hp =>
    have hiff : (s.lh.length ≥ logSize ∨ (s.lh.length : Int) ≥ (size : Int) - 1) ↔
        (logSize ≤ s.lh.length ∨ size ≤ s.lh.length + 1) := by omega
    split
    · next hfull => simp [hp, hiff.mp hfull]
    · next hroom =>
      rw [hiff] at hroom
      split <;> simp [hroom]
  · next hno =>
    constructor
    · intro h
      cases h
    · rintro ⟨hop, _⟩
      cases hph : s.phase p with
      | inOp n => exact absurd hph (hno n)
      | idle => simp [hph] at hop
      | sleeping => simp [hph] at hop
      | waiting => simp [hph] at hop
      | commit st => simp [hph] at hop

omit [Fintype ι] in
theorem step_tooBig {ev : Event ι} (h : s.step size ev = .error (.panic .tooBig)) :
    ∃ p b, ev = .logWrite p b ∧ s.logWrite size p b = .error (.panic .tooBig) := by
  cases ev with
  | beginOp p =>
    simp only [step, beginOp] at h
    split at h <;> [split at h <;> [skip; split at h]; skip] <;> cases h
  | logWrite p b => exact ⟨p, b, rfl, h⟩
  | endOp p =>
    simp only [step, endOp] at h
    split at h <;> [split at h <;> [skip; split at h]; skip] <;> cases h
  | commitStep p st =>
    simp only [step, commitStep] at h
    split at h
    · cases st <;> cases h
    · cases h

/-- Three operations of `MAXOPBLOCKS` blocks each, admitted together. -/
def threeFull : List (Event (Fin 3)) :=
  [.beginOp 0, .beginOp 1, .beginOp 2] ++
    (List.range 30).map fun i => .logWrite (Fin.ofNat 3 (i / 10)) (100 + i)

end LogState

end FogOS.Log
