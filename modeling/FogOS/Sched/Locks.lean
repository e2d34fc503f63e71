import FogOS.Sched.Model

/-!
# What a step does to the locks

A step acquires or releases one lock for its CPU, or leaves all of them. It follows that
`noff` counts the locks that a CPU holds.
-/

namespace FogOS.Sched

open Function Library Process Set

namespace State

variable {M : Type} {s s' u : State M} {c c' : Cpu} {p q : Slot} {x : Point} {l : Lock}

section Locks

theorem acquireP_ok (h : s.acquireP c q = .ok u) : s.plock q = none ∧ u = { s with
    plock := update s.plock q (some c)
    noff := update s.noff c (s.noff c + 1) } := by
  unfold acquireP at h
  split at h
  · rename_i hnone
    cases h
    exact ⟨hnone, rfl⟩
  · cases h

theorem releaseP_ok (h : s.releaseP c q = .ok u) : s.plock q = some c ∧ u = { s with
    plock := update s.plock q none
    noff := update s.noff c (s.noff c - 1) } := by
  obtain ⟨hsome, ⟨⟩⟩ := of_guard h
  exact ⟨hsome, rfl⟩

theorem acquireL_ok (h : s.acquireL c l = .ok u) : s.lock l = none ∧ u = { s with
    lock := update s.lock l (some c)
    noff := update s.noff c (s.noff c + 1) } := by
  unfold acquireL at h
  split at h
  · rename_i hnone
    cases h
    exact ⟨hnone, rfl⟩
  · cases h

theorem releaseL_ok (h : s.releaseL c l = .ok u) : s.lock l = some c ∧ u = { s with
    lock := update s.lock l none
    noff := update s.noff c (s.noff c - 1) } := by
  obtain ⟨hsome, ⟨⟩⟩ := of_guard h
  exact ⟨hsome, rfl⟩

/-- The locks of the other CPUs stay when this one acquires a free lock or releases its own. -/
theorem plock_acquire (hnone : s.plock q = none) (c : Cpu) (c' : Cpu) (r : Slot)
    (hr : s.plock r = some c') : update s.plock q (some c) r = some c' := by
  have hrq : r ≠ q := by
    rintro rfl
    rw [hnone] at hr
    cases hr
  rw [update_of_ne hrq, hr]

theorem plock_release (hsome : s.plock q = some c) (hne : c' ≠ c) (r : Slot)
    (hr : s.plock r = some c') : update s.plock q none r = some c' := by
  have hrq : r ≠ q := by
    rintro rfl
    exact hne (Option.some.inj (hr.symm.trans hsome))
  rw [update_of_ne hrq, hr]

end Locks

section Inversion

/-- The control of what runs on a CPU: a thread, or the interrupt handler of `scheduler`. -/
def control (s : State M) (c : Cpu) : Point :=
  match s.sched c with
  | .inside p => s.point p
  | _ => s.irq c

theorem control_inside (hc : s.sched c = .inside p) : s.control c = s.point p := by
  rw [control, hc]

theorem control_pick {i : Nat} (hc : s.sched c = .pick i) : s.control c = s.irq c := by
  rw [control, hc]

/-- What a step of CPU `c` does to the locks. -/
inductive LockStep (c : Cpu) (s s' : State M) : Prop
  | keep (hplock : s'.plock = s.plock) (hlock : s'.lock = s.lock) (hnoff : s'.noff = s.noff)
  | acquireP (q : Slot) (hfree : s.plock q = none)
      (hplock : s'.plock = update s.plock q (some c)) (hlock : s'.lock = s.lock)
      (hnoff : s'.noff = update s.noff c (s.noff c + 1))
  | releaseP (q : Slot) (hheld : s.plock q = some c)
      (hplock : s'.plock = update s.plock q none) (hlock : s'.lock = s.lock)
      (hnoff : s'.noff = update s.noff c (s.noff c - 1))
  | acquireL (l : Lock) (hfree : s.lock l = none) (hplock : s'.plock = s.plock)
      (hlock : s'.lock = update s.lock l (some c))
      (hnoff : s'.noff = update s.noff c (s.noff c + 1))
      (hdata : s'.procs = s.procs ∧ s'.mem = s.mem)
  | releaseL (l : Lock) (hheld : s.lock l = some c) (hplock : s'.plock = s.plock)
      (hlock : s'.lock = update s.lock l none)
      (hnoff : s'.noff = update s.noff c (s.noff c - 1))
      (hdata : s'.procs = s.procs ∧ s'.mem = s.mem)
      (hcontrol : s.control c = .run ∨ ∃ next, s.control c = .unlockL l next)

/-- The rest of the state does not matter. -/
theorem LockStep.congr (h : LockStep c s u) (hplock : s'.plock = u.plock) (hlock : s'.lock = u.lock)
    (hnoff : s'.noff = u.noff) (hdata : s'.procs = u.procs ∧ s'.mem = u.mem) : LockStep c s s' := by
  cases h with
  | keep h₁ h₂ h₃ => exact .keep (hplock.trans h₁) (hlock.trans h₂) (hnoff.trans h₃)
  | acquireP q hfree h₁ h₂ h₃ =>
    exact .acquireP q hfree (hplock.trans h₁) (hlock.trans h₂) (hnoff.trans h₃)
  | releaseP q hheld h₁ h₂ h₃ =>
    exact .releaseP q hheld (hplock.trans h₁) (hlock.trans h₂) (hnoff.trans h₃)
  | acquireL l hfree h₁ h₂ h₃ h₄ =>
    exact .acquireL l hfree (hplock.trans h₁) (hlock.trans h₂) (hnoff.trans h₃)
      ⟨hdata.1.trans h₄.1, hdata.2.trans h₄.2⟩
  | releaseL l hheld h₁ h₂ h₃ h₄ hcontrol =>
    exact .releaseL l hheld (hplock.trans h₁) (hlock.trans h₂) (hnoff.trans h₃)
      ⟨hdata.1.trans h₄.1, hdata.2.trans h₄.2⟩ hcontrol

end Inversion

end State

/-- The CPU that takes a step. -/
def Act.cpu {M : Type} : Act M → Cpu
  | sched c => c
  | thread c _ => c
  | irq c _ => c
  | timer c => c

namespace State

variable {M : Type} {s s' : State M} {c : Cpu}

section Count

/-- The locks of a family that a CPU holds. -/
def owned {α : Type} (f : α → Option Cpu) (c : Cpu) : Set α := {a | f a = some c}

/-- `noff` counts the locks of the CPU. -/
def Counted (s : State M) : Prop :=
  ∀ c, (owned s.lock c).Finite ∧ s.noff c = (owned s.plock c).ncard + (owned s.lock c).ncard

section Owned

variable {α : Type} [DecidableEq α] {f : α → Option Cpu} {a : α} {c c' : Cpu}

theorem owned_acquire (h : f a = none) :
    owned (update f a (some c)) c = insert a (owned f c) ∧ a ∉ owned f c := by
  refine ⟨?_, by simp [owned, h]⟩
  ext b
  by_cases hb : b = a
  · subst hb
    simp [owned]
  · simp [owned, hb]

theorem owned_acquire_of_ne (h : f a = none) (hne : c' ≠ c) :
    owned (update f a (some c)) c' = owned f c' := by
  ext b
  by_cases hb : b = a
  · subst hb
    simp [owned, h, hne.symm]
  · simp [owned, hb]

theorem owned_release (h : f a = some c) :
    owned (update f a none) c = owned f c \ {a} ∧ a ∈ owned f c := by
  refine ⟨?_, h⟩
  ext b
  by_cases hb : b = a
  · subst hb
    simp [owned]
  · simp [owned, hb]

theorem owned_release_of_ne (h : f a = some c) (hne : c' ≠ c) :
    owned (update f a none) c' = owned f c' := by
  ext b
  by_cases hb : b = a
  · subst hb
    simp [owned, h, hne.symm]
  · simp [owned, hb]

end Owned

theorem Counted.step (h : s.Counted) (hs : LockStep c s s') : s'.Counted := by
  intro c'
  obtain ⟨hfin, hcount⟩ := h c'
  have hpfin : (owned s.plock c').Finite := toFinite _
  cases hs with
  | keep hplock hlock hnoff => rwa [hplock, hlock, hnoff, and_iff_right hfin]
  | acquireP q hfree hplock hlock hnoff =>
    rw [hplock, hlock, hnoff]
    by_cases hc : c' = c
    · subst hc
      obtain ⟨hown, hnew⟩ := owned_acquire (c := c') hfree
      rw [hown, ncard_insert_of_notMem hnew hpfin, update_self]
      exact ⟨hfin, by omega⟩
    · rw [owned_acquire_of_ne hfree hc, update_of_ne hc]
      exact ⟨hfin, hcount⟩
  | releaseP q hheld hplock hlock hnoff =>
    rw [hplock, hlock, hnoff]
    by_cases hc : c' = c
    · subst hc
      obtain ⟨hown, hmem⟩ := owned_release hheld
      have hpos := (ncard_pos hpfin).2 ⟨q, hmem⟩
      rw [hown, ncard_sdiff_singleton_of_mem hmem, update_self]
      exact ⟨hfin, by omega⟩
    · rw [owned_release_of_ne hheld hc, update_of_ne hc]
      exact ⟨hfin, hcount⟩
  | acquireL l hfree hplock hlock hnoff _ =>
    rw [hplock, hlock, hnoff]
    by_cases hc : c' = c
    · subst hc
      obtain ⟨hown, hnew⟩ := owned_acquire (c := c') hfree
      rw [hown, ncard_insert_of_notMem hnew hfin, update_self]
      exact ⟨hfin.insert l, by omega⟩
    · rw [owned_acquire_of_ne hfree hc, update_of_ne hc]
      exact ⟨hfin, hcount⟩
  | releaseL l hheld hplock hlock hnoff _ _ =>
    rw [hplock, hlock, hnoff]
    by_cases hc : c' = c
    · subst hc
      obtain ⟨hown, hmem⟩ := owned_release hheld
      have hpos := (ncard_pos hfin).2 ⟨l, hmem⟩
      rw [hown, ncard_sdiff_singleton_of_mem hmem, update_self]
      exact ⟨hfin.sdiff, by omega⟩
    · rw [owned_release_of_ne hheld hc, update_of_ne hc]
      exact ⟨hfin, hcount⟩

theorem Counted.boot (m : M) : (boot m).Counted := by
  intro c
  have hlock : owned (Sched.boot m).lock c = ∅ := eq_empty_of_forall_notMem nofun
  have hplock : owned (Sched.boot m).plock c = ∅ := eq_empty_of_forall_notMem nofun
  rw [hlock, hplock]
  exact ⟨finite_empty, by simp [Sched.boot]⟩

/-- A CPU with `noff = 0` holds no lock of the table. -/
theorem Counted.free (h : s.Counted) (hc : s.noff c = 0) (q : Slot) : s.plock q ≠ some c := by
  intro hq
  have hpos := (ncard_pos (toFinite (owned s.plock c))).2 ⟨q, hq⟩
  have hcount := (h c).2
  omega

/-- A CPU with `noff = 0` holds no other lock. -/
theorem Counted.free_lock (h : s.Counted) (hc : s.noff c = 0) (l : Lock) : s.lock l ≠ some c := by
  intro hl
  have hpos := (ncard_pos (h c).1).2 ⟨l, hl⟩
  have hcount := (h c).2
  omega

end Count

section Owner

variable {l : Lock} {c' : Cpu}

/-- A step of another CPU leaves a lock that is held. -/
theorem LockStep.lock_other (h : LockStep c s s') (hl : s.lock l = some c') (hne : c' ≠ c) :
    s'.lock l = some c' := by
  cases h with
  | keep _ hlock _ => rw [hlock, hl]
  | acquireP _ _ _ hlock _ => rw [hlock, hl]
  | releaseP _ _ _ hlock _ => rw [hlock, hl]
  | acquireL l' hfree _ hlock _ _ =>
    have hll : l ≠ l' := by
      rintro rfl
      rw [hl] at hfree
      cases hfree
    rw [hlock, update_of_ne hll, hl]
  | releaseL l' hheld _ hlock _ _ _ =>
    have hll : l ≠ l' := by
      rintro rfl
      exact hne (Option.some.inj (hl.symm.trans hheld))
    rw [hlock, update_of_ne hll, hl]

/-- A step of the holder of a lock leaves the lock, or releases it and does nothing else. -/
theorem LockStep.lock_own (h : LockStep c s s') (hl : s.lock l = some c) :
    s'.lock l = some c ∨ s'.lock l = none ∧ (s'.procs = s.procs ∧ s'.mem = s.mem) ∧
      (s.control c = .run ∨ ∃ next, s.control c = .unlockL l next) := by
  cases h with
  | keep _ hlock _ => exact .inl (by rw [hlock, hl])
  | acquireP _ _ _ hlock _ => exact .inl (by rw [hlock, hl])
  | releaseP _ _ _ hlock _ => exact .inl (by rw [hlock, hl])
  | acquireL l' hfree _ hlock _ _ =>
    have hll : l ≠ l' := by
      rintro rfl
      rw [hl] at hfree
      cases hfree
    exact .inl (by rw [hlock, update_of_ne hll, hl])
  | releaseL l' hheld _ hlock _ hdata hcontrol =>
    by_cases hll : l = l'
    · subst hll
      exact .inr ⟨by rw [hlock, update_self], hdata, hcontrol⟩
    · exact .inl (by rw [hlock, update_of_ne hll, hl])

end Owner

end State

end FogOS.Sched
