import FogOS.Virtio.Model

/-!
# Descriptors

What `alloc3_desc` and `free_chain` do to the state: three free descriptors are taken; or, if there
are fewer, those that were taken are given back; and the three descriptors of a chain are freed.
-/

namespace FogOS.Virtio

open Function List Library

variable {T B : Type} [DecidableEq T] [DecidableEq B]

/-- The free descriptors. -/
def freeSet (free : Nat → Bool) : Finset Nat := (Finset.range num).filter fun i => free i = true

theorem mem_freeSet {free : Nat → Bool} {i : Nat} : i ∈ freeSet free ↔ i < num ∧ free i = true := by
  simp [freeSet]

@[simp] theorem Pc.wake_wake (chan : Chan B) (p : Pc B) : (p.wake chan).wake chan = p.wake chan := by
  cases p with
  | sleepFree c => by_cases h : chan = .free <;> simp [wake, h]
  | sleepBuf c idx k => by_cases h : chan = .buf c.b <;> simp [wake, h]
  | _ => rfl

/-- An unused descriptor. -/
def zeroDesc : Desc B := ⟨.null, 0, false, false, 0⟩

namespace State

variable {s : State T B} {idx : Idx}

/-- The state after three descriptors have been taken. -/
def reserved (s : State T B) (idx : Idx) : State T B :=
  { s with free := fun i => if i ∈ idx.toList then false else s.free i }

/-- The state after three descriptors have been freed. -/
def released (s : State T B) (idx : Idx) : State T B :=
  { s with
    desc := fun i => if i ∈ idx.toList then zeroDesc else s.desc i
    free := fun i => if i ∈ idx.toList then true else s.free i
    pc := fun u => (s.pc u).wake .free }

/-- The state after some descriptors have been taken and given back: the free descriptors have been
cleared, and threads that wait for descriptors may have been woken. -/
def RolledBack (s s' : State T B) : Prop :=
  ∃ d p, s' = { s with desc := d, pc := p } ∧ (∀ i, s.free i = false → d i = s.desc i) ∧
    (p = s.pc ∨ p = fun u => (s.pc u).wake .free)

omit [DecidableEq T] [DecidableEq B] in
theorem allocDesc_some {i : Nat} {s' : State T B} (h : s.allocDesc = some (i, s')) :
    i < num ∧ s.free i = true ∧ s' = { s with free := update s.free i false } := by
  obtain ⟨j, hj, heq⟩ := Option.map_eq_some_iff.1 h
  cases heq
  exact ⟨mem_range.1 (mem_of_find?_eq_some hj), find?_some hj, rfl⟩

omit [DecidableEq T] [DecidableEq B] in
theorem allocDesc_none (h : s.allocDesc = none) {i : Nat} (hi : i < num) : s.free i = false := by
  have hnone := find?_eq_none.1 (Option.map_eq_none_iff.1 h) i (mem_range.2 hi)
  simpa using hnone

omit [DecidableEq T] in
theorem freeDesc_ok {i : Nat} (hi : i < num) (hfree : s.free i = false) :
    s.freeDesc i = .ok { s with
      desc := update s.desc i zeroDesc
      free := update s.free i true
      pc := fun u => (s.pc u).wake .free } := by
  rw [freeDesc, if_neg (Nat.not_le_of_lt hi), hfree]
  rfl

omit [DecidableEq T] in
/-- A descriptor is taken and given back. -/
theorem rolledBack_one {i : Nat} (hi : i < num) (hfree : s.free i = true) :
    ∃ s', { s with free := update s.free i false }.rollBack [i] = .ok s' ∧ RolledBack s s' := by
  refine ⟨_, by rw [rollBack, freeDesc_ok hi (update_self _ _ _)]; rfl,
    update s.desc i zeroDesc, fun u => (s.pc u).wake .free, ?_, fun j hj => ?_, .inr rfl⟩
  · have hback : update (update s.free i false) i true = s.free := by
      rw [update_idem, ← hfree, update_eq_self]
    rw [hback]
  · refine update_of_ne ?_ _ _
    rintro rfl
    rw [hfree] at hj
    cases hj

omit [DecidableEq T] in
/-- Two descriptors are taken and given back. -/
theorem rolledBack_two {i j : Nat} (hi : i < num) (hj : j < num) (hij : i ≠ j)
    (hfree : s.free i = true) (hfree' : s.free j = true) :
    ∃ s', { s with
        free := update (update s.free i false) j false }.rollBack [i, j] = .ok s' ∧
      RolledBack s s' := by
  have hi' : update (update s.free i false) j false i = false := by
    rw [update_of_ne hij, update_self]
  have hj' : update (update (update s.free i false) j false) i true j =
      false := by
    rw [update_of_ne hij.symm, update_self]
  refine ⟨_, by rw [rollBack, freeDesc_ok hi hi']; simp only [ok_bind, rollBack];
                rw [freeDesc_ok hj hj']; rfl,
    update (update s.desc i zeroDesc) j zeroDesc,
    fun u => (s.pc u).wake .free, ?_, fun k hk => ?_, .inr rfl⟩
  · have hback : update (update (update (update s.free i false)
        j false) i true) j true = s.free := by
      funext k
      by_cases hkj : k = j
      · rw [hkj, update_self, hfree']
      · rw [update_of_ne hkj]
        by_cases hki : k = i
        · rw [hki, update_self, hfree]
        · rw [update_of_ne hki, update_of_ne hkj, update_of_ne hki]
    rw [hback]
    simp only [Pc.wake_wake]
  · have hki : k ≠ i := by
      rintro rfl
      rw [hfree] at hk
      cases hk
    have hkj : k ≠ j := by
      rintro rfl
      rw [hfree'] at hk
      cases hk
    rw [update_of_ne hkj, update_of_ne hki]

omit [DecidableEq T] in
/-- `alloc3_desc` takes three free descriptors, or there are fewer and it has no effect but on free
descriptors and on threads that wait for them. -/
theorem alloc3Desc_cases (s : State T B) :
    (∃ idx : Idx, s.alloc3Desc = .ok (some idx, s.reserved idx) ∧ idx.toList.Nodup ∧
      ∀ i ∈ idx.toList, i ∈ freeSet s.free) ∨
    ∃ s', s.alloc3Desc = .ok (none, s') ∧ RolledBack s s' ∧ (freeSet s.free).card < 3 := by
  cases h₀ : s.allocDesc with
  | none =>
    refine .inr ⟨s, by rw [alloc3Desc, h₀], ⟨s.desc, s.pc, rfl, fun _ _ => rfl, .inl rfl⟩, ?_⟩
    have hempty : freeSet s.free = ∅ := by
      refine Finset.eq_empty_of_forall_notMem fun i hi => ?_
      obtain ⟨hlt, hfree⟩ := mem_freeSet.1 hi
      rw [allocDesc_none h₀ hlt] at hfree
      cases hfree
    rw [hempty]
    decide
  | some r =>
    obtain ⟨i0, s₁⟩ := r
    obtain ⟨hlt₀, hfree₀, hs₁⟩ := allocDesc_some h₀
    cases h₁ : s₁.allocDesc with
    | none =>
      obtain ⟨s', hback, hrolled⟩ := rolledBack_one hlt₀ hfree₀
      rw [← hs₁] at hback
      refine .inr ⟨s', ?_, hrolled, ?_⟩
      · rw [alloc3Desc, h₀]
        simp only [h₁, hback, ok_bind]
      · have hsub : freeSet s.free ⊆ {i0} := by
          intro i hi
          obtain ⟨hlt, hfree⟩ := mem_freeSet.1 hi
          have hnone := allocDesc_none h₁ hlt
          rw [hs₁] at hnone
          by_contra hne
          rw [Finset.mem_singleton] at hne
          simp only [update_of_ne hne, hfree] at hnone
          cases hnone
        exact lt_of_le_of_lt (Finset.card_le_card hsub) (by simp)
    | some r =>
      obtain ⟨i1, s₂⟩ := r
      obtain ⟨hlt₁, hfree₁, hs₂⟩ := allocDesc_some h₁
      rw [hs₁] at hfree₁ hs₂
      have hne₁ : i1 ≠ i0 := by
        rintro rfl
        simp only [update_self] at hfree₁
        cases hfree₁
      simp only [update_of_ne hne₁] at hfree₁
      cases h₂ : s₂.allocDesc with
      | none =>
        obtain ⟨s', hback, hrolled⟩ := rolledBack_two hlt₀ hlt₁ hne₁.symm hfree₀ hfree₁
        rw [← hs₂] at hback
        refine .inr ⟨s', ?_, hrolled, ?_⟩
        · rw [alloc3Desc, h₀]
          simp only [h₁, h₂, hback, ok_bind]
        · have hsub : freeSet s.free ⊆ {i0, i1} := by
            intro i hi
            obtain ⟨hlt, hfree⟩ := mem_freeSet.1 hi
            have hnone := allocDesc_none h₂ hlt
            rw [hs₂] at hnone
            by_contra hne
            rw [Finset.mem_insert, Finset.mem_singleton, not_or] at hne
            simp only [update_of_ne hne.1, update_of_ne hne.2, hfree] at hnone
            cases hnone
          exact lt_of_le_of_lt (Finset.card_le_card hsub)
            (lt_of_le_of_lt Finset.card_le_two (by decide))
      | some r =>
        obtain ⟨i2, s₃⟩ := r
        obtain ⟨hlt₂, hfree₂, hs₃⟩ := allocDesc_some h₂
        rw [hs₂] at hfree₂ hs₃
        have hne₂ : i2 ≠ i1 := by
          rintro rfl
          simp only [update_self] at hfree₂
          cases hfree₂
        simp only [update_of_ne hne₂] at hfree₂
        have hne₂' : i2 ≠ i0 := by
          rintro rfl
          simp only [update_self] at hfree₂
          cases hfree₂
        simp only [update_of_ne hne₂'] at hfree₂
        refine .inl ⟨⟨i0, i1, i2⟩, ?_, ?_, ?_⟩
        · rw [alloc3Desc, h₀]
          simp only [h₁, h₂]
          rw [hs₃, reserved]
          congr 3
          funext i
          simp only [Idx.toList, mem_cons, not_mem_nil, or_false]
          by_cases hi2 : i = i2
          · simp [hi2]
          · by_cases hi1 : i = i1
            · simp [hi1, hne₂.symm]
            · by_cases hi0 : i = i0
              · simp [hi0, hne₂'.symm, hne₁.symm]
              · simp [hi0, hi1, hi2]
        · simp [Idx.toList, hne₁.symm, hne₂.symm, hne₂'.symm]
        · simp only [Idx.toList, forall_mem_cons, not_mem_nil, false_imp_iff,
            implies_true, and_true, mem_freeSet]
          exact ⟨⟨hlt₀, hfree₀⟩, ⟨hlt₁, hfree₁⟩, hlt₂, hfree₂⟩

omit [DecidableEq T] in
/-- `free_chain` frees the three descriptors of a chain. -/
theorem freeChain_ok (hnodup : idx.toList.Nodup) (hlt : ∀ i ∈ idx.toList, i < num)
    (hfree : ∀ i ∈ idx.toList, s.free i = false)
    (h0 : (s.desc idx.i0).flagNext = true ∧ (s.desc idx.i0).next = idx.i1)
    (h1 : (s.desc idx.i1).flagNext = true ∧ (s.desc idx.i1).next = idx.i2)
    (h2 : (s.desc idx.i2).flagNext = false) :
    s.freeChain (num + 1) idx.i0 = .ok (s.released idx) := by
  obtain ⟨i0, i1, i2⟩ := idx
  simp only [Idx.toList, forall_mem_cons, not_mem_nil, false_imp_iff, implies_true,
    and_true] at hlt hfree
  obtain ⟨hlt0, hlt1, hlt2⟩ := hlt
  obtain ⟨hfree0, hfree1, hfree2⟩ := hfree
  have hne01 : i0 ≠ i1 := by
    rintro rfl
    simp [Idx.toList] at hnodup
  have hne02 : i0 ≠ i2 := by
    rintro rfl
    simp [Idx.toList] at hnodup
  have hne12 : i1 ≠ i2 := by
    rintro rfl
    simp [Idx.toList] at hnodup
  have hfree1' : update s.free i0 true i1 = false := by
    rw [update_of_ne hne01.symm, hfree1]
  have hfree2' : update (update s.free i0 true) i1 true i2 = false := by
    rw [update_of_ne hne12.symm, update_of_ne hne02.symm, hfree2]
  simp only at h0 h1 h2
  rw [num, freeChain, freeDesc_ok hlt0 hfree0]
  simp only [ok_bind, h0.1, h0.2, if_true]
  rw [freeChain, freeDesc_ok hlt1 hfree1']
  simp only [ok_bind, update_of_ne hne01.symm, h1.1, h1.2, if_true]
  rw [freeChain, freeDesc_ok hlt2 hfree2']
  simp only [ok_bind, update_of_ne hne12.symm, update_of_ne hne02.symm, h2, Pc.wake_wake]
  rw [if_neg (by decide), released]
  have hcase {α : Type} (f : Nat → α) (v : α) : update (update (update f i0 v) i1 v) i2 v =
        fun i => if i ∈ (⟨i0, i1, i2⟩ : Idx).toList then v else f i := by
    funext i
    simp only [Idx.toList, mem_cons, not_mem_nil, or_false, update_apply]
    by_cases hi2 : i = i2
    · simp [hi2]
    · by_cases hi1 : i = i1
      · simp [hi1]
      · by_cases hi0 : i = i0
        · simp [hi0]
        · simp [hi0, hi1, hi2]
  rw [hcase, hcase]

end State

end FogOS.Virtio
