import Mathlib

/-!
# Exact accounting of allocated units

Units are numbers in an interval `[lo, hi)`; a holder refers to one unit or, with
the reference `0`, to none. The accounts are exact when distinct holders refer to
distinct units and the units in use are the ones some holder refers to. Giving a
free unit to an empty holder and emptying a holder both keep them exact.
-/

namespace FogOS.Library

open Function

variable {σ : Type*}

/-- The holders refer to distinct units of `[lo, hi)`, which are the units in use. -/
structure Accounts (lo hi : Nat) (ref : σ → Nat) (used : Nat → Prop) : Prop where
  area : ∀ x, ref x ≠ 0 → lo ≤ ref x ∧ ref x < hi
  inj : ∀ x y, ref x ≠ 0 → ref x = ref y → x = y
  used_iff : ∀ b, lo ≤ b → b < hi → (used b ↔ ∃ x, ref x = b)

namespace Accounts

variable {lo hi : Nat} {ref ref' : σ → Nat} {used used' : Nat → Prop}

section

variable (h : Accounts lo hi ref used)

include h

theorem congr (href : ∀ x, ref' x = ref x)
    (hused : ∀ b, lo ≤ b → b < hi → (used' b ↔ used b)) : Accounts lo hi ref' used' := by
  obtain rfl : ref' = ref := funext href
  refine ⟨h.area, h.inj, ?_⟩
  intro b hlo hhi
  rw [hused b hlo hhi, h.used_iff b hlo hhi]

theorem used_ref {x : σ} (hx : ref x ≠ 0) : used (ref x) := by
  obtain ⟨hlo, hhi⟩ := h.area x hx
  exact (h.used_iff _ hlo hhi).mpr ⟨x, rfl⟩

theorem ref_ne_of_free {b : Nat} (hlo : lo ≤ b) (hhi : b < hi)
    (hfree : ¬ used b) (x : σ) : ref x ≠ b := by
  intro hx
  exact hfree ((h.used_iff b hlo hhi).mpr ⟨x, hx⟩)

/-- A free unit is given to an empty holder. -/
theorem attach [DecidableEq σ] {x : σ} {b : Nat} (hpos : 0 < lo)
    (hlo : lo ≤ b) (hhi : b < hi) (hfree : ¬ used b) (hx : ref x = 0) :
    Accounts lo hi (update ref x b) (fun c => c = b ∨ used c) := by
  have hne := h.ref_ne_of_free hlo hhi hfree
  constructor
  · intro y hy
    by_cases hyx : y = x
    · subst hyx
      rw [update_self]
      exact ⟨hlo, hhi⟩
    · rw [update_of_ne hyx] at hy ⊢
      exact h.area y hy
  · intro y z hy hyz
    by_cases hyx : y = x <;> by_cases hzx : z = x
    · rw [hyx, hzx]
    · subst hyx
      rw [update_self, update_of_ne hzx] at hyz
      exact absurd hyz.symm (hne z)
    · subst hzx
      rw [update_self, update_of_ne hyx] at hyz
      exact absurd hyz (hne y)
    · rw [update_of_ne hyx, update_of_ne hzx] at hyz
      rw [update_of_ne hyx] at hy
      exact h.inj y z hy hyz
  · intro c hc₁ hc₂
    rw [h.used_iff c hc₁ hc₂]
    constructor
    · rintro (rfl | ⟨y, hy⟩)
      · exact ⟨x, update_self x c ref⟩
      · have hyx : y ≠ x := by
          rintro rfl
          omega
        exact ⟨y, by rw [update_of_ne hyx, hy]⟩
    · rintro ⟨y, hy⟩
      by_cases hyx : y = x
      · subst hyx
        rw [update_self] at hy
        exact Or.inl hy.symm
      · rw [update_of_ne hyx] at hy
        exact Or.inr ⟨y, hy⟩

/-- A holder gives its unit back. -/
theorem release [DecidableEq σ] {x : σ} (hpos : 0 < lo) (hx : ref x ≠ 0) :
    Accounts lo hi (update ref x 0) (fun c => c ≠ ref x ∧ used c) := by
  constructor
  · intro y hy
    by_cases hyx : y = x
    · subst hyx
      exact absurd (update_self y 0 ref) hy
    · rw [update_of_ne hyx] at hy ⊢
      exact h.area y hy
  · intro y z hy hyz
    by_cases hyx : y = x
    · subst hyx
      exact absurd (update_self y 0 ref) hy
    · rw [update_of_ne hyx] at hy hyz
      by_cases hzx : z = x
      · subst hzx
        rw [update_self] at hyz
        exact absurd hyz hy
      · rw [update_of_ne hzx] at hyz
        exact h.inj y z hy hyz
  · intro c hc₁ hc₂
    rw [h.used_iff c hc₁ hc₂]
    constructor
    · rintro ⟨hc, y, hy⟩
      have hyx : y ≠ x := by
        rintro rfl
        exact hc hy.symm
      exact ⟨y, by rw [update_of_ne hyx, hy]⟩
    · rintro ⟨y, hy⟩
      have hyx : y ≠ x := by
        rintro rfl
        rw [update_self] at hy
        omega
      rw [update_of_ne hyx] at hy
      refine ⟨?_, y, hy⟩
      intro hc
      exact hyx (h.inj y x (by omega) (hy.trans hc))

end

end Accounts

end FogOS.Library
