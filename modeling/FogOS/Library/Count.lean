import Mathlib

/-!
# Sums that change at one point
-/

namespace FogOS.Library

open Function Finset

variable {ι M : Type*} [DecidableEq ι] [AddCommMonoid M] {s : Finset ι} {f g : ι → M} {x : ι}

/-- Two sums over functions that differ at one point. -/
theorem sum_change (hx : x ∈ s) (h : ∀ y, y ≠ x → g y = f y) :
    (∑ y ∈ s, g y) + f x = (∑ y ∈ s, f y) + g x := by
  have hrest : ∑ y ∈ s.erase x, g y = ∑ y ∈ s.erase x, f y :=
    sum_congr rfl fun y hy => h y (ne_of_mem_erase hy)
  rw [← add_sum_erase s f hx, ← add_sum_erase s g hx, hrest]
  abel

/-- Two sums over functions that differ at two points. -/
theorem sum_change_pair {y : ι} (hx : x ∈ s) (hy : y ∈ s) (hxy : x ≠ y)
    (h : ∀ z, z ≠ x → z ≠ y → g z = f z) :
    (∑ z ∈ s, g z) + (f x + f y) = (∑ z ∈ s, f z) + (g x + g y) := by
  have hfirst := sum_change (f := f) (g := update f x (g x)) hx fun z hz => update_of_ne hz _ _
  have hsecond := sum_change (f := update f x (g x)) (g := g) hy fun z hz => by
    by_cases hzx : z = x
    · rw [hzx, update_self]
    · rw [update_of_ne hzx, h z hzx hz]
  rw [update_self] at hfirst
  rw [update_of_ne hxy.symm] at hsecond
  rw [add_comm (f x), ← add_assoc, hsecond, add_right_comm, hfirst, add_assoc]

/-- The number of indices with a property, after one index has changed. -/
theorem card_change [Fintype ι] {α : Type*} (P : α → Prop) [DecidablePred P] (f : ι → α) (x : ι)
    (v : α) :
    (Finset.univ.filter fun y => P (update f x v y)).card + (if P (f x) then 1 else 0) =
      (Finset.univ.filter fun y => P (f y)).card + if P v then 1 else 0 := by
  rw [card_filter, card_filter]
  have hsum := sum_change (s := Finset.univ) (f := fun y => if P (f y) then 1 else 0)
    (g := fun y => if P (update f x v y) then 1 else 0) (mem_univ x)
    fun y hy => by simp only [update_of_ne hy]
  simpa only [update_self] using hsum

end FogOS.Library
