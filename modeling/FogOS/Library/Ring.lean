import Mathlib

/-!
# Ring buffers with wrapping counters

A ring of `cap` cells holds the items that have been put in and not yet taken out.
The history of items grows for ever; item `k` is in cell `k % cap`. The counters of
an implementation are the two numbers of items modulo some `M`, a multiple of `cap`
that is larger than `cap`.
-/

namespace FogOS.Library.Ring

open Function List Nat

variable {α : Type*} {cap M r w : Nat}

/-- The ring holds the items of the history from item `r` on. -/
structure Holds (cap : Nat) (data : Nat → α) (hist : List α) (r : Nat) : Prop where
  le : r ≤ hist.length
  fits : hist.length ≤ r + cap
  cell : ∀ k (h : k < hist.length), r ≤ k → data (k % cap) = hist[k]

variable {data : Nat → α} {hist : List α}

theorem holds_empty (cap : Nat) (data : Nat → α) : Holds cap data [] 0 :=
  ⟨le_refl _, zero_le _, fun _ h _ => absurd h (Nat.not_lt_zero _)⟩

/-- Two items in the ring are in different cells. -/
theorem cell_ne {i j : Nat} (hlt : i < j) (hfits : j < i + cap) : i % cap ≠ j % cap := by
  intro h
  have hdvd : cap ∣ j - i := (modEq_iff_dvd' hlt.le).mp h
  have := le_of_dvd (by omega) hdvd
  omega

section

variable (h : Holds cap data hist r) (hroom : hist.length < r + cap)

include h hroom

/-- An item put in while there is room overwrites no item of the ring. -/
theorem Holds.put (x : α) : Holds cap (update data (hist.length % cap) x) (hist ++ [x]) r := by
  have hle := h.le
  refine ⟨?_, ?_, fun k hk hrk => ?_⟩
  · simp only [length_append, length_singleton]
    omega
  · simp only [length_append, length_singleton]
    omega
  · rcases Nat.lt_or_ge k hist.length with hlt | hge
    · have hne : k % cap ≠ hist.length % cap := cell_ne hlt (by omega)
      rw [update_of_ne hne, getElem_append_left hlt]
      exact h.cell k hlt hrk
    · simp only [length_append, length_singleton] at hk
      obtain rfl : k = hist.length := by omega
      simp

/-- A cell that no item of the ring is in may be written. -/
theorem Holds.write (x : α) : Holds cap (update data (hist.length % cap) x) hist r := by
  refine ⟨h.le, h.fits, fun k hk hrk => ?_⟩
  have hne : k % cap ≠ hist.length % cap := cell_ne hk (by omega)
  rw [update_of_ne hne]
  exact h.cell k hk hrk

/-- An item whose cell has been written is put in. -/
theorem Holds.extend : Holds cap data (hist ++ [data (hist.length % cap)]) r := by
  have hput := h.put hroom (data (hist.length % cap))
  rwa [update_eq_self] at hput

end

/-- Taking out the oldest item. -/
theorem Holds.take (h : Holds cap data hist r) (hne : r < hist.length) :
    data (r % cap) = hist[r] ∧ Holds cap data hist (r + 1) := by
  have hfits := h.fits
  exact ⟨h.cell r hne (le_refl _), hne, by omega, fun k hk hrk => h.cell k hk (by omega)⟩

section Counters

theorem counter_cell (hdvd : cap ∣ M) (k : Nat) : k % M % cap = k % cap := mod_mod_of_dvd k hdvd

section

variable (hM : cap < M) (hle : r ≤ w) (hfits : w ≤ r + cap)

include hM hle hfits

theorem counter_empty_iff : r % M = w % M ↔ r = w := by
  constructor
  · intro h
    by_contra hne
    have hdvd : M ∣ w - r := (modEq_iff_dvd' hle).mp h
    have := le_of_dvd (by omega) hdvd
    omega
  · rintro rfl
    rfl

theorem counter_full_iff : w % M = (r % M + cap) % M ↔ w = r + cap := by
  rw [mod_add_mod, counter_empty_iff hM hfits (by omega)]

theorem counter_distance : (w % M + M - r % M) % M = w - r := by
  have hr := div_add_mod r M
  have hrlt : r % M < M := mod_lt _ (by omega)
  have hsplit : w % M + M - r % M = w % M + (M - r % M) := by omega
  have hw : w + (M - r % M) = (w - r) + M * (r / M + 1) := by
    rw [mul_add, mul_one]
    omega
  rw [hsplit, mod_add_mod, hw, add_mul_mod_self_left, mod_eq_of_lt (by omega)]

end

end Counters

end FogOS.Library.Ring
