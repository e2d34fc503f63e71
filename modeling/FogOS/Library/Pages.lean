import FogOS.Library.Bytes

/-!
# Pages of a byte store and lists threaded through them

A change that stays inside one page leaves the bytes of every other page alone. A
list of pages can be threaded through the pages themselves: the first eight bytes
of each page on the list hold the address of the next one, and address 0 ends it.
-/

namespace FogOS.Library.Bytes

variable {b b' b'' : Bytes} {off n : Nat}

/-- `memset`: overwrite the `n` bytes at `off` with `v`. -/
def fill (b : Bytes) (off n : Nat) (v : UInt8) : Bytes := blit b off n fun _ => v

theorem fill_apply_inside {i : Nat} (h : off ≤ i ∧ i < off + n) (v : UInt8) :
    fill b off n v i = v := blit_apply_inside h

/-- `b'` differs from `b` in the `n` bytes at `off` only. -/
def Within (off n : Nat) (b b' : Bytes) : Prop := ∀ i, i < off ∨ off + n ≤ i → b' i = b i

theorem Within.trans (h : Within off n b b') (h' : Within off n b' b'') : Within off n b b'' :=
  fun i hi => (h' i hi).trans (h i hi)

theorem within_blit (b : Bytes) {m k : Nat} (src : Bytes) (h : off ≤ m) (h' : m + k ≤ off + n) :
    Within off n b (blit b m k src) := fun _ _ => blit_apply_outside (by omega)

theorem within_fill (b : Bytes) (off n : Nat) (v : UInt8) : Within off n b (fill b off n v) :=
  within_blit b _ (le_refl _) (le_refl _)

theorem within_setLE (b : Bytes) {m w : Nat} (v : Nat) (h : off ≤ m) (h' : m + w ≤ off + n) :
    Within off n b (setLE b m w v) := fun _ _ => setLE_apply_outside (by omega)

theorem Within.getLE_eq (h : Within off n b b') {m w : Nat} (hm : m + w ≤ off ∨ off + n ≤ m) :
    getLE b' m w = getLE b m w := getLE_congr fun i _ _ => h i (by omega)

theorem getLE_fill_zero (b : Bytes) {m w : Nat} (h : off ≤ m) (h' : m + w ≤ off + n) :
    getLE (fill b off n 0) m w = 0 := getLE_zero fun _ _ _ => blit_apply_inside (by omega)

section Pages

variable {P p q : Nat}

/-- Two different pages do not overlap. -/
theorem pages_apart (hp : p % P = 0) (hq : q % P = 0) (h : p ≠ q) : p + P ≤ q ∨ q + P ≤ p := by
  obtain ⟨x, rfl⟩ := Nat.dvd_of_mod_eq_zero hp
  obtain ⟨y, rfl⟩ := Nat.dvd_of_mod_eq_zero hq
  rcases Nat.lt_trichotomy x y with hxy | hxy | hxy
  · exact .inl (by calc P * x + P = P * (x + 1) := by ring
      _ ≤ P * y := Nat.mul_le_mul_left _ hxy)
  · exact absurd (by rw [hxy]) h
  · exact .inr (by calc P * y + P = P * (y + 1) := by ring
      _ ≤ P * x := Nat.mul_le_mul_left _ hxy)

/-- A change inside one page is not seen in another. -/
theorem Within.getLE_page (h : Within p P b b') (hp : p % P = 0) (hq : q % P = 0) (hne : p ≠ q)
    {m w : Nat} (hm : q ≤ m) (hw : m + w ≤ q + P) : getLE b' m w = getLE b m w := by
  have := pages_apart hp hq hne
  exact h.getLE_eq (by omega)

end Pages

section Chain

/-- The list threaded from `head` visits the pages of `l` in order. -/
def Chain (b : Bytes) : Nat → List Nat → Prop
  | head, [] => head = 0
  | head, p :: l => head = p ∧ p ≠ 0 ∧ Chain b (getLE b p 8) l

theorem Chain.congr {head : Nat} {l : List Nat} (hc : Chain b head l)
    (h : ∀ p ∈ l, getLE b' p 8 = getLE b p 8) : Chain b' head l := by
  induction l generalizing head with
  | nil => exact hc
  | cons p l ih =>
    obtain ⟨hhead, hp, hrest⟩ := hc
    refine ⟨hhead, hp, ?_⟩
    rw [h p List.mem_cons_self]
    exact ih hrest fun q hq => h q (List.mem_cons_of_mem _ hq)

end Chain

end FogOS.Library.Bytes
