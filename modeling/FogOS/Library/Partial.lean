import FogOS.Library.Bytes

/-!
# Partial memories

A partial memory gives a byte for each accessible address. A copy that goes upwards
from an address and stops at the first inaccessible one moves the bytes that `reach`
counts.
-/

namespace FogOS.Library

/-- A memory in which only some addresses are accessible. -/
abbrev Partial : Type := Nat → Option UInt8

namespace Partial

/-- The bytes from `a` on, at most `n`, before the first inaccessible address. -/
def reach (m : Partial) (a : Nat) : Nat → Nat
  | 0 => 0
  | n + 1 => if (m a).isSome then reach m (a + 1) n + 1 else 0

/-- The bytes at `a`, with zeros at inaccessible addresses. -/
def bytes (m : Partial) (a : Nat) : Bytes := fun i => (m (a + i)).getD 0

/-- The memory with `n` bytes of `src` stored at `a`. -/
def store (m : Partial) (a n : Nat) (src : Bytes) : Partial := fun b =>
  if a ≤ b ∧ b < a + n then some (src (b - a)) else m b

variable {m m' : Partial} {a n k : Nat} {src : Bytes}

theorem reach_le (m : Partial) (a n : Nat) : m.reach a n ≤ n := by
  induction n generalizing a with
  | zero => exact le_refl 0
  | succ n ih =>
    have hle := ih (a + 1)
    unfold reach
    split <;> omega

/-- Every address before the end of the reach is accessible. -/
theorem isSome_of_lt_reach {i : Nat} (h : i < m.reach a n) : (m (a + i)).isSome := by
  induction n generalizing a i with
  | zero => exact absurd h (Nat.not_lt_zero i)
  | succ n ih =>
    unfold reach at h
    split at h
    · rename_i hsome
      cases i with
      | zero => exact hsome
      | succ i =>
        have hrest := ih (a := a + 1) (i := i) (by omega)
        rwa [show a + 1 + i = a + (i + 1) by omega] at hrest
    · omega

/-- A reach of less than `n` ends at an inaccessible address. -/
theorem eq_none_of_reach_lt (h : m.reach a n < n) : m (a + m.reach a n) = none := by
  induction n generalizing a with
  | zero => exact absurd h (Nat.not_lt_zero _)
  | succ n ih =>
    by_cases hsome : (m a).isSome
    · have hreach : m.reach a (n + 1) = m.reach (a + 1) n + 1 := if_pos hsome
      rw [hreach] at h ⊢
      have hrest := ih (a := a + 1) (by omega)
      rwa [show a + 1 + m.reach (a + 1) n = a + (m.reach (a + 1) n + 1) by omega] at hrest
    · have hreach : m.reach a (n + 1) = 0 := if_neg hsome
      rw [hreach]
      exact Option.not_isSome_iff_eq_none.mp hsome

theorem reach_zero_of_none (h : m a = none) (n : Nat) : m.reach a n = 0 := by
  cases n with
  | zero => rfl
  | succ n => exact if_neg (by simp [h])

/-- Accessible bytes at the front are counted first. -/
theorem reach_add (h : ∀ i, i < k → (m (a + i)).isSome) (n : Nat) :
    m.reach a (k + n) = k + m.reach (a + k) n := by
  induction k generalizing a with
  | zero => simp
  | succ k ih =>
    have hhead : (m a).isSome := h 0 (by omega)
    have hrest := ih (a := a + 1) fun i hi => by
      rw [show a + 1 + i = a + (i + 1) by omega]
      exact h (i + 1) (by omega)
    rw [show k + 1 + n = k + n + 1 by omega, reach, if_pos hhead, hrest,
      show a + 1 + k = a + (k + 1) by omega]
    omega

/-- The whole range is reached exactly when it is accessible. -/
theorem reach_eq_iff : m.reach a n = n ↔ ∀ i, i < n → (m (a + i)).isSome := by
  constructor
  · intro h i hi
    exact isSome_of_lt_reach (n := n) (by omega)
  · intro h
    have := reach_add h 0
    simpa [reach] using this

theorem reach_congr (h : ∀ i, i < n → (m' (a + i)).isSome = (m (a + i)).isSome) :
    m'.reach a n = m.reach a n := by
  induction n generalizing a with
  | zero => rfl
  | succ n ih =>
    have hrest := ih (a := a + 1) fun i hi => by
      rw [show a + 1 + i = a + (i + 1) by omega]
      exact h (i + 1) (by omega)
    have hhead := h 0 (by omega)
    rw [add_zero] at hhead
    rw [reach, reach, hhead, hrest]

theorem bytes_add (m : Partial) (a k : Nat) : m.bytes (a + k) = fun i => m.bytes a (k + i) := by
  funext i
  simp only [bytes, add_assoc]

theorem eq_some_bytes {i : Nat} (h : (m (a + i)).isSome) : m (a + i) = some (m.bytes a i) := by
  obtain ⟨b, hb⟩ := Option.isSome_iff_exists.mp h
  simp [bytes, hb]

theorem store_zero (m : Partial) (a : Nat) (src : Bytes) : m.store a 0 src = m := by
  funext b
  exact if_neg (by omega)

/-- Two stores side by side are one. -/
theorem store_store (m : Partial) (a k n : Nat) (src : Bytes) :
    (m.store a k src).store (a + k) n (fun i => src (k + i)) = m.store a (k + n) src := by
  funext b
  unfold store
  by_cases h₁ : a + k ≤ b ∧ b < a + k + n
  · have hidx : k + (b - (a + k)) = b - a := by omega
    simp only [if_pos h₁, if_pos (show a ≤ b ∧ b < a + (k + n) by omega), hidx]
  · rw [if_neg h₁]
    by_cases h₂ : a ≤ b ∧ b < a + k
    · rw [if_pos h₂, if_pos (by omega)]
    · rw [if_neg h₂, if_neg (by omega)]

/-- The `k` bytes at `a` are accessible and not null, and a null byte follows. -/
structure IsString (m : Partial) (a k : Nat) : Prop where
  nul : m (a + k) = some 0
  chars : ∀ i, i < k → ∃ b, b ≠ 0 ∧ m (a + i) = some b

theorem IsString.unique {j : Nat} (h : m.IsString a j) (h' : m.IsString a k) : j = k := by
  rcases Nat.lt_trichotomy j k with hlt | heq | hgt
  · obtain ⟨b, hb, hmem⟩ := h'.chars j hlt
    rw [h.nul] at hmem
    exact absurd (Option.some.inj hmem).symm hb
  · exact heq
  · obtain ⟨b, hb, hmem⟩ := h.chars k hgt
    rw [h'.nul] at hmem
    exact absurd (Option.some.inj hmem).symm hb

/-- Characters in front of a string do not matter to where it ends. -/
theorem isString_add (h : ∀ i, i < n → ∃ b, b ≠ 0 ∧ m (a + i) = some b) :
    m.IsString a (n + k) ↔ m.IsString (a + n) k := by
  constructor
  · intro hs
    refine ⟨by rw [add_assoc]; exact hs.nul, fun i hi => ?_⟩
    rw [add_assoc]
    exact hs.chars (n + i) (by omega)
  · intro hs
    refine ⟨by rw [← add_assoc]; exact hs.nul, fun i hi => ?_⟩
    by_cases hin : i < n
    · exact h i hin
    · have hrest := hs.chars (i - n) (by omega)
      rwa [show a + n + (i - n) = a + i by omega] at hrest

/-- A string does not end among characters. -/
theorem IsString.le_of_chars (hs : m.IsString a k)
    (h : ∀ i, i < n → ∃ b, b ≠ 0 ∧ m (a + i) = some b) : n ≤ k := by
  by_contra hlt
  obtain ⟨b, hb, hmem⟩ := h k (by omega)
  rw [hs.nul] at hmem
  exact hb (Option.some.inj hmem).symm

end Partial

end FogOS.Library
