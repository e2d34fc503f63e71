import Mathlib

/-!
# Radix trees given by a child function

A radix tree of branching `B` is a root and a partial function from a node and an
index to a child. A node is addressed by its depth and by a key, whose base-`B`
digits are the indices on the way down, the most significant digit first.
-/

namespace FogOS.Library.Radix

open Option Nat

variable {N : Type*} {B : Nat} {child child' : N → Nat → Option N} {root : N}

/-- The node at depth `d` under the key `k`. -/
def nodeAt (B : Nat) (child : N → Nat → Option N) (root : N) : Nat → Nat → Option N
  | 0, _ => some root
  | d + 1, k => (nodeAt B child root d (k / B)).bind fun n => child n (k % B)

@[simp] theorem nodeAt_zero (k : Nat) : nodeAt B child root 0 k = some root := rfl

theorem nodeAt_succ (d k : Nat) :
    nodeAt B child root (d + 1) k = (nodeAt B child root d (k / B)).bind fun n => child n (k % B) :=
  rfl

theorem key_div {k i : Nat} (hi : i < B) : (k * B + i) / B = k := by
  rw [mul_comm, mul_add_div (zero_lt_of_lt hi), div_eq_of_lt hi, add_zero]

theorem key_mod {k i : Nat} (hi : i < B) : (k * B + i) % B = i := by
  rw [mul_comm, mul_add_mod, mod_eq_of_lt hi]

theorem nodeAt_child {d k i : Nat} {n : N} (hn : nodeAt B child root d k = some n) (hi : i < B) :
    nodeAt B child root (d + 1) (k * B + i) = child n i := by
  rw [nodeAt_succ, key_div hi, key_mod hi, hn, bind_some]

/-- A node below depth 0 hangs from a node one level up. -/
theorem nodeAt_parent {d k : Nat} {n : N} (h : nodeAt B child root (d + 1) k = some n) :
    ∃ p, nodeAt B child root d (k / B) = some p ∧ child p (k % B) = some n :=
  bind_eq_some_iff.mp h

theorem key_div_lt {d k : Nat} (h : k < B ^ (d + 1)) : k / B < B ^ d := by
  exact Nat.div_lt_of_lt_mul (by rwa [mul_comm])

theorem key_child_lt {d k i : Nat} (hk : k < B ^ d) (hi : i < B) : k * B + i < B ^ (d + 1) := by
  calc k * B + i < k * B + B := by omega
    _ = (k + 1) * B := by rw [add_mul, one_mul]
    _ ≤ B ^ d * B := Nat.mul_le_mul_right _ hk

/-- The tree depends only on the children of its inner nodes. -/
theorem nodeAt_congr (hB : 0 < B) {D : Nat}
    (h : ∀ d k n, d < D → k < B ^ d → nodeAt B child root d k = some n →
      ∀ i, i < B → child' n i = child n i) {d k : Nat} (hd : d ≤ D) (hk : k < B ^ d) :
    nodeAt B child' root d k = nodeAt B child root d k := by
  induction d generalizing k with
  | zero => rfl
  | succ d ih =>
    have hk' := key_div_lt hk
    rw [nodeAt_succ, nodeAt_succ, ih (by omega) hk']
    cases hn : nodeAt B child root d (k / B) with
    | none => rfl
    | some n => exact h d (k / B) n hd hk' hn (k % B) (mod_lt _ hB)

/-- A change of the child at `i₀` of one node, where the old child and the new one have no
children themselves, is seen at the key of that child only. -/
theorem nodeAt_setChild {D d₀ k₀ i₀ : Nat} {n₀ : N} (hB : 0 < B) (hi₀ : i₀ < B)
    (hn₀ : nodeAt B child root d₀ k₀ = some n₀)
    (hunshared : ∀ d k, d ≤ D → k < B ^ d → nodeAt B child root d k = some n₀ → d = d₀ ∧ k = k₀)
    (hold : ∀ c, child n₀ i₀ = some c → ∀ i, i < B → child c i = none)
    (hnew : ∀ c, child' n₀ i₀ = some c → ∀ i, i < B → child' c i = none)
    (hsame : ∀ d k n i, d < D → k < B ^ d → nodeAt B child root d k = some n → i < B →
      ¬ (d = d₀ + 1 ∧ k = k₀ * B + i₀) → ¬ (n = n₀ ∧ i = i₀) → child' n i = child n i)
    {d k : Nat} (hd : d ≤ D) (hk : k < B ^ d) :
    nodeAt B child' root d k
      = if d = d₀ + 1 ∧ k = k₀ * B + i₀ then child' n₀ i₀ else nodeAt B child root d k := by
  induction d generalizing k with
  | zero => simp
  | succ d ih =>
    have hk' := key_div_lt hk
    have hmod : k % B < B := mod_lt _ hB
    rw [nodeAt_succ, ih (by omega) hk']
    by_cases hc : d = d₀ + 1 ∧ k / B = k₀ * B + i₀
    · -- Below the changed child there is nothing, before and after.
      have hne : ¬ (d + 1 = d₀ + 1 ∧ k = k₀ * B + i₀) := by omega
      have hup : nodeAt B child root d (k / B) = child n₀ i₀ := by
        rw [hc.1, hc.2, nodeAt_child hn₀ hi₀]
      rw [if_pos hc, if_neg hne, nodeAt_succ, hup]
      have hafter : ((child' n₀ i₀).bind fun n => child' n (k % B)) = none := by
        cases h : child' n₀ i₀ with
        | none => rfl
        | some c => exact hnew c h _ hmod
      have hbefore : ((child n₀ i₀).bind fun n => child n (k % B)) = none := by
        cases h : child n₀ i₀ with
        | none => rfl
        | some c => exact hold c h _ hmod
      rw [hafter, hbefore]
    · rw [if_neg hc, nodeAt_succ]
      by_cases hhere : d + 1 = d₀ + 1 ∧ k = k₀ * B + i₀
      · obtain ⟨hd', rfl⟩ := hhere
        obtain rfl : d = d₀ := by omega
        rw [if_pos ⟨rfl, rfl⟩, key_div hi₀, key_mod hi₀, hn₀, bind_some]
      · rw [if_neg hhere]
        cases hn : nodeAt B child root d (k / B) with
        | none => rfl
        | some n =>
          refine hsame d (k / B) n (k % B) (by omega) hk' hn hmod hc ?_
          rintro ⟨rfl, hi⟩
          obtain ⟨rfl, hkk⟩ := hunshared d (k / B) (by omega) hk' hn
          refine hhere ⟨rfl, ?_⟩
          rw [← hkk, ← hi, mul_comm, div_add_mod]

end FogOS.Library.Radix
