import Mathlib

/-!
# Little-endian fields in a byte store

A byte store is a function from offsets to bytes. A field of `w` bytes is read
and written in little-endian order; the lemmas say that a write is read back
modulo the field's width and leaves every disjoint field alone.
-/

namespace FogOS.Library

open Function Nat

/-- A byte store, addressed by offset. -/
abbrev Bytes : Type := Nat → UInt8

namespace Bytes

/-- The `w`-byte little-endian number stored at `off`. -/
def getLE (b : Bytes) (off : Nat) : Nat → Nat
  | 0 => 0
  | w + 1 => (b off).toNat + 256 * getLE b (off + 1) w

/-- Store `v` as a `w`-byte little-endian number at `off`. -/
def setLE (b : Bytes) (off w v : Nat) : Bytes := fun i =>
  if off ≤ i ∧ i < off + w then UInt8.ofNat (v / 256 ^ (i - off)) else b i

/-- Overwrite the `n` bytes at `off` with the bytes of `src`. -/
def blit (b : Bytes) (off n : Nat) (src : Bytes) : Bytes := fun i =>
  if off ≤ i ∧ i < off + n then src (i - off) else b i

variable {b : Bytes} {off w v i : Nat}

theorem setLE_apply_outside (h : i < off ∨ off + w ≤ i) : setLE b off w v i = b i := by
  have hn : ¬ (off ≤ i ∧ i < off + w) := by omega
  simp only [setLE, if_neg hn]

theorem blit_apply_outside {src : Bytes} {n : Nat} (h : i < off ∨ off + n ≤ i) :
    blit b off n src i = b i := by
  have hn : ¬ (off ≤ i ∧ i < off + n) := by omega
  simp only [blit, if_neg hn]

theorem blit_apply_inside {src : Bytes} {n : Nat} (h : off ≤ i ∧ i < off + n) :
    blit b off n src i = src (i - off) := by
  simp only [blit, if_pos h]

/-- Two adjacent pieces of one source are one piece. -/
theorem blit_blit (b : Bytes) (off k n : Nat) (src : Bytes) :
    (b.blit off k src).blit (off + k) n (fun i => src (k + i)) = b.blit off (k + n) src := by
  funext p
  unfold blit
  by_cases h₁ : off + k ≤ p ∧ p < off + k + n
  · have hidx : k + (p - (off + k)) = p - off := by omega
    simp only [if_pos h₁, if_pos (show off ≤ p ∧ p < off + (k + n) by omega), hidx]
  · rw [if_neg h₁]
    by_cases h₂ : off ≤ p ∧ p < off + k
    · rw [if_pos h₂, if_pos (by omega)]
    · rw [if_neg h₂, if_neg (by omega)]

theorem blit_zero (b : Bytes) (off : Nat) (src : Bytes) : b.blit off 0 src = b := by
  funext p
  exact if_neg (by omega)

theorem update_eq_blit (b : Bytes) (off : Nat) (v : UInt8) (src : Bytes) (h : src 0 = v) :
    update b off v = b.blit off 1 src := by
  funext p
  by_cases hp : p = off
  · subst hp
    rw [update_self, blit_apply_inside (by omega), Nat.sub_self, h]
  · rw [update_of_ne hp, blit_apply_outside (by omega)]

theorem blit_congr {src src' : Bytes} {n : Nat} (h : ∀ i, i < n → src i = src' i) :
    b.blit off n src = b.blit off n src' := by
  funext p
  unfold blit
  by_cases hp : off ≤ p ∧ p < off + n
  · rw [if_pos hp, if_pos hp, h _ (by omega)]
  · rw [if_neg hp, if_neg hp]

/-- A field depends only on its own bytes. -/
theorem getLE_congr {a : Bytes}
    (h : ∀ i, off ≤ i → i < off + w → a i = b i) : getLE a off w = getLE b off w := by
  induction w generalizing off with
  | zero => rfl
  | succ w ih =>
    simp only [getLE]
    rw [h off (le_refl _) (by omega), ih fun i h₁ h₂ => h i (by omega) (by omega)]

/-- A field of bytes that are all zero reads as zero. -/
theorem getLE_zero (h : ∀ i, off ≤ i → i < off + w → b i = 0) : getLE b off w = 0 := by
  induction w generalizing off with
  | zero => rfl
  | succ w ih =>
    simp only [getLE]
    rw [h off (le_refl _) (by omega), ih fun i h₁ h₂ => h i (by omega) (by omega)]
    rfl

/-- The bytes of `setLE` are the base-256 digits of the value. -/
theorem getLE_digits
    (h : ∀ i, i < w → b (off + i) = UInt8.ofNat (v / 256 ^ i)) : getLE b off w = v % 256 ^ w := by
  induction w generalizing off v with
  | zero => simp [getLE, mod_one]
  | succ w ih =>
    have h0 := h 0 (by omega)
    have htail : ∀ i, i < w → b (off + 1 + i) = UInt8.ofNat (v / 256 / 256 ^ i) := by
      intro i hi
      have hs := h (i + 1) (by omega)
      rw [add_assoc, add_comm 1 i, hs, Nat.div_div_eq_div_mul, Nat.pow_succ, mul_comm 256]
    simp only [getLE]
    rw [ih htail]
    simp only [add_zero, Nat.pow_zero, Nat.div_one] at h0
    have hpow : 256 ^ (w + 1) = 256 * 256 ^ w := Nat.pow_succ'
    rw [h0, UInt8.toNat_ofNat', hpow, mod_mul]

/-- A stored field is read back modulo its width. -/
theorem getLE_setLE_same (b : Bytes) (off w v : Nat) :
    getLE (setLE b off w v) off w = v % 256 ^ w := by
  apply getLE_digits
  intro i hi
  have hin : off ≤ off + i ∧ off + i < off + w := by omega
  simp only [setLE, if_pos hin, Nat.add_sub_cancel_left]

/-- Storing a field leaves a disjoint field alone. -/
theorem getLE_setLE_disjoint {off' w' : Nat}
    (h : off + w ≤ off' ∨ off' + w' ≤ off) : getLE (setLE b off w v) off' w' = getLE b off' w' := by
  apply getLE_congr
  intro i h₁ h₂
  exact setLE_apply_outside (by omega)

section Words

/-- Store the numbers as consecutive four-byte words from `off` on. -/
def setWords (b : Bytes) (off : Nat) : List Nat → Bytes
  | [] => b
  | w :: ws => setWords (setLE b off 4 w) (off + 4) ws

theorem setWords_apply_outside (ws : List Nat)
    (h : i < off ∨ off + 4 * ws.length ≤ i) : setWords b off ws i = b i := by
  induction ws generalizing b off with
  | nil => rfl
  | cons w ws ih =>
    simp only [setWords, List.length_cons] at h ⊢
    rw [ih (by omega), setLE_apply_outside (by omega)]

theorem getLE_setWords_disjoint {off' w' : Nat} (ws : List Nat)
    (h : off' + w' ≤ off ∨ off + 4 * ws.length ≤ off') :
    getLE (setWords b off ws) off' w' = getLE b off' w' := by
  apply getLE_congr
  intro i h₁ h₂
  exact setWords_apply_outside ws (by omega)

theorem getLE_setWords {j : Nat} {ws : List Nat} (hj : j < ws.length) :
    getLE (setWords b off ws) (off + 4 * j) 4 = ws[j] % 2 ^ 32 := by
  induction ws generalizing b off j with
  | nil => simp at hj
  | cons w ws ih =>
    simp only [setWords]
    cases j with
    | zero =>
      rw [getLE_setWords_disjoint ws (by omega)]
      exact getLE_setLE_same b off 4 w
    | succ j =>
      have hstep := @ih (setLE b off 4 w) (off + 4) j (by simpa using hj)
      rw [show off + 4 * (j + 1) = off + 4 + 4 * j by omega, hstep]
      rfl

end Words

section Bits

/-- Bit `i` of the store: `b[i / 8] & (1 << (i % 8))`. -/
def getBit (b : Bytes) (i : Nat) : Bool := (b (i / 8)).toNat.testBit (i % 8)

/-- `b[i / 8] |= 1 << (i % 8)`. -/
def setBit (b : Bytes) (i : Nat) : Bytes :=
  update b (i / 8) (UInt8.ofNat ((b (i / 8)).toNat ||| 2 ^ (i % 8)))

/-- `b[i / 8] &= ~(1 << (i % 8))`. -/
def clearBit (b : Bytes) (i : Nat) : Bytes :=
  update b (i / 8) (UInt8.ofNat ((b (i / 8)).toNat &&& (255 ^^^ 2 ^ (i % 8))))

theorem testBit_ofNat_toNat (n : Nat) {k : Nat} (hk : k < 8) :
    (UInt8.ofNat n).toNat.testBit k = n.testBit k := by
  rw [UInt8.toNat_ofNat', testBit_mod_two_pow]
  simp [hk]

theorem getBit_setBit (b : Bytes) (i j : Nat) :
    getBit (setBit b i) j = (decide (j = i) || getBit b j) := by
  unfold getBit setBit
  have hk : j % 8 < 8 := mod_lt _ (by decide)
  by_cases hbyte : j / 8 = i / 8
  · rw [hbyte, update_self, testBit_ofNat_toNat _ hk, testBit_or,
      testBit_two_pow, Bool.or_comm]
    congr 1
    exact decide_eq_decide.mpr (by omega)
  · have hne : j ≠ i := fun h => hbyte (by rw [h])
    rw [update_of_ne hbyte]
    simp [hne]

theorem getBit_clearBit (b : Bytes) (i j : Nat) :
    getBit (clearBit b i) j = (!decide (j = i) && getBit b j) := by
  unfold getBit clearBit
  have hk : j % 8 < 8 := mod_lt _ (by decide)
  by_cases hbyte : j / 8 = i / 8
  · have hmask : (255 ^^^ 2 ^ (i % 8)).testBit (j % 8) = !decide (j = i) := by
      rw [testBit_xor, testBit_two_pow, show (255 : Nat) = 2 ^ 8 - 1 by rfl,
        testBit_two_pow_sub_one]
      have hiff : i % 8 = j % 8 ↔ j = i := by omega
      simp [hk, hiff]
    rw [hbyte, update_self, testBit_ofNat_toNat _ hk, testBit_and, hmask, Bool.and_comm]
  · have hne : j ≠ i := fun h => hbyte (by rw [h])
    rw [update_of_ne hbyte]
    simp [hne]

end Bits

end Bytes

end FogOS.Library
