import Mathlib

/-!
# The two `memmove`

Both copy in place, one byte at a time, and choose the direction by comparing the pointers:
`kernel/string.c` goes down where the end of the source lies above the destination,
`user/ulib.c` wherever the source does not lie above the destination. Pointers have 64 bits.
-/

namespace FogOS.Memmove

open Function

abbrev Addr : Type := BitVec 64
abbrev Memory : Type := Addr → UInt8

variable {m : Memory} {d s dst src : Addr} {n : Nat}

/-- `while(n-- > 0) *d++ = *s++`. -/
def copyUp (m : Memory) (d s : Addr) : Nat → Memory
  | 0 => m
  | n + 1 => copyUp (update m d (m s)) (d + 1) (s + 1) n

/-- `while(n-- > 0) *--d = *--s`. -/
def copyDown (m : Memory) (d s : Addr) : Nat → Memory
  | 0 => m
  | n + 1 => copyDown (update m (d - 1) (m (s - 1))) (d - 1) (s - 1) n

/-- The kernel's version, with the pointer that it returns. -/
def kernelMemmove (m : Memory) (dst src : Addr) (n : UInt32) : Addr × Memory :=
  if n = 0 then (dst, m)
  else if src < dst ∧ src + .ofNat 64 n.toNat > dst then
    (dst, copyDown m (dst + .ofNat 64 n.toNat) (src + .ofNat 64 n.toNat) n.toNat)
  else (dst, copyUp m dst src n.toNat)

/-- The user library's version: the length is an `int`, and a loop does nothing below zero. -/
def userMemmove (m : Memory) (vdst vsrc : Addr) (n : Int32) : Addr × Memory :=
  if vsrc > vdst then (vdst, copyUp m vdst vsrc n.toInt.toNat)
  else (vdst, copyDown m (vdst + .ofInt 64 n.toInt) (vsrc + .ofInt 64 n.toInt) n.toInt.toNat)

/-- A copy through a temporary: `dst[0..n)` is the old `src[0..n)`, the rest is as before. -/
def moved (m : Memory) (dst src : Addr) (n : Nat) : Memory := fun a =>
  if (a - dst).toNat < n then m (src + (a - dst)) else m a

/-- The `n` bytes at `p` end within the address space. -/
def Fits (p : Addr) (n : Nat) : Prop := p.toNat + n ≤ 2 ^ 64

/-- Going up, no byte is read after it is written when the destination is `n` bytes or more
ahead of the source, counted around the address space. -/
theorem copyUp_eq (hn : n ≤ 2 ^ 64) (hfree : d = s ∨ n ≤ (d - s).toNat) :
    copyUp m d s n = moved m d s n := by
  induction n generalizing m d s with
  | zero =>
    funext a
    exact (if_neg (Nat.not_lt_zero _)).symm
  | succ n ih =>
    have hshift : d + 1 = s + 1 ∨ n ≤ (d + 1 - (s + 1)).toNat := by
      rw [add_sub_add_right_eq_sub]
      exact hfree.imp (congrArg (· + 1)) (by omega)
    rw [copyUp, ih (by omega) hshift]
    funext a
    simp only [moved]
    by_cases ha : a = d
    · subst ha
      rw [if_neg (by bv_omega), update_self, sub_self, add_zero]
      exact (if_pos (Nat.succ_pos n)).symm
    · have hrange : (a - (d + 1)).toNat < n ↔ (a - d).toNat < n + 1 := by bv_omega
      have hsource : s + 1 + (a - (d + 1)) = s + (a - d) := by abel
      simp only [hrange, hsource, update_of_ne ha]
      split
      · rename_i hlt
        refine update_of_ne (fun heq => ?_) _ _
        rw [← eq_sub_of_add_eq' heq] at hfree
        obtain rfl | hle := hfree
        · exact ha (by rwa [add_sub_cancel] at heq)
        · omega
      · rfl

theorem copyDown_eq (hn : n ≤ 2 ^ 64) (hfree : d = s ∨ n ≤ (s - d).toNat) :
    copyDown m (d + .ofNat 64 n) (s + .ofNat 64 n) n = moved m d s n := by
  induction n generalizing m with
  | zero =>
    funext a
    exact (if_neg (Nat.not_lt_zero _)).symm
  | succ n ih =>
    have hback (p : Addr) : p + .ofNat 64 (n + 1) - 1 = p + .ofNat 64 n := by
      rw [BitVec.ofNat_add]
      abel
    rw [copyDown, hback, hback, ih (by omega) (hfree.imp_right (by omega))]
    funext a
    simp only [moved]
    by_cases ha : a = d + .ofNat 64 n
    · have hlast : (a - d).toNat = n := by
        rw [ha, add_sub_cancel_left, BitVec.toNat_ofNat, Nat.mod_eq_of_lt hn]
      rw [hlast, if_neg (lt_irrefl n), if_pos (Nat.lt_succ_self n), ha, update_self,
        add_sub_cancel_left]
    · have hrange : (a - d).toNat < n ↔ (a - d).toNat < n + 1 := by bv_omega
      simp only [← hrange, update_of_ne ha]
      split
      · rename_i hlt
        refine update_of_ne (fun heq => ?_) _ _
        have hahead : (s - d).toNat = n - (a - d).toNat := by bv_omega
        obtain rfl | hle := hfree
        · exact ha (by rwa [add_sub_cancel] at heq)
        · omega
      · rfl

/-- The lower of two pointers is far ahead of the other one, around the address space. -/
theorem le_sub_of_lt {p q : Addr} (hlt : p < q) (hq : Fits q n) : n ≤ (p - q).toNat := by
  unfold Fits at hq
  bv_omega

theorem kernelMemmove_eq {n : UInt32} (hdst : Fits dst n.toNat) (hsrc : Fits src n.toNat) :
    kernelMemmove m dst src n = (dst, moved m dst src n.toNat) := by
  have hn : n.toNat ≤ 2 ^ 64 := n.toNat_lt.le.trans (by decide)
  unfold kernelMemmove
  split
  · subst n
    rfl
  · split
    · rename_i hover
      rw [copyDown_eq hn (.inr (le_sub_of_lt hover.1 hdst))]
    · rename_i hover
      rw [copyUp_eq hn]
      by_cases hlt : dst < src
      · exact .inr (le_sub_of_lt hlt hsrc)
      · unfold Fits at hdst
        bv_omega

theorem userMemmove_eq {n : Int32} (hn : 0 ≤ n.toInt) (hdst : Fits dst n.toInt.toNat)
    (hsrc : Fits src n.toInt.toNat) :
    userMemmove m dst src n = (dst, moved m dst src n.toInt.toNat) := by
  have hlt := n.toInt_lt
  obtain ⟨k, hk⟩ := Int.eq_ofNat_of_zero_le hn
  unfold userMemmove
  rw [hk, Int.toNat_natCast] at hdst hsrc ⊢
  split
  · rename_i habove
    rw [copyUp_eq (by omega) (.inr (le_sub_of_lt habove hsrc))]
  · rename_i habove
    rw [BitVec.ofInt_natCast, copyDown_eq (by omega)]
    exact or_iff_not_imp_left.mpr fun hne => le_sub_of_lt (by bv_omega) hdst

/-- Both versions copy as if through a temporary, so they agree wherever both have the length. -/
theorem memmove_moves (m : Memory) (dst src : Addr) :
    (∀ n : UInt32, Fits dst n.toNat → Fits src n.toNat →
      kernelMemmove m dst src n = (dst, moved m dst src n.toNat)) ∧
    ∀ n : Int32, 0 ≤ n.toInt → Fits dst n.toInt.toNat → Fits src n.toInt.toNat →
      userMemmove m dst src n = (dst, moved m dst src n.toInt.toNat) ∧
      userMemmove m dst src n = kernelMemmove m dst src n.toUInt32 := by
  refine ⟨fun n hdst hsrc => kernelMemmove_eq hdst hsrc, fun n hn hdst hsrc => ?_⟩
  have huser := @userMemmove_eq m _ _ _ hn hdst hsrc
  have hlength : n.toUInt32.toNat = n.toInt.toNat := by
    have hsign := n.toBitVec.toInt_eq_toNat_cond
    change n.toBitVec.toNat = n.toBitVec.toInt.toNat
    change 0 ≤ n.toBitVec.toInt at hn
    bv_omega
  refine ⟨huser, ?_⟩
  rw [huser, kernelMemmove_eq (hlength ▸ hdst) (hlength ▸ hsrc), hlength]

/-- Four bytes move up by two, over half of themselves. -/
theorem memmove_moves_up :
    (userMemmove (fun a => .ofNat a.toNat) 12 10 4).2 15 = 13 ∧
    userMemmove (fun a => .ofNat a.toNat) 12 10 4 =
      kernelMemmove (fun a => .ofNat a.toNat) 12 10 4 :=
  ⟨by decide, ((memmove_moves _ 12 10).2 4 (by decide) (Nat.le_of_ble_eq_true rfl)
    (Nat.le_of_ble_eq_true rfl)).2⟩

end FogOS.Memmove
