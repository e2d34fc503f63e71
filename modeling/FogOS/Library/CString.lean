import FogOS.Library.Bytes

/-!
# C strings of bounded length

`strncmp` and `strncpy` see a string through its first `n` bytes, up to the first
zero. `cut` is that part; two strings compare equal exactly when their parts are
equal, and a copy keeps the part of its source.
-/

namespace FogOS.Library

namespace Bytes

/-- The memory from the next byte on. -/
def next (p : Bytes) : Bytes := fun i => p (i + 1)

/-- The memory that holds the bytes of a list and then zeros. -/
def ofList (l : List UInt8) : Bytes := fun i => l.getD i 0

/-- The characters before the first zero, at most `n` of them. -/
def cut (p : Bytes) : Nat → List UInt8
  | 0 => []
  | n + 1 => if p 0 = 0 then [] else p 0 :: cut p.next n

def strncmp (p q : Bytes) : Nat → Int
  | 0 => 0
  | n + 1 =>
    if p 0 ≠ 0 ∧ p 0 = q 0 then strncmp p.next q.next n else (p 0).toNat - (q 0).toNat

/-- The `n` bytes that `strncpy` writes. -/
def strncpy (t : Bytes) : Nat → List UInt8
  | 0 => []
  | n + 1 => if t 0 = 0 then List.replicate (n + 1) 0 else t 0 :: strncpy t.next n

variable {p q : Bytes} {n : Nat}

theorem strncmp_eq_zero_iff : strncmp p q n = 0 ↔ cut p n = cut q n := by
  induction n generalizing p q with
  | zero => simp [strncmp, cut]
  | succ n ih =>
    unfold strncmp cut
    by_cases hp : p 0 = 0
    · -- The loop stops at the end of `p`: the strings are equal if `q` ends there too.
      by_cases hq : q 0 = 0
      · simp [hp, hq]
      · have hne : (q 0).toNat ≠ 0 := fun h => hq (UInt8.toNat_inj.mp h)
        simp [hp, hq, hne]
    · by_cases hpq : p 0 = q 0
      · rw [if_pos ⟨hp, hpq⟩, ih, if_neg hp, if_neg (hpq ▸ hp), hpq]
        simp
      · have hne : (p 0).toNat ≠ (q 0).toNat := fun h => hpq (UInt8.toNat_inj.mp h)
        rw [if_neg fun h => hpq h.2, if_neg hp]
        constructor
        · omega
        · intro h
          split at h
          · cases h
          · exact absurd (List.cons.inj h).1 hpq

@[simp] theorem length_strncpy (t : Bytes) (n : Nat) : (strncpy t n).length = n := by
  induction n generalizing t with
  | zero => rfl
  | succ n ih =>
    unfold strncpy
    split
    · simp
    · simp [ih]

theorem cut_congr (h : ∀ i, i < n → p i = q i) : cut p n = cut q n := by
  induction n generalizing p q with
  | zero => rfl
  | succ n ih =>
    have hnext : cut p.next n = cut q.next n := ih fun i hi => h (i + 1) (by omega)
    rw [cut, cut, h 0 (by omega), hnext]

theorem next_ofList_cons (b : UInt8) (l : List UInt8) : (ofList (b :: l)).next = ofList l := rfl

/-- Reading a copy back gives the part of the source that was copied. -/
theorem cut_strncpy (t : Bytes) (n : Nat) : cut (ofList (strncpy t n)) n = cut t n := by
  induction n generalizing t with
  | zero => rfl
  | succ n ih =>
    by_cases h : t 0 = 0
    · have hzero : ofList (strncpy t (n + 1)) 0 = 0 := by
        simp [ofList, strncpy, h, List.replicate_succ]
      rw [cut, cut, if_pos hzero, if_pos h]
    · have hcons : strncpy t (n + 1) = t 0 :: strncpy t.next n := by
        rw [strncpy, if_neg h]
      have hhead : ofList (t 0 :: strncpy t.next n) 0 = t 0 := rfl
      rw [hcons, cut, cut, hhead, if_neg h, if_neg h, next_ofList_cons, ih]

/-- A list without zeros is a string; its part is the list cut to `n` characters. -/
theorem cut_ofList {l : List UInt8} (h : (0 : UInt8) ∉ l) : cut (ofList l) n = l.take n := by
  induction n generalizing l with
  | zero => rfl
  | succ n ih =>
    cases l with
    | nil => rfl
    | cons b l =>
      have hb : b ≠ 0 := fun hb => h (hb ▸ List.mem_cons_self)
      have hhead : ofList (b :: l) 0 = b := rfl
      rw [cut, hhead, if_neg hb, next_ofList_cons,
        ih fun hl => h (List.mem_cons_of_mem _ hl), List.take_succ_cons]

end Bytes

end FogOS.Library
