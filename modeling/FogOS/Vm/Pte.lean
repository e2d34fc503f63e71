import FogOS.Vm.Memory

/-!
# The fields of a page table entry

An entry packs a page number above ten flag bits. The macros of `riscv.h` are
rewritten here as divisions and remainders, and an entry is decoded into the page
it refers to and its flags.
-/

namespace FogOS.Vm

open Library Nat Nat

theorem px_eq (level va : Nat) : px level va = va / pgsize / 512 ^ level % 512 := by
  have hpow : 2 ^ (12 + 9 * level) = pgsize * 512 ^ level := by
    rw [pow_add, pow_mul]
    rfl
  rw [px, show (0x1FF : Nat) = 2 ^ 9 - 1 by rfl, and_two_pow_sub_one_eq_mod,
    shiftRight_eq_div_pow, hpow, Nat.div_div_eq_div_mul]

theorem px_lt (level va : Nat) : px level va < 512 := by
  rw [px_eq]
  exact mod_lt _ (by decide)

theorem pteFlags_eq (pte : Nat) : pteFlags pte = pte % 1024 :=
  and_two_pow_sub_one_eq_mod pte 10

theorem pte2pa_eq (pte : Nat) : pte2pa pte = pte / 1024 * pgsize % 2 ^ 64 := by
  rw [pte2pa, word, shiftRight_eq_div_pow, shiftLeft_eq]
  rfl

theorem and_pteV (pte : Nat) : pte &&& pteV = pte % 2 := and_two_pow_sub_one_eq_mod pte 1

/-- The flag bits of an entry are those of its low ten bits. -/
theorem and_flag (pte : Nat) {mask : Nat} (hm : mask < 1024) :
    pte &&& mask = pteFlags pte &&& mask := by
  apply eq_of_testBit_eq
  intro i
  rw [pteFlags_eq, testBit_and, testBit_and, show (1024 : Nat) = 2 ^ 10 by rfl, testBit_mod_two_pow]
  by_cases hi : i < 10
  · simp [hi]
  · have hpow : 2 ^ 10 ≤ 2 ^ i := Nat.pow_le_pow_right (by decide) (by omega)
    have hmask : mask.testBit i = false := testBit_lt_two_pow (lt_of_lt_of_le hm hpow)
    simp [hmask]

theorem or_lt_flags {perm : Nat} (h : perm < 1024) : perm ||| pteV < 1024 :=
  or_lt_two_pow (n := 10) h (by decide)

/-- The flags fill the ten bits that `PA2PTE` leaves clear. -/
theorem pa2pte_or {pa perm : Nat} (h : perm < 1024) :
    pa2pte pa ||| perm ||| pteV = pa / pgsize * 1024 + (perm ||| pteV) := by
  rw [Nat.or_assoc, pa2pte, shiftRight_eq_div_pow,
    ← shiftLeft_add_eq_or_of_lt (i := 10) (or_lt_flags h), shiftLeft_eq]
  rfl

theorem pte_lt {pa perm : Nat} (hpa : pa < 2 ^ 64) (h : perm < 1024) :
    pa2pte pa ||| perm ||| pteV < 2 ^ 64 := by
  have := or_lt_flags h
  rw [pa2pte_or h]
  unfold pgsize
  omega

/-- `PTE_FLAGS` recovers the permissions. -/
theorem pteFlags_pte {pa perm : Nat} (h : perm < 1024) :
    pteFlags (pa2pte pa ||| perm ||| pteV) = perm ||| pteV := by
  have := or_lt_flags h
  rw [pteFlags_eq, pa2pte_or h]
  omega

/-- `PTE2PA` recovers the page. -/
theorem pte2pa_pte {pa perm : Nat} (hpa : pa < 2 ^ 64) (h : perm < 1024) :
    pte2pa (pa2pte pa ||| perm ||| pteV) = pgrounddown pa := by
  have := or_lt_flags h
  rw [pte2pa_eq, pa2pte_or h, pgrounddown]
  unfold pgsize
  omega

theorem valid_pte {pa perm : Nat} (h : perm < 1024) :
    (pa2pte pa ||| perm ||| pteV) &&& pteV ≠ 0 := by
  have hodd : (perm ||| pteV) % 2 = 1 := by
    rw [← and_pteV, Nat.and_comm, Nat.or_comm, and_or_distrib_left, Nat.and_self]
    rw [Nat.and_comm, and_pteV]
    have := mod_two_eq_zero_or_one perm
    rcases this with h0 | h0 <;> rw [h0] <;> rfl
  rw [and_pteV, pa2pte_or h]
  omega

/-- The page and the flags of a valid entry. -/
def decode (pte : Nat) : Option (Nat × Nat) :=
  if pte &&& pteV = 0 then none else some (pte2pa pte, pteFlags pte)

theorem decode_zero : decode 0 = none := rfl

theorem decode_eq_none {pte : Nat} : decode pte = none ↔ pte &&& pteV = 0 := by
  unfold decode
  split <;> simp [*]

theorem decode_pte {pa perm : Nat} (hpa : pa < 2 ^ 64) (h : perm < 1024) :
    decode (pa2pte pa ||| perm ||| pteV) = some (pgrounddown pa, perm ||| pteV) := by
  rw [decode, if_neg (valid_pte h), pte2pa_pte hpa h, pteFlags_pte h]

/-- An entry for a table carries the flag `PTE_V` alone. -/
theorem decode_table {pa : Nat} (hpa : pa < 2 ^ 64) :
    decode (pa2pte pa ||| pteV) = some (pgrounddown pa, pteV) := by
  have h := @decode_pte pa 0 hpa (by decide)
  rwa [or_zero, zero_or] at h

theorem table_lt {pa : Nat} (hpa : pa < 2 ^ 64) : pa2pte pa ||| pteV < 2 ^ 64 := by
  have h := @pte_lt pa 0 hpa (by decide)
  rwa [or_zero] at h

end FogOS.Vm
