import FogOS.Fs.Layout

/-!
# Block allocation

`balloc` and `bfree` work on the free map through the buffer cache, so the state
is the disk as the cache shows it. `refusals` makes `balloc` answer `0` at chosen
calls, as it does when the disk is full; when it is used up, `balloc` answers `0`
only on a full disk.
-/

namespace FogOS.Fs

open Function Library Bytes List Nat

/-- The panics of `fs.c` below the directory layer. -/
inductive FsPanic
  | freeingFreeBlock
  | bmapOutOfRange
  | ilock
  | ilockNoType
  | igetNoInodes
  deriving DecidableEq

/-- The disk as the buffer cache shows it, the blocks passed to `log_write` so far (the
latest first), and the answers `balloc` is made to give. -/
structure Store where
  disk : Disk
  logged : List Nat
  refusals : List Bool

/-- Change the buffer of block `b` and `log_write` it. -/
def Store.write (s : Store) (b : Nat) (v : Block) : Store :=
  { s with disk := update s.disk b v, logged := b :: s.logged }

@[simp] theorem Store.write_disk (s : Store) (b : Nat) (v : Block) :
    (s.write b v).disk = update s.disk b v := rfl

def bzero (s : Store) (bno : Nat) : Store := s.write bno fun _ => 0

/-- The two loops of `balloc`: the first block whose bit is clear, a bitmap block at a
time. -/
def firstFree (sb : Superblock) (d : Disk) : Option Nat :=
  (List.range ((sb.size + bpb - 1) / bpb)).findSome? fun k =>
    let b := k * bpb
    ((List.range bpb).find? fun bi =>
      decide (b + bi < sb.size) && !getBit (d (bblock sb b)) bi).map (b + ·)

/-- Allocate a zeroed block; `0` if there is none. -/
def balloc (sb : Superblock) (s : Store) : Nat × Store :=
  let refused := s.refusals.headD false
  let s := { s with refusals := s.refusals.tail }
  if refused then (0, s)
  else
    match firstFree sb s.disk with
    | some b =>
      let s := s.write (bblock sb b) (setBit (s.disk (bblock sb b)) (b % bpb))
      (b, bzero s b)
    | none => (0, s)

def bfree (sb : Superblock) (s : Store) (b : Nat) : Except FsPanic Store :=
  if blockUsed sb s.disk b then
    .ok (s.write (bblock sb b) (clearBit (s.disk (bblock sb b)) (b % bpb)))
  else .error .freeingFreeBlock

variable {sb : Superblock} {s s' : Store} {d : Disk}

theorem firstFree_spec {b : Nat} (h : firstFree sb d = some b) :
    b < sb.size ∧ blockUsed sb d b = false := by
  obtain ⟨k, -, hk⟩ := exists_of_findSome?_eq_some h
  obtain ⟨bi, hfind, rfl⟩ := Option.map_eq_some_iff.mp hk
  have hlt : bi < bpb := mem_range.mp (mem_of_find?_eq_some hfind)
  have hbit := find?_some hfind
  simp only [Bool.and_eq_true, decide_eq_true_eq, Bool.not_eq_true'] at hbit
  refine ⟨hbit.1, ?_⟩
  have hpos : 0 < bpb := by decide
  have hblock : bblock sb (k * bpb + bi) = bblock sb (k * bpb) := by
    unfold bblock
    rw [mul_comm, mul_add_div hpos, div_eq_of_lt hlt, Nat.mul_div_cancel_left _ hpos, add_zero]
  have hmod : (k * bpb + bi) % bpb = bi := by
    rw [mul_comm, mul_add_mod, mod_eq_of_lt hlt]
  unfold blockUsed
  rw [hblock, hmod]
  exact hbit.2

/-- `d'` is `d` with the free block `b` marked in the free map and zeroed. -/
structure Allocates (sb : Superblock) (d d' : Disk) (b : Nat) : Prop where
  lt_size : b < sb.size
  free : blockUsed sb d b = false
  disk_eq : d' = update (update d (bblock sb b) (setBit (d (bblock sb b)) (b % bpb))) b fun _ => 0

/-- `balloc` answers `0` and changes nothing, or allocates the block it answers. -/
theorem balloc_cases (sb : Superblock) (s : Store) :
    ∃ b s', balloc sb s = (b, s') ∧
      ((b = 0 ∧ s'.disk = s.disk) ∨ Allocates sb s.disk s'.disk b) := by
  cases hrefused : s.refusals.headD false with
  | true =>
    exact ⟨0, { s with refusals := s.refusals.tail },
      by simp only [balloc, hrefused, if_true], Or.inl ⟨rfl, rfl⟩⟩
  | false =>
    cases hfree : firstFree sb s.disk with
    | none =>
      exact ⟨0, { s with refusals := s.refusals.tail }, by simp [balloc, hfree], Or.inl ⟨rfl, rfl⟩⟩
    | some b =>
      obtain ⟨hlt, hbit⟩ := firstFree_spec hfree
      exact ⟨b, _, by simp only [balloc, hrefused, hfree]; rfl, Or.inr ⟨hlt, hbit, rfl⟩⟩

theorem bfree_eq_ok {b : Nat} (h : blockUsed sb s.disk b = true) :
    bfree sb s b = .ok (s.write (bblock sb b) (clearBit (s.disk (bblock sb b)) (b % bpb))) := by
  simp only [bfree, h, if_true]

section Mkfs

/-- The free map that `balloc` of `mkfs` writes: the first `used` blocks are allocated. -/
def mkfsBitmap (used : Nat) : Block :=
  (List.range used).foldl setBit fun _ => 0

/-- An image in which only the free map is not zero. -/
def formatted (sb : Superblock) (used : Nat) : Disk :=
  update (fun _ _ => 0) sb.bmapstart (mkfsBitmap used)

theorem getBit_mkfsBitmap (used i : Nat) : getBit (mkfsBitmap used) i = decide (i < used) := by
  unfold mkfsBitmap
  induction used with
  | zero => simp [getBit]
  | succ used ih =>
    rw [range_succ, foldl_append, foldl_cons, foldl_nil, getBit_setBit, ih]
    simp only [← Bool.decide_or]
    exact decide_eq_decide.mpr (by omega)

theorem blockUsed_formatted {used b : Nat} (hb : b < bpb) :
    blockUsed sb (formatted sb used) b = decide (b < used) := by
  have hblock : bblock sb b = sb.bmapstart := by
    unfold bblock
    rw [div_eq_of_lt hb, zero_add]
  unfold blockUsed formatted
  rw [hblock, update_self, mod_eq_of_lt hb, getBit_mkfsBitmap]

end Mkfs

end FogOS.Fs
