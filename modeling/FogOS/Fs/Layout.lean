import FogOS.Param

/-!
# The on-disk layout of inodes and of the free bitmap

Inodes and bitmap bits are fields of disk blocks. The definitions follow the
macros of `fs.h`; the lemmas say which fields a block update can change.
-/

namespace FogOS.Fs

open Function Library Bytes Nat List

/-- `NDIRECT`. -/
def ndirect : Nat := 12

/-- `NINDIRECT`: the block numbers that fit in an indirect block. -/
def nindirect : Nat := bsize / 4

/-- `MAXFILE`: the largest file in blocks. -/
def maxfile : Nat := ndirect + nindirect

/-- The fields of `struct dinode`, which `struct inode` repeats. The `short` fields are
kept as the bit patterns that are stored. -/
structure Dinode where
  type : UInt16
  major : UInt16
  minor : UInt16
  nlink : UInt16
  size : UInt32
  addrs : Fin (ndirect + 1) → UInt32

namespace Dinode

@[ext]
theorem ext' {a b : Dinode} (htype : a.type = b.type) (hmajor : a.major = b.major)
    (hminor : a.minor = b.minor) (hnlink : a.nlink = b.nlink) (hsize : a.size = b.size)
    (haddrs : a.addrs = b.addrs) : a = b := by
  cases a
  simp_all

/-- A free inode, all of whose bytes are zero. -/
def zero : Dinode := ⟨0, 0, 0, 0, 0, fun _ => 0⟩

/-- `ip->addrs[k]`. -/
def addr (ip : Dinode) (k : Nat) : Nat :=
  if h : k < ndirect + 1 then (ip.addrs ⟨k, h⟩).toNat else 0

/-- `ip->addrs[k] = b`. -/
def setAddr (ip : Dinode) (k b : Nat) : Dinode :=
  { ip with addrs := fun j => if j.val = k then UInt32.ofNat b else ip.addrs j }

theorem addr_setAddr_self {ip : Dinode} {k b : Nat} (hk : k ≤ ndirect) (hb : b < 2 ^ 32) :
    (ip.setAddr k b).addr k = b := by
  have hk' : k < ndirect + 1 := by omega
  simp only [addr, setAddr, dif_pos hk', if_true, UInt32.toNat_ofNat']
  exact mod_eq_of_lt hb

theorem addr_setAddr_of_ne {ip : Dinode} {k l b : Nat} (h : l ≠ k) :
    (ip.setAddr k b).addr l = ip.addr l := by
  simp only [addr, setAddr, if_neg h]

@[simp] theorem setAddr_type (ip : Dinode) (k b : Nat) : (ip.setAddr k b).type = ip.type := rfl

end Dinode

section Encoding

/-- The inode at byte offset `off` of an inode block. -/
def decodeDinode (b : Block) (off : Nat) : Dinode where
  type := UInt16.ofNat (getLE b off 2)
  major := UInt16.ofNat (getLE b (off + 2) 2)
  minor := UInt16.ofNat (getLE b (off + 4) 2)
  nlink := UInt16.ofNat (getLE b (off + 6) 2)
  size := UInt32.ofNat (getLE b (off + 8) 4)
  addrs i := UInt32.ofNat (getLE b (off + 12 + 4 * i.val) 4)

/-- Store the inode at byte offset `off`, field by field as `iupdate` does. -/
def encodeDinode (b : Block) (off : Nat) (ip : Dinode) : Block :=
  let b := setLE b off 2 ip.type.toNat
  let b := setLE b (off + 2) 2 ip.major.toNat
  let b := setLE b (off + 4) 2 ip.minor.toNat
  let b := setLE b (off + 6) 2 ip.nlink.toNat
  let b := setLE b (off + 8) 4 ip.size.toNat
  setWords b (off + 12) (List.ofFn fun i => (ip.addrs i).toNat)

theorem encodeDinode_apply_outside {b : Block} {off i : Nat} {ip : Dinode}
    (h : i < off ∨ off + 64 ≤ i) : encodeDinode b off ip i = b i := by
  have hlen : (ofFn fun i => (ip.addrs i).toNat).length = 13 := length_ofFn
  unfold encodeDinode
  rw [setWords_apply_outside _ (by omega), setLE_apply_outside (by omega),
    setLE_apply_outside (by omega), setLE_apply_outside (by omega),
    setLE_apply_outside (by omega), setLE_apply_outside (by omega)]

theorem decodeDinode_encodeDinode (b : Block) (off : Nat) (ip : Dinode) :
    decodeDinode (encodeDinode b off ip) off = ip := by
  have h16 : ∀ v : UInt16, UInt16.ofNat (v.toNat % 256 ^ 2) = v := by
    intro v
    rw [mod_eq_of_lt (show v.toNat < 256 ^ 2 from v.toNat_lt), UInt16.ofNat_toNat]
  have h32 : ∀ v : UInt32, UInt32.ofNat (v.toNat % 256 ^ 4) = v := by
    intro v
    rw [mod_eq_of_lt (show v.toNat < 256 ^ 4 from v.toNat_lt), UInt32.ofNat_toNat]
  apply Dinode.ext'
  case haddrs =>
    funext i
    have hi : i.val < (ofFn fun i => (ip.addrs i).toNat).length := by
      exact i.isLt
    simp only [decodeDinode, encodeDinode]
    rw [getLE_setWords hi, List.getElem_ofFn]
    exact h32 (ip.addrs i)
  all_goals
    simp only [decodeDinode, encodeDinode]
    rw [getLE_setWords_disjoint _ (by omega)]
    simp (disch := omega) only [getLE_setLE_disjoint, getLE_setLE_same, h16, h32]

/-- Bytes that are all zero are a free inode. -/
theorem decodeDinode_zero (off : Nat) : decodeDinode (fun _ => 0) off = Dinode.zero := by
  all_goals
    rfl

end Encoding

section Areas

/-- `IBLOCK(i, sb)`: the block that holds inode `i`. -/
def iblock (sb : Superblock) (i : Nat) : Nat := i / ipb + sb.inodestart

/-- `BBLOCK(b, sb)`: the block of the free map that holds the bit of block `b`. -/
def bblock (sb : Superblock) (b : Nat) : Nat := b / bpb + sb.bmapstart

/-- The first data block, after the last block of the free map. -/
def dataStart (sb : Superblock) : Nat := sb.bmapstart + sb.size / bpb + 1

/-- What `mkfs` guarantees of a superblock: the inode blocks lie below the free map, and
block numbers fit the `int` counters of `balloc`. -/
structure WellFormed (sb : Superblock) : Prop where
  inodes_below : sb.inodestart + sb.ninodes / ipb < sb.bmapstart
  size_le : sb.size + bpb ≤ 2 ^ 31

theorem mkfsSuperblock_wellFormed : WellFormed mkfsSuperblock := by
  constructor <;> decide

/-- Inode `i` as it is stored on disk. -/
def dinode (sb : Superblock) (d : Disk) (i : Nat) : Dinode :=
  decodeDinode (d (iblock sb i)) (i % ipb * 64)

/-- The bit of block `b` in the free map. -/
def blockUsed (sb : Superblock) (d : Disk) (b : Nat) : Bool :=
  getBit (d (bblock sb b)) (b % bpb)

variable {sb : Superblock}

theorem WellFormed.size_lt (hsb : WellFormed sb) : sb.size < 2 ^ 32 := by
  have h := hsb.size_le
  omega

theorem WellFormed.iblock_lt (hsb : WellFormed sb) {i : Nat} (hi : i < sb.ninodes) :
    iblock sb i < sb.bmapstart := by
  have h := hsb.inodes_below
  have hdiv : i / ipb ≤ sb.ninodes / ipb := Nat.div_le_div_right (le_of_lt hi)
  unfold iblock
  omega

theorem bmapstart_le_bblock (b : Nat) : sb.bmapstart ≤ bblock sb b :=
  Nat.le_add_left _ _

theorem bblock_lt_dataStart {b : Nat} (hb : b < sb.size) : bblock sb b < dataStart sb := by
  have hdiv : b / bpb ≤ sb.size / bpb := Nat.div_le_div_right (le_of_lt hb)
  unfold bblock dataStart
  omega

theorem bmapstart_lt_dataStart : sb.bmapstart < dataStart sb :=
  lt_succ_of_le (Nat.le_add_right _ _)

theorem dataStart_pos : 0 < dataStart sb :=
  succ_pos _

end Areas

section Updates

variable {sb : Superblock} {d d' : Disk}

theorem dinode_congr {i : Nat} (h : d' (iblock sb i) = d (iblock sb i)) :
    dinode sb d' i = dinode sb d i := by
  unfold dinode
  rw [h]

theorem blockUsed_congr {b : Nat} (h : d' (bblock sb b) = d (bblock sb b)) :
    blockUsed sb d' b = blockUsed sb d b := by
  unfold blockUsed
  rw [h]

/-- The block of inode `i` after `iupdate` has stored the inode. -/
def putDinode (sb : Superblock) (d : Disk) (i : Nat) (ip : Dinode) : Block :=
  encodeDinode (d (iblock sb i)) (i % ipb * 64) ip

theorem dinode_update_self (i : Nat) (ip : Dinode) :
    dinode sb (update d (iblock sb i) (putDinode sb d i ip)) i = ip := by
  unfold dinode putDinode
  rw [update_self, decodeDinode_encodeDinode]

theorem decodeDinode_congr {a b : Block} {off : Nat} (h : ∀ i, off ≤ i → i < off + 64 → a i = b i) :
    decodeDinode a off = decodeDinode b off := by
  have hfield : ∀ o w, off ≤ o → o + w ≤ off + 64 → getLE a o w = getLE b o w := by
    intro o w h₁ h₂
    exact getLE_congr fun i h₃ h₄ => h i (by omega) (by omega)
  apply Dinode.ext'
  case haddrs =>
    funext i
    have hi : i.val < 13 := i.isLt
    simp only [decodeDinode]
    rw [hfield _ _ (by omega) (by omega)]
  all_goals
    simp only [decodeDinode]
    rw [hfield _ _ (by omega) (by omega)]

theorem dinode_update_of_ne {i j : Nat} (ip : Dinode) (h : j ≠ i) :
    dinode sb (update d (iblock sb i) (putDinode sb d i ip)) j = dinode sb d j := by
  by_cases hblock : iblock sb j = iblock sb i
  · have hslot : j % ipb ≠ i % ipb := by
      unfold iblock at hblock
      have hi := div_add_mod i ipb
      have hj := div_add_mod j ipb
      have hdiv : j / ipb = i / ipb := by omega
      rw [hdiv] at hj
      omega
    unfold dinode
    rw [hblock, update_self]
    apply decodeDinode_congr
    intro k hk₁ hk₂
    exact encodeDinode_apply_outside (by omega)
  · apply dinode_congr
    rw [update_of_ne hblock]

theorem same_bit_iff {b c : Nat} : (bblock sb c = bblock sb b ∧ c % bpb = b % bpb) ↔ c = b := by
  constructor
  · rintro ⟨hblock, hbit⟩
    unfold bblock at hblock
    have hb := div_add_mod b bpb
    have hc := div_add_mod c bpb
    have hdiv : c / bpb = b / bpb := by omega
    rw [hdiv, hbit] at hc
    omega
  · rintro rfl
    exact ⟨rfl, rfl⟩

/-- Setting the bit of block `b` marks `b` and no other block. -/
theorem blockUsed_setBit (b c : Nat) :
    blockUsed sb (update d (bblock sb b)
      (setBit (d (bblock sb b)) (b % bpb))) c = (decide (c = b) || blockUsed sb d c) := by
  unfold blockUsed
  by_cases hblock : bblock sb c = bblock sb b
  · rw [hblock, update_self, getBit_setBit]
    congr 1
    apply decide_eq_decide.mpr
    rw [← @same_bit_iff sb b c]
    simp [hblock]
  · have hne : c ≠ b := fun h => hblock (by rw [h])
    rw [update_of_ne hblock]
    simp [hne]

/-- Clearing the bit of block `b` frees `b` and no other block. -/
theorem blockUsed_clearBit (b c : Nat) :
    blockUsed sb (update d (bblock sb b)
      (clearBit (d (bblock sb b)) (b % bpb))) c = (!decide (c = b) && blockUsed sb d c) := by
  unfold blockUsed
  by_cases hblock : bblock sb c = bblock sb b
  · rw [hblock, update_self, getBit_clearBit]
    congr 2
    apply decide_eq_decide.mpr
    rw [← @same_bit_iff sb b c]
    simp [hblock]
  · have hne : c ≠ b := fun h => hblock (by rw [h])
    rw [update_of_ne hblock]
    simp [hne]

end Updates

end FogOS.Fs
