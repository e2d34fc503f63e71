import FogOS.Fs.Block
import FogOS.Library.Allocation
import FogOS.Library.Transition

/-!
# Blocks of an inode

`bmap` finds or allocates the block of a file position, `itrunc` frees all blocks
of an inode. The blocks an inode refers to are numbered by slots: `addrs[0..12]`
and then the entries of the indirect block. The allocation invariant says that
the slots of all allocated inodes account exactly for the marked data blocks.
-/

namespace FogOS.Fs

open Function Library Bytes

/-- Entry `j` of an indirect block, `a[j]`. -/
def entry (b : Block) (j : Nat) : Nat := getLE b (4 * j) 4

/-- `a[j] = v`. -/
def setEntry (b : Block) (j v : Nat) : Block := setLE b (4 * j) 4 v

/-- The second half of `bmap`, once the indirect block `ind` is known. -/
def bmapEntry (sb : Superblock) (s : Store) (ind bn : Nat) : Nat × Store :=
  let addr := entry (s.disk ind) bn
  if addr = 0 then
    let (addr, s) := balloc sb s
    if addr ≠ 0 then (addr, s.write ind (setEntry (s.disk ind) bn addr)) else (0, s)
  else (addr, s)

/-- The block of position `bn` of the file, allocated if there is none. Returns `0` if out
of disk space, and the inode and the store with what was allocated. -/
def bmap (sb : Superblock) (s : Store) (ip : Dinode) (bn : Nat) :
    Except FsPanic (Nat × Dinode × Store) :=
  if bn < ndirect then
    if ip.addr bn = 0 then
      let (addr, s) := balloc sb s
      if addr = 0 then .ok (0, ip, s) else .ok (addr, ip.setAddr bn addr, s)
    else .ok (ip.addr bn, ip, s)
  else if bn - ndirect < nindirect then
    let bn := bn - ndirect
    if ip.addr ndirect = 0 then
      let (addr, s) := balloc sb s
      if addr = 0 then .ok (0, ip, s)
      else
        let (addr', s) := bmapEntry sb s addr bn
        .ok (addr', ip.setAddr ndirect addr, s)
    else
      let (addr, s) := bmapEntry sb s (ip.addr ndirect) bn
      .ok (addr, ip, s)
  else .error .bmapOutOfRange

/-- Copy the inode to disk. -/
def iupdate (sb : Superblock) (s : Store) (inum : Nat) (ip : Dinode) : Store :=
  s.write (iblock sb inum) (putDinode sb s.disk inum ip)

/-- The loop of `itrunc` over `addrs[i]`, for the given `i`. -/
def itruncDirect (sb : Superblock) : List Nat → Store → Dinode →
    Except FsPanic (Dinode × Store)
  | [], s, ip => .ok (ip, s)
  | i :: is, s, ip =>
    if ip.addr i ≠ 0 then do
      let s ← bfree sb s (ip.addr i)
      itruncDirect sb is s (ip.setAddr i 0)
    else itruncDirect sb is s ip

/-- The loop of `itrunc` over the entries `a[j]` of the indirect block, for the given `j`. -/
def itruncIndirect (sb : Superblock) (ind : Nat) : List Nat → Store → Except FsPanic Store
  | [], s => .ok s
  | j :: js, s =>
    if entry (s.disk ind) j ≠ 0 then do
      let s ← bfree sb s (entry (s.disk ind) j)
      itruncIndirect sb ind js s
    else itruncIndirect sb ind js s

/-- Free the indirect block and the blocks it lists. -/
def itruncTail (sb : Superblock) (s : Store) (ip : Dinode) : Except FsPanic (Dinode × Store) :=
  if ip.addr ndirect ≠ 0 then do
    let s ← itruncIndirect sb (ip.addr ndirect) (List.range nindirect) s
    let s ← bfree sb s (ip.addr ndirect)
    pure (ip.setAddr ndirect 0, s)
  else pure (ip, s)

/-- Discard the contents of the inode. -/
def itrunc (sb : Superblock) (s : Store) (inum : Nat) (ip : Dinode) :
    Except FsPanic (Dinode × Store) := do
  let (ip, s) ← itruncDirect sb (List.range ndirect) s ip
  let (ip, s) ← itruncTail sb s ip
  let ip := { ip with size := 0 }
  pure (ip, iupdate sb s inum ip)

section Slots

/-- The slots of an inode: the entries of `addrs` and those of the indirect block. -/
def nslots : Nat := ndirect + 1 + nindirect

/-- The block number in slot `k` of an inode, `0` if there is none. -/
def blockRef (d : Disk) (ip : Dinode) (k : Nat) : Nat :=
  if k ≤ ndirect then ip.addr k
  else if ip.addr ndirect ≠ 0 ∧ k < nslots then
    entry (d (ip.addr ndirect)) (k - (ndirect + 1))
  else 0

/-- The slot of the block at position `bn` of the file. -/
def dataSlot (bn : Nat) : Nat := if bn < ndirect then bn else bn + 1

/-- The block at position `bn` of the file. -/
def fileBlock (d : Disk) (ip : Dinode) (bn : Nat) : Nat := blockRef d ip (dataSlot bn)

variable {d d' : Disk} {ip : Dinode}

theorem blockRef_of_le {k : Nat} (hk : k ≤ ndirect) : blockRef d ip k = ip.addr k := by
  simp only [blockRef, if_pos hk]

theorem blockRef_congr (h : ip.addr ndirect ≠ 0 → d' (ip.addr ndirect) = d (ip.addr ndirect))
    (k : Nat) : blockRef d' ip k = blockRef d ip k := by
  unfold blockRef
  by_cases hind : ip.addr ndirect = 0
  · simp [hind]
  · rw [h hind]

theorem entry_setEntry {b : Block} {j v l : Nat} (hv : v < 2 ^ 32) :
    entry (setEntry b j v) l = if l = j then v else entry b l := by
  unfold entry setEntry
  by_cases h : l = j
  · subst h
    rw [if_pos rfl, getLE_setLE_same]
    exact Nat.mod_eq_of_lt hv
  · rw [if_neg h, getLE_setLE_disjoint (by omega)]

theorem entry_zero (j : Nat) : entry (fun _ => 0) j = 0 :=
  getLE_zero fun _ _ _ => rfl

theorem blockRef_setAddr_direct {k b : Nat} (hk : k < ndirect) (hb : b < 2 ^ 32) (l : Nat) :
    blockRef d (ip.setAddr k b) l = if l = k then b else blockRef d ip l := by
  have hind : (ip.setAddr k b).addr ndirect = ip.addr ndirect :=
    Dinode.addr_setAddr_of_ne (by omega)
  by_cases hlk : l = k
  · subst hlk
    rw [if_pos rfl, blockRef_of_le (by omega), Dinode.addr_setAddr_self (by omega) hb]
  · rw [if_neg hlk]
    unfold blockRef
    rw [hind, Dinode.addr_setAddr_of_ne hlk]

/-- A fresh indirect block adds its own slot only, because its entries are zero. -/
theorem blockRef_setAddr_indirect {b : Nat} (hind : ip.addr ndirect = 0) (hb : b < 2 ^ 32)
    (hzero : d b = fun _ => 0) (l : Nat) :
    blockRef d (ip.setAddr ndirect b) l = if l = ndirect then b else blockRef d ip l := by
  have hself : (ip.setAddr ndirect b).addr ndirect = b :=
    Dinode.addr_setAddr_self (le_refl _) hb
  by_cases hl : l ≤ ndirect
  · rw [blockRef_of_le hl, blockRef_of_le hl]
    by_cases hln : l = ndirect
    · rw [if_pos hln, hln, hself]
    · rw [if_neg hln, Dinode.addr_setAddr_of_ne hln]
  · rw [if_neg (by omega)]
    simp only [blockRef, if_neg hl, hself, hind, hzero, entry_zero]
    simp

/-- Storing an entry of the indirect block changes that slot only. -/
theorem blockRef_setEntry {j b : Nat} (hind : ip.addr ndirect ≠ 0) (hj : j < nindirect)
    (hb : b < 2 ^ 32) (l : Nat) :
    blockRef (update d (ip.addr ndirect) (setEntry (d (ip.addr ndirect)) j b)) ip l =
      if l = ndirect + 1 + j then b else blockRef d ip l := by
  by_cases hl : l ≤ ndirect
  · rw [blockRef_of_le hl, blockRef_of_le hl, if_neg (by omega)]
  · simp only [blockRef, if_neg hl, update_self, entry_setEntry hb]
    by_cases hlj : l = ndirect + 1 + j
    · have hn : l < nslots := by
        unfold nslots
        omega
      rw [if_pos ⟨hind, hn⟩, if_pos (by omega), if_pos hlj]
    · have hne : l - (ndirect + 1) ≠ j := by omega
      rw [if_neg hlj, if_neg hne]

end Slots

section Invariant

/-- Inode `i` of the image is allocated. -/
def Live (sb : Superblock) (view : Nat → Dinode) (i : Nat) : Prop :=
  i < sb.ninodes ∧ (view i).type ≠ 0

instance (sb : Superblock) (view : Nat → Dinode) (i : Nat) : Decidable (Live sb view i) :=
  inferInstanceAs (Decidable (_ ∧ _))

/-- The block number in a slot of an allocated inode; a slot is a pair of an inode number
and a slot number. -/
def slotRef (sb : Superblock) (d : Disk) (view : Nat → Dinode) (x : Nat × Nat) : Nat :=
  if Live sb view x.1 then blockRef d (view x.1) x.2 else 0

/-- The block allocation invariant. `view` gives the current inodes: those on disk, with the
inode an operation is working on replaced by its copy in memory. A file has no holes below
its size, or `readi` would allocate blocks that no inode on disk refers to. -/
structure AllocInv (sb : Superblock) (d : Disk) (view : Nat → Dinode) : Prop where
  accounts : Accounts (dataStart sb) sb.size (slotRef sb d view) (fun b => blockUsed sb d b = true)
  metadata : ∀ b, b < dataStart sb → b < sb.size → blockUsed sb d b = true
  size_le : ∀ i, Live sb view i → (view i).size.toNat ≤ maxfile * bsize
  dense : ∀ i, Live sb view i → ∀ bn, bn * bsize < (view i).size.toNat → fileBlock d (view i) bn ≠ 0

/-- Blocks in use stay where they are, data blocks keep their bytes, and the inodes on disk
do not change. -/
structure Keeps (sb : Superblock) (d : Disk) (view : Nat → Dinode) (d' : Disk)
    (view' : Nat → Dinode) : Prop where
  refs : ∀ x, slotRef sb d view x ≠ 0 → slotRef sb d' view' x = slotRef sb d view x
  data : ∀ i bn, slotRef sb d view (i, dataSlot bn) ≠ 0 →
    d' (slotRef sb d view (i, dataSlot bn)) = d (slotRef sb d view (i, dataSlot bn))
  dinodes : ∀ i, i < sb.ninodes → dinode sb d' i = dinode sb d i

variable {sb : Superblock} {d d' d₁ : Disk} {view view' view₁ : Nat → Dinode} {inum b k : Nat}

theorem slotRef_of_live (h : Live sb view inum) (k : Nat) :
    slotRef sb d view (inum, k) = blockRef d (view inum) k := by
  simp only [slotRef, if_pos h]

theorem Keeps.refl (sb : Superblock) (d : Disk) (view : Nat → Dinode) : Keeps sb d view d view :=
  ⟨fun _ _ => rfl, fun _ _ _ => rfl, fun _ _ => rfl⟩

theorem Keeps.trans (h : Keeps sb d view d₁ view₁) (h' : Keeps sb d₁ view₁ d' view') :
    Keeps sb d view d' view' := by
  constructor
  · intro x hx
    have h₁ := h.refs x hx
    rw [h'.refs x (by rw [h₁]; exact hx), h₁]
  · intro i bn hx
    have h₁ := h.refs _ hx
    have h₂ := h'.data i bn (by rw [h₁]; exact hx)
    rw [h₁] at h₂
    rw [h₂, h.data i bn hx]
  · intro i hi
    rw [h'.dinodes i hi, h.dinodes i hi]

theorem dataSlot_ne_ndirect (bn : Nat) : dataSlot bn ≠ ndirect := by
  unfold dataSlot
  split <;> omega

namespace Allocates

section

variable (ha : Allocates sb d d' b)

include ha

theorem dataStart_le (hi : AllocInv sb d view) : dataStart sb ≤ b := by
  by_contra hlt
  have h := hi.metadata b (by omega) ha.lt_size
  rw [ha.free] at h
  cases h

theorem apply_self : d' b = fun _ => 0 := by
  rw [ha.disk_eq, update_self]

theorem apply_of_ne {c : Nat} (hb : c ≠ b) (hm : c ≠ bblock sb b) : d' c = d c := by
  rw [ha.disk_eq, update_of_ne hb, update_of_ne hm]

theorem blockUsed_eq (hi : AllocInv sb d view) {c : Nat}
    (hc : c < sb.size) : blockUsed sb d' c = (decide (c = b) || blockUsed sb d c) := by
  have hne : bblock sb c ≠ b := by
    have h₁ := bblock_lt_dataStart hc
    have h₂ := ha.dataStart_le hi
    omega
  rw [← blockUsed_setBit]
  apply blockUsed_congr
  rw [ha.disk_eq, update_of_ne hne]

/-- Blocks that a slot refers to keep their bytes. -/
theorem apply_slotRef (hi : AllocInv sb d view) {x : Nat × Nat}
    (hx : slotRef sb d view x ≠ 0) : d' (slotRef sb d view x) = d (slotRef sb d view x) := by
  have hfree : ¬ blockUsed sb d b = true := by
    rw [ha.free]
    decide
  apply ha.apply_of_ne
  · exact hi.accounts.ref_ne_of_free (ha.dataStart_le hi) ha.lt_size hfree x
  · have h₁ := (hi.accounts.area x hx).1
    have h₂ := bblock_lt_dataStart ha.lt_size
    omega

theorem blockRef_eq (hi : AllocInv sb d view) {i : Nat}
    (hlive : Live sb view i) (l : Nat) : blockRef d' (view i) l = blockRef d (view i) l := by
  apply blockRef_congr
  intro hind
  have href : slotRef sb d view (i, ndirect) = (view i).addr ndirect := by
    rw [slotRef_of_live hlive, blockRef_of_le (le_refl _)]
  have h := @apply_slotRef _ _ _ _ _ ha hi (i, ndirect) (by rw [href]; exact hind)
  rwa [href] at h

theorem dinode_eq (hi : AllocInv sb d view) (hsb : WellFormed sb)
    {i : Nat} (hlt : i < sb.ninodes) : dinode sb d' i = dinode sb d i := by
  have h₁ := hsb.iblock_lt hlt
  have h₂ := ha.dataStart_le hi
  have h₃ := @bmapstart_lt_dataStart sb
  have h₄ := @bmapstart_le_bblock sb b
  apply dinode_congr
  exact ha.apply_of_ne (by omega) (by omega)

end

end Allocates

/-- An inode whose indirect block lies in the data area keeps its slots when the data area
does not change. -/
theorem AllocInv.blockRef_eq (hi : AllocInv sb d view) (h : ∀ c, dataStart sb ≤ c → d' c = d c)
    (i : Nat) (hlive : Live sb view i) (l : Nat) :
    blockRef d' (view i) l = blockRef d (view i) l := by
  apply blockRef_congr
  intro hind
  have href : slotRef sb d view (i, ndirect) = (view i).addr ndirect := by
    rw [slotRef_of_live hlive, blockRef_of_le (le_refl _)]
  have harea := hi.accounts.area (i, ndirect) (by rw [href]; exact hind)
  rw [href] at harea
  exact h _ harea.1

/-- The invariant depends on the disk through slots and bits only. -/
theorem AllocInv.congr (hi : AllocInv sb d view)
    (hrefs : ∀ i, Live sb view i → ∀ l, blockRef d' (view i) l = blockRef d (view i) l)
    (hbits : ∀ c, c < sb.size → blockUsed sb d' c = blockUsed sb d c) : AllocInv sb d' view := by
  constructor
  · apply hi.accounts.congr
    · intro x
      unfold slotRef
      split
      · rename_i hl
        exact hrefs x.1 hl x.2
      · rfl
    · intro b _ hsize
      rw [hbits b hsize]
  · intro b hb hsize
    rw [hbits b hsize, hi.metadata b hb hsize]
  · exact hi.size_le
  · intro i hl bn hbn
    unfold fileBlock
    rw [hrefs i hl]
    exact hi.dense i hl bn hbn

/-- Nothing below the free map matters to the invariant. -/
theorem AllocInv.congr_disk (hi : AllocInv sb d view)
    (h : ∀ c, sb.bmapstart ≤ c → d' c = d c) : AllocInv sb d' view := by
  have hds := @bmapstart_lt_dataStart sb
  apply hi.congr
  · exact hi.blockRef_eq fun c hc => h c (by omega)
  · intro c _
    exact blockUsed_congr (h _ (bmapstart_le_bblock c))

theorem iupdate_apply_of_le (hsb : WellFormed sb) {s : Store} {ip : Dinode}
    (hlt : inum < sb.ninodes) {c : Nat} (hc : sb.bmapstart ≤ c) :
    (iupdate sb s inum ip).disk c = s.disk c := by
  have h := hsb.iblock_lt hlt
  unfold iupdate
  rw [Store.write_disk, update_of_ne (by omega)]

theorem AllocInv.iupdate {s : Store} (hi : AllocInv sb s.disk view) (hsb : WellFormed sb)
    (hlt : inum < sb.ninodes) (ip : Dinode) : AllocInv sb (iupdate sb s inum ip).disk view :=
  hi.congr_disk fun _ hc => iupdate_apply_of_le hsb hlt hc

theorem iupdate_dinode (s : Store) (ip : Dinode) :
    dinode sb (iupdate sb s inum ip).disk = update (dinode sb s.disk) inum ip := by
  funext j
  by_cases hj : j = inum
  · subst hj
    rw [update_self]
    exact dinode_update_self j ip
  · rw [update_of_ne hj]
    exact dinode_update_of_ne ip hj

/-- Where the invariant holds, the block `balloc` allocates is not block `0`. -/
theorem balloc_spec {s : Store} (hi : AllocInv sb s.disk view) :
    ∃ b s', balloc sb s = (b, s') ∧
      ((b = 0 ∧ s'.disk = s.disk) ∨ (b ≠ 0 ∧ Allocates sb s.disk s'.disk b)) := by
  obtain ⟨b, s', hbal, h | ha⟩ := balloc_cases sb s
  · exact ⟨b, s', hbal, Or.inl h⟩
  · have h₁ := ha.dataStart_le hi
    have h₂ := @dataStart_pos sb
    exact ⟨b, s', hbal, Or.inr ⟨by omega, ha⟩⟩

end Invariant

end FogOS.Fs
