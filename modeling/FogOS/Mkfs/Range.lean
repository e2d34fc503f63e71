import FogOS.Mkfs.Agree

/-!
# What `mkfs` refers to

Files that are too large for the image make `mkfs` stop. The number of the files is not
checked: `ialloc` hands out inode numbers without looking at `sb.ninodes`.
-/

namespace FogOS.Mkfs

open Function Library Bytes Fs Dirent List

section InRange

variable {st : State} {root : List UInt8} {files : List (UInt16 × List UInt8)}

/-- The inodes that are not allocated have no block. -/
theorem Built.blockRef_range (b : Built st root files) {i k : Nat} (hi : i < sb.ninodes)
    (hne : blockRef (image st) (dinode sb (image st) i) k ≠ 0) :
    nmeta ≤ blockRef (image st) (dinode sb (image st) i) k ∧
      blockRef (image st) (dinode sb (image st) i) k < sb.size := by
  by_cases hl : Live sb (node st) i
  · have hslot : slotRef sb (shadow st) (node st) (i, k) = blockRef (shadow st) (node st i) k :=
      if_pos hl
    rw [b.blockRef_image hl, ← hslot] at hne ⊢
    exact b.inv.accounts.area (i, k) hne
  · have hfree : i = 0 ∨ 1 + ((tDir, root) :: files).length ≤ i := by
      by_contra hused
      obtain ⟨j, rfl⟩ : ∃ j, i = 1 + j := ⟨i - 1, by omega⟩
      exact hl (b.live (getElem?_eq_getElem (show j < _ by omega)))
    have hroot : i ≠ Dir.rootino := fun h => hl (h ▸ b.live_root)
    rw [dinode_image, update_of_ne hroot, b.free i hi hfree] at hne
    simp [blockRef, Dinode.addr, Dinode.zero] at hne

/-- A file without a byte. -/
def emptyFile : HostFile where
  arg := [120]
  chunks := []
  arg_ne_zero := by decide
  chunks_read := by decide

end InRange

section TooMany

theorem addFiles_append (fs gs : List HostFile) (st : State) :
    addFiles (fs ++ gs) st = addFiles fs st >>= addFiles gs := by
  induction fs generalizing st with
  | nil => rfl
  | cons f fs ih =>
    rw [cons_append, addFiles, addFiles]
    cases addFile f st with
    | ok st' => exact ih st'
    | error e => rfl

theorem build_append (fs gs : List HostFile) : build (fs ++ gs) = build fs >>= addFiles gs := by
  simp only [build, addFiles_append]
  split
  · rfl
  · simp only [bind_assoc]

theorem fits_replicate {n : Nat} (hinodes : n + 1 ≤ ninodes - 1)
    (hroot : nmeta + held (direntSize * (2 + n)) ≤ fssize) : Fits (List.replicate n emptyFile) := by
  have hempty : heldAll (List.replicate n []) = 0 := by simp [heldAll, held, bsize]
  refine ⟨by rwa [length_replicate], forall_mem_replicate.mpr (.inr (by decide)), ?_⟩
  rw [imageBlocks, length_replicate, map_replicate, show emptyFile.bytes = [] from rfl, hempty]
  exact hroot

/-- As many empty files as there are inodes for. -/
theorem build_full : ∃ st, build (List.replicate 198 emptyFile) = .ok st ∧
    Built st (rootBytes (List.replicate 198 emptyFile)) (List.replicate 198 (tFile, [])) := by
  have hfits : Fits (List.replicate 198 emptyFile) := fits_replicate (by decide) (by decide)
  obtain ⟨st, hbuild, b⟩ := (build_spec hfits.inodes).exists
    ⟨forall_mem_replicate.mpr (.inr (by decide)), hfits.sizes, hfits.blocks⟩
  rw [map_replicate] at b
  exact ⟨st, hbuild, b⟩

theorem length_rootBytes (fs : List HostFile) :
    (rootBytes fs).length = direntSize * (fs.length + 2) := by
  rw [rootBytes_eq, length_encode, length_entries]

/-- One more file: the inode after the last one is written, and its number gets into the root
directory. -/
theorem addFile_past {st : State}
    (b : Built st (rootBytes (List.replicate 198 emptyFile)) (List.replicate 198 (tFile, []))) :
    ∃ st', addFile emptyFile st = .ok st' ∧ st'.freeinode = 201 ∧ st'.freeblock ≤ sb.size ∧
      node st' 200 = fresh tFile := by
  have hfree : st.freeinode = 200 := by
    rw [b.freeinode, length_cons, length_replicate]
  have ha := ialloc_spec b.inv b.room (by rw [hfree]; decide)
    (by rw [hfree]; exact fun hl => absurd hl.1 (by decide)) tFile
  have hnodes := ha.nodes
  rw [hfree] at hnodes
  have hroot : node (ialloc tFile st).2 Dir.rootino = node st Dir.rootino := by
    rw [hnodes, update_of_ne (by decide)]
  have hlen : (rootBytes (List.replicate 198 emptyFile)).length = 3200 := by
    rw [length_rootBytes, length_replicate]
    rfl
  have hsize : (node st Dir.rootino).size.toNat = 3200 := (b.size (k := 0) rfl).trans hlen
  have hfilled := b.rootFilled
  rw [hlen] at hfilled
  have hheld : held (3200 + direntSize) = held 3200 := by decide
  have happend := @iappend_spec (ialloc tFile st).2 Dir.rootino
    (record 200 (ofList (shortname emptyFile.arg))) ha.inv
    ⟨by decide, by rw [hroot]; exact b.live_root.2⟩ ha.room (by
      rw [hroot, hsize]
      exact hfilled.of_direct (by decide)) b.fits
  rw [hroot, hsize, length_record, hheld] at happend
  obtain ⟨st', hst', hap⟩ := happend.exists ⟨by decide, Nat.add_le_add_right b.fits _⟩
  have hcount := hap.count
  rw [hroot, hsize, length_record, hheld] at hcount
  refine ⟨st', ?_, ?_, ?_, ?_⟩
  · have hinum : (ialloc tFile st).1 = 200 := hfree
    rw [addFile, if_neg (by decide)]
    simp only [hinum, hst']
    rfl
  · rw [hap.freeinode]
    show st.freeinode + 1 = 201
    rw [hfree]
  · rw [Nat.add_right_cancel hcount]
    exact b.fits
  · have hlow := hap.low (iblock sb 200) (by decide) (by decide)
    rw [← shadow_inode (by decide), ← shadow_inode (by decide)] at hlow
    rw [node, dinode_congr hlow]
    exact (congrFun hnodes 200).trans (update_self _ _ _)

end TooMany

section Root

variable {st : State} {root : List UInt8} {files : List (UInt16 × List UInt8)}

/-- The image meets the kernel's invariant if the entries of the root directory do not end at the
end of a block. -/
theorem Built.image_allocInv (b : Built st root files) (hroot : root.length ≤ ndirect * bsize)
    (hround : root.length % bsize ≠ 0) : AllocInv sb (image st) (dinode sb (image st)) := by
  have hbound : ndirect * bsize = 12288 := by decide
  have hmax : maxfile * bsize = 274432 := by decide
  have hbs : bsize = 1024 := rfl
  have hself : dinode sb (image st) Dir.rootino = rootNode st := by rw [dinode_image, update_self]
  have hsize := b.rootNode_size hroot
  have hother : ∀ i, i ≠ Dir.rootino → dinode sb (image st) i = node st i := fun i hi => by
    rw [dinode_image, update_of_ne hi]
  constructor
  case accounts =>
    rw [show slotRef sb (image st) (dinode sb (image st)) = _ from funext b.slotRef_image]
    exact b.inv.accounts.congr (fun _ => rfl) fun c _ _ => by
      rw [blockUsed_congr (image_data (bmapstart_le_bblock c))]
  case metadata =>
    intro c hc hlt
    exact b.inv.metadata c hc hlt
  case size_le =>
    intro i hl
    by_cases hi : i = Dir.rootino
    · rw [hi, hself, hsize, hmax, hbs]
      omega
    · rw [hother i hi]
      exact b.inv.size_le i ((live_image i).mp hl)
  case dense =>
    intro i hl bn hbn
    by_cases hi : i = Dir.rootino
    · rw [hi, hself, hsize] at hbn
      rw [hi, hself]
      refine (b.rootBlocks hroot).2.1 bn ?_
      rw [hbs] at hbn hround ⊢
      omega
    · have hl := (live_image i).mp hl
      rw [fileBlock, b.blockRef_image hl]
      rw [hother i hi] at hbn
      exact b.inv.dense i hl bn hbn

end Root

end FogOS.Mkfs
