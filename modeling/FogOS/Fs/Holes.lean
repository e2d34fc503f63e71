import FogOS.Fs.Invariant

/-!
# Files have no holes

`bmap` allocates a block where a file has none, for readers as well as for writers. The allocation
invariant leaves no hole below the size of a file, so that a read changes nothing and logs
nothing. It needs more than the absence of holes: where two files share a block, writing to one
can make a hole in the other.
-/

namespace FogOS.Fs

open Function Library Bytes

/-- Every position below the end of the file has a block. -/
def HoleFree (d : Disk) (ip : Dinode) : Prop :=
  ∀ bn, bn * bsize < ip.size.toNat → fileBlock d ip bn ≠ 0

section Runs

variable {sb : Superblock} {store : Store}

/-- No run makes a hole in a file, and a read of a locked inode leaves the disk and the log as they
are. -/
theorem files_have_no_holes (hsb : WellFormed sb)
    (himage : AllocInv sb store.disk (dinode sb store.disk)) (ops : List (FsOp sb))
    (hops : Guarded FsState.step FsState.Holds (FsState.boot store) ops) {st : FsState}
    (hrun : run FsState.step (FsState.boot store) ops = .ok st) :
    (∀ i, Live sb (dinode sb st.store.disk) i →
      HoleFree st.store.disk (dinode sb st.store.disk i)) ∧
    ∀ k st', st.ilock sb k = .ok st' → ∀ fault off n, ∃ r bytes,
      readi sb st'.store (st'.table k).ip fault off n =
        .ok (r, bytes, (st'.table k).ip, st'.store) := by
  have hinv : st.Inv sb := run_invariant (fun _ _ _ hi hop heq => hi.step_ok hsb hop heq)
    (FsState.boot_inv himage) hops hrun
  refine ⟨fun i hi => hinv.alloc.dense i hi, fun k st' hlock fault off n => ?_⟩
  obtain ⟨st₁, heq, hlocked⟩ | heq | heq := hinv.ilock_safe k
  · rw [hlock] at heq
    cases heq
    exact hlocked.readi_eq fault off n
  · rw [hlock] at heq
    cases heq
  · rw [hlock] at heq
    cases heq

/-- A file that is created and written on an empty image. -/
theorem files_have_no_holes_create : ∃ st, run FsState.step
      (FsState.boot ⟨formatted mkfsSuperblock (dataStart mkfsSuperblock), [], []⟩)
      [(.alloc 2 : FsOp mkfsSuperblock), .write ⟨0, by decide⟩ ⟨fun _ => 7, none⟩ 0 3] = .ok st ∧
    ∀ i, Live mkfsSuperblock (dinode mkfsSuperblock st.store.disk) i →
      HoleFree st.store.disk (dinode mkfsSuperblock st.store.disk i) := by
  obtain ⟨st, hrun, -⟩ := (show Ends (fun _ => True) (run FsState.step
      (FsState.boot ⟨formatted mkfsSuperblock (dataStart mkfsSuperblock), [], []⟩)
      [(.alloc 2 : FsOp mkfsSuperblock), .write ⟨0, by decide⟩ ⟨fun _ => 7, none⟩ 0 3]) by
    decide +kernel).exists
  refine ⟨st, hrun, (files_have_no_holes mkfsSuperblock_wellFormed
    (formatted_allocInv mkfsSuperblock_wellFormed (by decide)) _ ?_ hrun).1⟩
  exact ⟨trivial, fun _ _ => ⟨trivial, fun _ _ => trivial⟩⟩

end Runs

section Shared

/-- A file of one block. -/
def shortFile : Dinode := ⟨2, 0, 0, 1, 1024, fun k => if k.val = 0 then 46 else 0⟩

/-- A file of thirteen blocks, whose indirect block is the block of `shortFile`. -/
def longFile : Dinode :=
  ⟨2, 0, 0, 1, 13312, fun k => if k.val = 12 then 46 else UInt32.ofNat (50 + k.val)⟩

/-- An image with these two files. -/
def sharedImage : Store :=
  iupdate mkfsSuperblock (iupdate mkfsSuperblock
    ⟨update (formatted mkfsSuperblock 70) 46 (setEntry (fun _ => 0) 0 62), [], []⟩ 1 shortFile)
    2 longFile

/-- Neither file has a hole, but writing zeros to the short one makes a hole in the long one. -/
theorem shared_block_makes_hole :
    HoleFree sharedImage.disk (dinode mkfsSuperblock sharedImage.disk 1) ∧
    HoleFree sharedImage.disk (dinode mkfsSuperblock sharedImage.disk 2) ∧
    (∀ i, i < ninodes → i ≠ 1 → i ≠ 2 → dinode mkfsSuperblock sharedImage.disk i = Dinode.zero) ∧
    ∃ st, run FsState.step (FsState.boot sharedImage) [(.get ⟨1, by decide⟩ : FsOp mkfsSuperblock),
        .write ⟨0, by decide⟩ ⟨fun _ => 0, none⟩ 0 4] = .ok st ∧
      ¬ HoleFree st.store.disk (dinode mkfsSuperblock st.store.disk 2) := by
  have hshort : dinode mkfsSuperblock sharedImage.disk 1 = shortFile := by
    rw [sharedImage, iupdate_dinode, iupdate_dinode]
    rfl
  have hlong : dinode mkfsSuperblock sharedImage.disk 2 = longFile := by
    rw [sharedImage, iupdate_dinode]
    rfl
  refine ⟨?_, ?_, ?_, ?_⟩
  · rw [hshort]
    intro bn hbn
    obtain rfl : bn = 0 := by
      have hlt : bn * 1024 < 1024 := hbn
      omega
    decide
  · rw [hlong]
    intro bn hbn
    have hlt : bn < 13 := by
      have hlt : bn * 1024 < 13312 := hbn
      omega
    clear hbn
    revert bn
    decide +kernel
  · intro i hi hone htwo
    have hlt := mkfsSuperblock_wellFormed.iblock_lt hi
    have hne : iblock mkfsSuperblock i ≠ 46 :=
      Nat.ne_of_lt (lt_of_lt_of_le hlt (by decide))
    rw [sharedImage, iupdate_dinode, iupdate_dinode, update_of_ne htwo, update_of_ne hone,
      dinode_congr (update_of_ne hne _ _), dinode_formatted mkfsSuperblock_wellFormed 70 hi]
  · obtain ⟨st, hrun, hhole⟩ := (show Ends (fun st : FsState =>
        fileBlock st.store.disk (dinode mkfsSuperblock st.store.disk 2) 12 = 0 ∧
          12 * bsize < (dinode mkfsSuperblock st.store.disk 2).size.toNat)
        (run FsState.step (FsState.boot sharedImage) [(.get ⟨1, by decide⟩ : FsOp mkfsSuperblock),
          .write ⟨0, by decide⟩ ⟨fun _ => 0, none⟩ 0 4]) by decide +kernel).exists
    exact ⟨st, hrun, fun hfree => hfree 12 hhole.2 hhole.1⟩

end Shared

end FogOS.Fs
