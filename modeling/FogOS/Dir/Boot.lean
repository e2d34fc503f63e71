import FogOS.Dir.System

/-!
# The image that `mkfs` builds

The root directory has one entry for each file, and each file has one link.
-/

namespace FogOS.Dir

open Library List Image Inode

variable {im : Image} {j : Nat}

/-- The entries for files in the root directory, in the order of the arguments of `mkfs`. -/
def Image.fileDirents (im : Image) : List Dirent :=
  im.names.zipIdx.map fun (n, k) => ⟨rootino + 1 + k, n.take dirsiz⟩

/-- The root directory: two entries, those of the files, and empty slots. -/
theorem Image.rootDirents_eq (im : Image) : ∃ n, im.rootDirents =
    ⟨rootino, dot⟩ :: ⟨rootino, dotdot⟩ :: (im.fileDirents ++ List.replicate n ⟨0, []⟩) :=
  ⟨_, rfl⟩

theorem Image.inodes_root (im : Image) : im.inodes rootino = ⟨.dir, 1, im.rootDirents⟩ := if_pos rfl

theorem Image.dir_iff {x : Nat} : (im.inodes x).type = .dir ↔ x = rootino := by
  unfold inodes
  split
  · simp [*]
  · split <;> simp [zero, *]

theorem countP_numbered (names : List Name) (base m j : Nat) :
    ((names.zipIdx m).map fun (n, k) => (⟨base + k, n.take dirsiz⟩ : Dirent)).countP
      (fun d => j = d.inum) = if base + m ≤ j ∧ j < base + m + names.length then 1 else 0 := by
  induction names generalizing m with
  | nil => simp
  | cons n names ih =>
    rw [zipIdx_cons, map_cons, countP_cons, ih]
    simp only [length_cons, decide_eq_true_eq]
    split <;> split <;> split <;> omega

/-- Each file has one entry. -/
theorem Image.countP_rootTail (im : Image) (hj : j ≠ 0) :
    (im.inodes rootino).tail.countP (fun d => j = d.inum) =
      if rootino < j ∧ j < rootino + 1 + im.names.length then 1 else 0 := by
  obtain ⟨n, hn⟩ := im.rootDirents_eq
  rw [inodes_root, Inode.tail, hn]
  simp only [drop_succ_cons, drop_zero, countP_append, countP_replicate]
  rw [fileDirents, countP_numbered]
  simp only [decide_eq_true_eq, hj, if_false]
  split <;> split <;> omega

theorem Image.linkCount (im : Image) (hj : j ≠ 0) :
    linkCount im.inodes j = if rootino < j ∧ j < rootino + 1 + im.names.length then 1 else 0 := by
  have hzero : ∀ x, x ≠ rootino → (im.inodes x).links j = 0 := by
    intro x hx
    exact links_leaf (mt dir_iff.mp hx) j
  have hroot : (im.inodes rootino).links j =
      if rootino < j ∧ j < rootino + 1 + im.names.length then 1 else 0 := by
    unfold links
    rw [if_pos (dir_iff.mpr rfl), im.countP_rootTail hj]
  have hsum := @linkCount_change (fun _ => zero) im.inodes rootino j (by decide) (by
    intro y hy
    rw [hzero y hy]
    rfl)
  have hnone : Dir.linkCount (fun _ => zero) j = 0 := by
    unfold Dir.linkCount
    exact Finset.sum_eq_zero fun _ _ => rfl
  have hlinks : zero.links j = 0 := rfl
  omega

theorem Image.root_parent (im : Image) : (im.inodes rootino).parent = rootino := by
  rfl

/-- The root is the only directory, and its own parent. -/
theorem Image.childCount (im : Image) : childCount im.inodes j = if j = rootino then 1 else 0 := by
  have hchange := @childCount_change (fun _ => zero) im.inodes rootino j (by decide) (by
    intro y hy
    simp [childAt, dir_iff, hy, zero])
  have hnone : Dir.childCount (fun _ => zero) j = 0 := by
    unfold Dir.childCount
    exact Finset.sum_eq_zero fun x _ => by simp [childAt, zero]
  have hold : childAt (fun _ => zero) j rootino = 0 := by simp [childAt, zero]
  have hnew : childAt im.inodes j rootino = if j = rootino then 1 else 0 := by
    have hdir : (im.inodes rootino).type = .dir := dir_iff.mpr rfl
    have hatt : Attached im.inodes rootino := Or.inl rfl
    simp [childAt, hdir, hatt, im.root_parent, eq_comm]
  omega

theorem Image.nlink_leaf (im : Image) (hj : 0 < j) (hleaf : (im.inodes j).type ≠ .dir) :
    (im.inodes j).nlink = Dir.linkCount im.inodes j := by
  have hroot : j ≠ rootino := mt dir_iff.mpr hleaf
  rw [im.linkCount (by omega)]
  unfold inodes
  rw [if_neg hroot]
  split <;> rfl

theorem Image.shape (im : Image) : DirShape rootino (im.inodes rootino) := by
  obtain ⟨n, hn⟩ := im.rootDirents_eq
  refine ⟨rootino, _, by rw [inodes_root, hn], by decide, ?_⟩
  intro d hd hne
  rcases mem_append.mp hd with hd | hd
  · obtain ⟨⟨name, k⟩, hmem, rfl⟩ := mem_map.mp hd
    exact im.names_ok name (fst_mem_of_mem_zipIdx hmem)
  · rw [eq_of_mem_replicate hd] at hne
    exact absurd rfl hne

theorem Image.node (im : Image) (i : Nat) : NodeOk i (im.inodes i) := by
  have hfits := im.fits
  refine ⟨?_, ?_, ?_, ?_⟩
  · unfold inodes
    split
    · simp
    · split <;> simp
  · unfold inodes
    split
    · rename_i h
      rw [h]
      exact fun _ => by decide
    · split
      · rename_i h
        simp only [rootino] at h
        omega
      · exact fun h => absurd rfl h
  · intro h
    obtain rfl := dir_iff.mp h
    exact im.shape
  · intro h
    unfold inodes
    rw [if_neg (mt dir_iff.mpr h)]
    split <;> rfl

theorem Image.graph (im : Image) : Graph im.inodes := by
  have hlink := fun j hj => im.linkCount (j := j) hj
  refine ⟨?_, dir_iff.mpr rfl, ?_, ?_, ?_, ?_, ?_, ?_⟩
  · exact im.node
  · exact im.root_parent
  · rw [hlink _ (by decide), if_neg (by simp)]
  · intro j hj
    obtain rfl := dir_iff.mp hj
    rw [hlink _ (by decide), im.childCount, inodes_root]
    simp
  · intro j hj hleaf
    rw [im.nlink_leaf hj hleaf, hlink j (by omega)]
    split <;> simp
  · intro j hj
    obtain rfl := dir_iff.mp hj
    rw [hlink _ (by decide)]
    simp
  · intro z d hz hd hdir
    obtain rfl := dir_iff.mp hz
    rw [dir_iff.mp hdir]
    exact im.root_parent

/-- An image without files. -/
def emptyImage : Image := ⟨[], by simp, by decide⟩

/-- The state after boot satisfies the invariant of every call. -/
theorem Image.boot_ok (im : Image) (refusals : List Bool) : (im.boot refusals).Ok := by
  have hroot : (im.inodes rootino).nlink = 1 := by rw [im.inodes_root]
  have href : ∀ i, (im.boot refusals).tree.ref i = if i = rootino then 1 else 0 := by
    simp [boot, Function.update_apply]
  have hlinks : ∀ i, (im.inodes i).type ≠ .free → (im.inodes i).nlink ≠ 0 := by
    intro i hi hzero
    unfold inodes at hi hzero
    split at hzero
    · cases hzero
    · split at hzero
      · cases hzero
      · simp_all [zero]
  refine ⟨⟨⟨by simp [boot, im.inodes_root], ?_, ?_, ?_⟩, im.graph⟩, ?_, ?_, ?_⟩
  · intro i hi hzero
    exact absurd hzero (hlinks i hi)
  · intro i hi
    rw [href] at hi
    have heq : i = rootino := by
      by_contra hne
      rw [if_neg hne] at hi
      omega
    have hdir : (im.inodes i).type = .dir := dir_iff.mpr heq
    show (im.inodes i).type ≠ .free
    rw [hdir]
    decide
  · intro i hi hzero
    rw [href] at hi
    have heq : i = rootino := by
      by_contra hne
      rw [if_neg hne] at hi
      omega
    subst heq
    have hzero' : (im.inodes rootino).nlink = 0 := hzero
    omega
  · intro i
    have hfiles : ∑ f, fileAt ((im.boot refusals).files f) i = 0 :=
      Finset.sum_eq_zero fun _ _ => fileAt_zero none i
    have hprocs : ∑ p, cwdAt ((im.boot refusals).procs p) i = if i = rootino then 1 else 0 := by
      rw [Finset.sum_eq_single initproc (fun p _ hp => by simp [boot, hp, cwdAt]) (by simp)]
      simp [boot, cwdAt, eq_comm]
    rw [href, holders, hprocs, hfiles, add_zero]
  · intro f
    symm
    apply Finset.sum_eq_zero
    intro p _
    by_cases hp : p = initproc
    · simp [boot, hp, descriptors]
    · simp [boot, hp, descriptors]
  · intro f _
    rfl

end FogOS.Dir
