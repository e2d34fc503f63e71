import FogOS.Dir.Boot

/-!
# No dangling entries

The `..` of a removed directory is not counted, so its parent can be removed and
freed while the directory is still in use. As long as no directory is removed that is
the `..` of another one, and none is made in a removed directory, every entry refers
to an existing inode and the panic of `ilock` is not reached.
-/

namespace FogOS.Dir

open Library

/-- The `..` of every directory is a directory that has an entry. -/
def ParentsLinked (ino : Nat → Inode) : Prop :=
  ∀ x, (ino x).type = .dir → (ino (ino x).parent).type = .dir ∧ Attached ino (ino x).parent

/-- No directory is made in one without links, and none is removed that is the `..` of another
one. -/
def KeepsParents (ino : Nat → Inode) : Effect → Prop
  | .link _ _ _ => True
  | .create dp _ _ type => type = .dir → (ino dp).nlink ≠ 0
  | .unlink _ i _ => (ino i).type = .dir → ∀ x < ninodes, x ≠ i → (ino x).type = .dir →
      (ino x).parent ≠ i
  | .free _ => True

section Effects

variable {ino : Nat → Inode} {dp i k x : Nat} {name : Name} {ip : Inode} {n : Int}

variable (h : ParentsLinked ino) (g : Graph ino)

include h g

/-- Every entry of a directory refers to an existing inode. -/
theorem ParentsLinked.closed : Closed ino := by
  intro z d hz hd hne
  obtain ⟨p, tail, heq, -, -⟩ := g.shape hz
  have htail : (ino z).tail = tail := by simp [Inode.tail, heq]
  have hparent : (ino z).parent = p := by simp [Inode.parent, heq]
  rw [heq] at hd
  rcases List.mem_cons.mp hd with rfl | hd
  · rw [hz]
    decide
  rcases List.mem_cons.mp hd with rfl | hd
  · have hdir := (h z hz).1
    rw [hparent] at hdir
    rw [hdir]
    decide
  · intro hfree
    have hpos := linkCount_pos_of_mem (g.lt_of_dir hz).2 hz (htail ▸ hd)
    rw [g.linkCount_free hfree (by omega)] at hpos
    omega

/-- A directory with links has an entry, because it is the `..` of its children. -/
theorem ParentsLinked.attached_of_nlink
    (hdir : (ino dp).type = .dir) (hn : (ino dp).nlink ≠ 0) : Attached ino dp := by
  by_contra hdet
  have hlink : linkCount ino dp = 0 := by
    by_contra hne
    exact hdet (Or.inr (by omega))
  have hchild : childCount ino dp = 0 := by
    apply childCount_eq_zero
    rintro x hx - rfl
    exact hdet (h x hx).2
  rw [g.nlink_dir dp hdir, hlink, hchild] at hn
  exact hn rfl

omit h g in
theorem OneMore.attached {ino' : Nat → Inode} (h : OneMore ino ino' dp i) (hx : x ≠ 0)
    (ha : Attached ino x) : Attached ino' x := by
  rcases ha with hroot | hpos
  · exact Or.inl hroot
  · right
    rw [h.linkCount_eq hx]
    omega

theorem ParentsLinked.addEntry (hdp : (ino dp).type = .dir) (hleaf : (ino i).type ≠ .dir)
    (htail : ip.tail = []) (hdir : ip.type = .dir → ip.parent = dp ∧ (ino dp).nlink ≠ 0) :
    ParentsLinked (addEntry ino dp i name ip n) := by
  have hi : i ≠ dp := by
    rintro rfl
    exact hleaf hdp
  have hmore : OneMore ino (Dir.addEntry ino dp i name ip n) dp i :=
    g.oneMore hdp hi (links_leaf hleaf) fun j => by simp [Inode.links, htail]
  have hkeep : ∀ y, (ino y).type = .dir → Attached ino y →
      (Dir.addEntry ino dp i name ip n y).type = .dir ∧
        Attached (Dir.addEntry ino dp i name ip n) y := by
    intro y hy ha
    have hyi : y ≠ i := by
      rintro rfl
      exact hleaf hy
    rw [hmore.type_eq y hyi]
    exact ⟨hy, hmore.attached (g.ne_zero_of_dir hy) ha⟩
  intro x hx
  by_cases hxi : x = i
  · subst hxi
    rw [addEntry_i hi] at hx ⊢
    obtain ⟨hparent, hn⟩ := hdir hx
    rw [hparent]
    exact hkeep dp hdp (h.attached_of_nlink g hdp hn)
  · rw [hmore.type_eq x hxi] at hx
    rw [hmore.parent_eq x hxi]
    exact hkeep _ (h x hx).1 (h x hx).2

theorem ParentsLinked.unlink
    (he : (Effect.unlink dp i k).Enabled ino) (hk : KeepsParents ino (.unlink dp i k)) :
    ParentsLinked ((Effect.unlink dp i k).apply ino) := by
  have hmore := g.unlink_oneMore he
  intro x hx
  rw [unlink_type] at hx
  rw [unlink_parent he.2.1, unlink_type]
  obtain ⟨hparent, hatt⟩ := h x hx
  have hne : (ino x).parent ≠ i := by
    intro heq
    rw [heq] at hparent
    by_cases hxi : x = i
    · subst hxi
      have hdp := (g.unlink_dir_count he hx).2.2.2
      exact he.unlink_ne (heq.symm.trans hdp)
    · exact hk hparent x (g.lt_of_dir hx).2 hxi hx heq
  exact ⟨hparent, (hmore.attached_iff (g.ne_zero_of_dir hparent) hne).mp hatt⟩

theorem ParentsLinked.free
    (he : (Effect.free i).Enabled ino) : ParentsLinked ((Effect.free i).apply ino) := by
  obtain ⟨hcount, hroot⟩ := g.free_detached he
  intro x hx
  have hxi : x ≠ i := by
    rintro rfl
    rw [free_i] at hx
    cases hx
  rw [free_other hxi] at hx ⊢
  obtain ⟨hparent, hatt⟩ := h x hx
  have hne : (ino x).parent ≠ i := by
    intro heq
    rw [heq] at hatt
    have hpos := hatt.resolve_left hroot
    omega
  rw [free_other hne]
  refine ⟨hparent, ?_⟩
  rcases hatt with hr | hpos
  · exact Or.inl hr
  · right
    have hsame := g.free_linkCount he (ino x).parent
    rw [g.free_links_dir he hparent] at hsame
    omega

/-- Every effect allowed by `KeepsParents` keeps the parents linked. -/
theorem ParentsLinked.apply (e : Effect)
    (he : e.Enabled ino) (hk : KeepsParents ino e) : ParentsLinked (e.apply ino) := by
  cases e with
  | link dp i name =>
    obtain ⟨hdp, hleaf, -, -, -⟩ := he
    apply h.addEntry g hdp hleaf
    · simp [Inode.tail, (g.node i).2.2.2 hleaf]
    · exact fun hd => absurd hd hleaf
  | create dp i name type =>
    obtain ⟨hdp, hfree, -, -, -, -⟩ := he
    apply h.addEntry g hdp (by simp [hfree]) newInode_tail
    rw [newInode_type]
    rintro rfl
    exact ⟨rfl, hk rfl⟩
  | unlink dp i k => exact h.unlink g he hk
  | free i => exact h.free g he

end Effects

section Runs

/-- The path at which a call makes a directory. -/
def Call.newDir : Call → Option (List Char)
  | .mkdir path => some path
  | _ => none

/-- The path whose entry a call removes. -/
def Call.unlinked : Call → Option (List Char)
  | .unlink path => some path
  | _ => none

/-- No other directory has `..` to `i`. -/
def Childless (ino : Nat → Inode) (i : Nat) : Prop :=
  ∀ x < ninodes, x ≠ i → (ino x).type = .dir → (ino x).parent ≠ i

instance (ino : Nat → Inode) (i : Nat) : Decidable (Childless ino i) :=
  inferInstanceAs (Decidable (∀ _ < _, _))

/-- The call makes no directory in one without links, removes no directory that is the `..` of
another one, and makes no link too many. -/
def LeavesNoOrphan (s : Sys) : Fin nproc × Call → Prop
  | (p, c) => ∀ pr ∈ s.procs p,
      (∀ path ∈ c.newDir, ∀ r ∈ walk s.tree.inodes pr.cwd path true,
        (s.tree.inodes r.1).nlink ≠ 0) ∧
      (∀ path ∈ c.unlinked, ∀ r ∈ walk s.tree.inodes pr.cwd path true,
        ∀ q ∈ findName r.2 (s.tree.inodes r.1).dirents,
          (s.tree.inodes q.1).type = .dir → Childless s.tree.inodes q.1) ∧
      LinkFits s pr c

instance (s : Sys) (a : Fin nproc × Call) : Decidable (LeavesNoOrphan s a) :=
  inferInstanceAs (Decidable (∀ _ ∈ _, _))

theorem LeavesNoOrphan.meets {s : Sys} {a : Fin nproc × Call} (h : LeavesNoOrphan s a) :
    StepMeets KeepsParents s a := by
  obtain ⟨p, c⟩ := a
  intro pr hp
  obtain ⟨hnew, hun, hfits⟩ := h pr hp
  cases c with
  | «open» path omode => exact fun _ _ _ _ _ hd => by cases hd
  | mkdir path => exact fun dp name i hwalk _ => hnew path rfl (dp, name) hwalk
  | mknod path major minor => exact fun _ _ _ _ hd => by cases hd
  | link old new =>
    exact ⟨fun i name hwalk => hfits old rfl (i, name) hwalk, fun _ _ _ _ => trivial⟩
  | unlink path =>
    intro dp name i k hwalk hfind hdir
    exact hun path rfl (dp, name) hwalk (i, k) hfind hdir
  | chdir path => trivial
  | close fd => trivial
  | exit => trivial
  | fork => trivial

/-- The inodes that some process can name: from the root, from its current directory, and
through entries of directories that can be named. -/
inductive Nameable (s : Sys) : Nat → Prop
  | root : Nameable s rootino
  | cwd {p : Fin nproc} {pr : Proc} (h : s.procs p = some pr) : Nameable s pr.cwd
  | entry {z : Nat} {d : Dirent} (hz : Nameable s z) (hdir : (s.tree.inodes z).type = .dir)
      (hd : d ∈ (s.tree.inodes z).dirents) (hne : d.inum ≠ 0) : Nameable s d.inum

theorem Image.parentsLinked (im : Image) : ParentsLinked im.inodes := by
  intro x hx
  obtain rfl := Image.dir_iff.mp hx
  exact ⟨hx, Or.inl rfl⟩

/-- In every run that leaves no directory without its parent, no entry dangles and the panic
of `ilock` is not reached. -/
theorem no_dangling_without_orphans (im : Image) (refusals : List Bool)
    (ops : List (Fin nproc × Call))
    (hguard : Guarded Sys.step LeavesNoOrphan (im.boot refusals) ops) :
    run Sys.step (im.boot refusals) ops ≠ .error .ilockNoType ∧
    ∀ s, run Sys.step (im.boot refusals) ops = .ok s →
      ∀ z d, Nameable s z → d ∈ (s.tree.inodes z).dirents → d.inum ≠ 0 →
        (s.tree.inodes d.inum).type ≠ .free := by
  have hkeep : ∀ (s : Sys) a s', s.Ok ∧ ParentsLinked s.tree.inodes → LeavesNoOrphan s a →
      s.step a = .ok s' → s'.Ok ∧ ParentsLinked s'.tree.inodes := by
    rintro s a s' ⟨hok, hlinked⟩ hg hstep
    obtain ⟨hok', hev⟩ := step_ok hok (fun _ _ => trivial) hg.meets hstep
    exact ⟨hok', (hev.preserves hok.tree.graph hlinked fun _ e g h => h.apply g e).2⟩
  have hsafe : ∀ (s : Sys) a, s.Ok ∧ ParentsLinked s.tree.inodes → LeavesNoOrphan s a →
      s.step a ≠ .error .ilockNoType := by
    rintro s a ⟨hok, hlinked⟩ hg
    exact step_noType hok (fun _ _ => trivial) hg.meets (hlinked.closed hok.tree.graph)
  have hboot : (im.boot refusals).Ok ∧ ParentsLinked (im.boot refusals).tree.inodes :=
    ⟨im.boot_ok refusals, im.parentsLinked⟩
  refine ⟨run_ne_error hkeep hsafe hboot hguard, ?_⟩
  intro s hrun z d _ hd hne
  obtain ⟨hok, hlinked⟩ := run_invariant hkeep hboot hguard hrun
  have hdir : (s.tree.inodes z).type = .dir := by
    by_contra hleaf
    rw [(hok.tree.graph.node z).2.2.2 hleaf] at hd
    cases hd
  exact hlinked.closed hok.tree.graph z d hdir hd hne

/-- Make two directories, stay in the inner one, and remove it. -/
def removeCwd : List (Fin nproc × Call) :=
  [(initproc, .mkdir ['a']), (initproc, .mkdir ['a', '/', 'b']),
    (initproc, .chdir ['a', '/', 'b']), (initproc, .unlink ['/', 'a', '/', 'b'])]

theorem no_dangling_removeCwd :
    run Sys.step (emptyImage.boot []) removeCwd ≠ .error .ilockNoType ∧
    ∀ s, run Sys.step (emptyImage.boot []) removeCwd = .ok s →
      ∀ z d, Nameable s z → d ∈ (s.tree.inodes z).dirents → d.inum ≠ 0 →
        (s.tree.inodes d.inum).type ≠ .free :=
  no_dangling_without_orphans emptyImage [] removeCwd (by decide +kernel)

/-- The inner directory is removed while it is the current directory, and then the outer one. -/
def removeParent : List (Fin nproc × Call) := removeCwd ++ [(initproc, .unlink ['/', 'a'])]

/-- The `..` of the current directory refers to a free inode, and following it is a panic. -/
theorem dotdot_dangles_after_removeParent :
    (∃ s, run Sys.step (emptyImage.boot []) removeParent = .ok s ∧
      ∃ z d, Nameable s z ∧ d ∈ (s.tree.inodes z).dirents ∧ d.inum ≠ 0 ∧
        (s.tree.inodes d.inum).type = .free) ∧
    run Sys.step (emptyImage.boot []) (removeParent ++ [(initproc, .chdir dotdot)]) =
      .error .ilockNoType := by
  refine ⟨?_, by decide +kernel⟩
  have hcwd : Ends (fun s => (s.procs initproc).map Proc.cwd = some 3)
      (run Sys.step (emptyImage.boot []) removeParent) := by decide +kernel
  have hentry : Ends (fun s => ⟨2, dotdot⟩ ∈ (s.tree.inodes 3).dirents)
      (run Sys.step (emptyImage.boot []) removeParent) := by decide +kernel
  have hfree : Ends (fun s => (s.tree.inodes 2).type = .free)
      (run Sys.step (emptyImage.boot []) removeParent) := by decide +kernel
  obtain ⟨s, hrun, hpr⟩ := hcwd.exists
  obtain ⟨pr, hproc, hthree⟩ := Option.map_eq_some_iff.mp hpr
  refine ⟨s, hrun, 3, ⟨2, dotdot⟩, ?_, hentry.of_ok hrun, by decide, hfree.of_ok hrun⟩
  rw [← hthree]
  exact .cwd hproc

end Runs

end FogOS.Dir
