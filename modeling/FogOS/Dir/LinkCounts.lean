import FogOS.Dir.Boot

/-!
# Exact link counts

As long as no call makes an entry in a directory that has been removed, every count
is exact: a removed directory stays empty, and every inode that has an entry is
reached from the root. Then nothing is lost when all files are closed and all current
directories are the root.
-/

namespace FogOS.Dir

open Library List

/-- The inodes reached from the root by entries other than `.` and `..`. -/
inductive DownReach (ino : Nat → Inode) : Nat → Prop
  | root : DownReach ino rootino
  | entry {z : Nat} {d : Dirent} (hz : DownReach ino z) (hdir : (ino z).type = .dir)
      (hd : d ∈ (ino z).tail) (hne : d.inum ≠ 0) : DownReach ino d.inum

/-- Leaves have one link per entry, removed directories are empty, and what has an entry is
reached from the root. -/
structure Exact (ino : Nat → Inode) : Prop where
  leaf : ∀ j, 0 < j → (ino j).type ≠ .dir → (ino j).nlink = linkCount ino j
  detached : ∀ z, (ino z).type = .dir → ¬ Attached ino z → ∀ d, d ∈ (ino z).tail → d.inum = 0
  down : ∀ x, x ≠ 0 → Attached ino x → DownReach ino x

/-- No entry is made in a directory without links. -/
def KeepsExact (ino : Nat → Inode) : Effect → Prop
  | .link dp _ _ => (ino dp).nlink ≠ 0
  | .create dp _ _ _ => (ino dp).nlink ≠ 0
  | .unlink _ _ _ => True
  | .free _ => True

section Add

variable {ino : Nat → Inode} {dp i x : Nat} {name : Name} {ip : Inode} {n : Int}

/-- A directory with links has an entry, because removed directories have no children. -/
theorem Exact.attached_of_nlink (ex : Exact ino) (g : Graph ino) (hdir : (ino dp).type = .dir)
    (h : (ino dp).nlink ≠ 0) : Attached ino dp := by
  by_contra hdet
  have hroot : dp ≠ rootino := fun hr => hdet (Or.inl hr)
  have hlink : linkCount ino dp = 0 := by
    by_contra hne
    exact hdet (Or.inr (by omega))
  have hchild := g.childCount_empty hroot (ex.detached dp hdir hdet)
  rw [g.nlink_dir dp hdir, hlink, hchild] at h
  exact h rfl

/-- Adding an entry keeps what is reached from the root. -/
theorem Graph.addEntry_down (g : Graph ino) (hdp : (ino dp).type = .dir) (hi : i ≠ dp)
    (hleaf : (ino i).type ≠ .dir) (h : DownReach ino x) :
    DownReach (Dir.addEntry ino dp i name ip n) x := by
  induction h with
  | root => exact .root
  | @entry z d hz hdir hd hne ih =>
    have hzi : z ≠ i := by
      rintro rfl
      exact hleaf hdir
    by_cases hzd : z = dp
    · subst hzd
      refine .entry ih ?_ ?_ hne
      · rw [addEntry_dp]
        exact hdp
      · rw [addEntry_dp]
        have hmem : d ∈ ((ino z).withEntry ⟨i, name⟩).tail := by
          rw [(g.shape hdp).withEntry_tail (g.ne_zero_of_dir hdp)]
          exact mem_putDirent_of_mem hd hne
        exact hmem
    · refine .entry ih ?_ ?_ hne
      · rw [addEntry_other hzd hzi]
        exact hdir
      · rw [addEntry_other hzd hzi]
        exact hd

theorem Exact.addEntry (ex : Exact ino) (g : Graph ino) (hdp : (ino dp).type = .dir)
    (hn : (ino dp).nlink ≠ 0) (hleaf : (ino i).type ≠ .dir) (hpos : 0 < i) (htail : ip.tail = [])
    (hnlink : ip.nlink = (ino i).nlink + 1) : Exact (addEntry ino dp i name ip n) := by
  have hi : i ≠ dp := by
    rintro rfl
    exact hleaf hdp
  have hself : Dir.addEntry ino dp i name ip n i = ip := addEntry_i hi
  have hmore : OneMore ino (Dir.addEntry ino dp i name ip n) dp i :=
    g.oneMore hdp hi (links_leaf hleaf) fun j => by simp [Inode.links, htail]
  have hatt : Attached ino dp := ex.attached_of_nlink g hdp hn
  have hdp0 := g.ne_zero_of_dir hdp
  refine ⟨?_, ?_, ?_⟩
  · intro j hj0 hj
    by_cases hji : j = i
    · subst hji
      rw [hself, hmore.linkCount_eq (by omega), if_pos rfl, hnlink, ex.leaf j hj0 hleaf]
      rfl
    · rw [hmore.type_eq j hji] at hj
      have hjd : j ≠ dp := by
        rintro rfl
        exact hj hdp
      rw [addEntry_other hjd hji, hmore.linkCount_eq (by omega), if_neg hji, add_zero]
      exact ex.leaf j hj0 hj
  · intro z hz hdet
    have hzi : z ≠ i := by
      rintro rfl
      apply hdet
      right
      rw [hmore.linkCount_eq (by omega), if_pos rfl]
      omega
    rw [hmore.type_eq z hzi] at hz
    have hz0 := g.ne_zero_of_dir hz
    rw [hmore.attached_iff hz0 hzi] at hdet
    have hzd : z ≠ dp := by
      rintro rfl
      exact hdet hatt
    rw [addEntry_other hzd hzi]
    exact ex.detached z hz hdet
  · intro x hx0 hx
    by_cases hxi : x = i
    · subst hxi
      have hdown : DownReach (Dir.addEntry ino dp x name ip n) dp :=
        g.addEntry_down hdp hi hleaf (ex.down dp hdp0 hatt)
      refine DownReach.entry (d := ⟨x, name⟩) hdown ?_ ?_ hx0
      · rw [addEntry_dp]
        exact hdp
      · rw [addEntry_dp]
        have hmem : ⟨x, name⟩ ∈ ((ino dp).withEntry ⟨x, name⟩).tail := by
          rw [(g.shape hdp).withEntry_tail hdp0]
          exact mem_putDirent_self
        exact hmem
    · rw [hmore.attached_iff hx0 hxi] at hx
      exact g.addEntry_down hdp hi hleaf (ex.down x hx0 hx)

end Add

section Remove

variable {ino ino' : Nat → Inode} {dp i k x : Nat}

/-- When no live entry but those for `i` is lost, and `i` has no live entries, the rest stays
reached. -/
theorem DownReach.transfer (hempty : (ino i).type = .dir → ∀ d, d ∈ (ino i).tail → d.inum = 0)
    (htype : ∀ z, z ≠ i → (ino z).type = .dir → (ino' z).type = .dir)
    (hkeep : ∀ z d, z ≠ i → d ∈ (ino z).tail → d.inum ≠ 0 → d.inum ≠ i → d ∈ (ino' z).tail)
    (h : DownReach ino x) : x = i ∨ DownReach ino' x := by
  induction h with
  | root => exact Or.inr .root
  | @entry z d hz hdir hd hne ih =>
    by_cases hdi : d.inum = i
    · exact Or.inl hdi
    · have hzi : z ≠ i := by
        rintro rfl
        exact hne (hempty hdir d hd)
      exact Or.inr (.entry (ih.resolve_left hzi) (htype z hzi hdir) (hkeep z d hzi hd hne hdi) hne)

/-- An erasure keeps every other live entry. -/
theorem unlink_mem_of_ne (h : (Effect.unlink dp i k).Enabled ino) {z : Nat} {d : Dirent}
    (hd : d ∈ (ino z).tail) (hdi : d.inum ≠ i) : d ∈ ((Effect.unlink dp i k).apply ino z).tail := by
  have hne := h.unlink_ne
  obtain ⟨-, hk, ⟨name, hslot⟩, -, -⟩ := h
  by_cases hzd : z = dp
  · subst hzd
    rw [unlink_dp]
    have hmem : d ∈ ((ino z).without k).tail := by
      rw [without_tail hk]
      obtain ⟨m, hm⟩ := mem_iff_getElem?.mp hd
      refine mem_iff_getElem?.mpr ⟨m, ?_⟩
      rw [getElem?_set_ne, hm]
      rintro rfl
      rw [Inode.tail, getElem?_drop, show 2 + (k - 2) = k by omega, hslot] at hm
      cases hm
      exact hdi rfl
    exact hmem
  · by_cases hzi : z = i
    · subst hzi
      rw [unlink_i hne]
      exact hd
    · rw [unlink_other hzd hzi]
      exact hd

theorem Exact.unlink (ex : Exact ino) (g : Graph ino)
    (h : (Effect.unlink dp i k).Enabled ino) : Exact ((Effect.unlink dp i k).apply ino) := by
  have hmore := g.unlink_oneMore h
  have hne := h.unlink_ne
  have hempty : (ino i).type = .dir → ∀ d, d ∈ (ino i).tail → d.inum = 0 :=
    fun hdir => isdirempty_iff.mp (h.2.2.2.2 hdir)
  have hcount : ∀ j, j ≠ 0 →
      linkCount ino j = linkCount ((Effect.unlink dp i k).apply ino) j + if j = i then 1 else 0 :=
    fun j hj => hmore.linkCount_eq hj
  have hatt : ∀ z, z ≠ 0 → Attached ((Effect.unlink dp i k).apply ino) z → Attached ino z := by
    rintro z hz (hroot | hpos)
    · exact Or.inl hroot
    · right
      have := hcount z hz
      omega
  have hdown : ∀ x, DownReach ino x → x = i ∨ DownReach ((Effect.unlink dp i k).apply ino) x :=
    fun x hx => hx.transfer hempty (fun z _ hz => by rw [unlink_type]; exact hz)
      fun z d _ hd _ hdi => unlink_mem_of_ne h hd hdi
  refine ⟨?_, ?_, ?_⟩
  · intro j hj0 hj
    rw [unlink_type] at hj
    have hleaf := ex.leaf j hj0 hj
    have hjd : j ≠ dp := by
      rintro rfl
      exact hj h.1
    rw [hcount j (by omega)] at hleaf
    by_cases hji : j = i
    · subst hji
      rw [unlink_i hne]
      simp only [if_true] at hleaf ⊢
      omega
    · rw [unlink_other hjd hji, hleaf, if_neg hji, add_zero]
  · intro z hz hdet d hd
    rw [unlink_type] at hz
    have hz0 := g.ne_zero_of_dir hz
    rcases unlink_mem h.2.1 hne hd with hmem | hzero
    · by_cases hzi : z = i
      · subst hzi
        exact hempty hz d hmem
      · refine ex.detached z hz (fun ha => hdet ?_) d hmem
        exact (hmore.attached_iff hz0 hzi).mp ha
    · exact hzero
  · intro x hx0 hx
    by_cases hxi : x = i
    · -- another entry for `i` is in a directory that is reached without it
      subst hxi
      by_cases hroot : x = rootino
      · rw [hroot]
        exact .root
      · obtain ⟨z, -, hz, d, hd, rfl⟩ := exists_mem_of_linkCount_pos (hx.resolve_left hroot)
        rw [unlink_type] at hz
        have hmem := (unlink_mem h.2.1 hne hd).resolve_right hx0
        have hzx : z ≠ d.inum := by
          intro hzd
          rw [hzd] at hz hmem
          exact hx0 (hempty hz d hmem)
        have hzatt : Attached ino z := by
          by_contra hdet
          exact hx0 (ex.detached z hz hdet d hmem)
        have hzdown := (hdown z (ex.down z (g.ne_zero_of_dir hz) hzatt)).resolve_left hzx
        exact .entry hzdown (by rw [unlink_type]; exact hz) hd hx0
    · exact (hdown x (ex.down x hx0 (hatt x hx0 hx))).resolve_left hxi

section

variable (ex : Exact ino) (g : Graph ino) (h : (Effect.free i).Enabled ino)

include ex g h

/-- An inode without links has no live entries. -/
theorem Exact.free_empty (hdir : (ino i).type = .dir) : ∀ d, d ∈ (ino i).tail → d.inum = 0 := by
  obtain ⟨hcount, hroot⟩ := g.free_detached h
  apply ex.detached i hdir
  rintro (hr | hpos)
  · exact hroot hr
  · omega

theorem Exact.free_links (hx : x ≠ 0) : (ino i).links x = 0 := by
  unfold Inode.links
  split
  · rename_i hdir
    apply countP_eq_zero.mpr
    intro d hd heq
    have hxd : x = d.inum := of_decide_eq_true heq
    exact hx (hxd.trans (ex.free_empty g h hdir d hd))
  · rfl

theorem Exact.free : Exact ((Effect.free i).apply ino) := by
  obtain ⟨hzero, hroot⟩ := g.free_detached h
  have hcount : ∀ j, j ≠ 0 → linkCount ((Effect.free i).apply ino) j = linkCount ino j := by
    intro j hj
    have hsum := g.free_linkCount h j
    rw [ex.free_links g h hj] at hsum
    exact hsum
  have hatt : ∀ z, z ≠ 0 → (Attached ((Effect.free i).apply ino) z ↔ Attached ino z) := by
    intro z hz
    unfold Attached
    rw [hcount z hz]
  refine ⟨?_, ?_, ?_⟩
  · intro j hj0 hj
    rw [hcount j (by omega)]
    by_cases hji : j = i
    · subst hji
      rw [free_i, hzero]
      rfl
    · rw [free_other hji] at hj ⊢
      exact ex.leaf j hj0 hj
  · intro z hz hdet
    have hzi : z ≠ i := by
      rintro rfl
      rw [free_i] at hz
      cases hz
    rw [free_other hzi] at hz ⊢
    exact ex.detached z hz (mt (hatt z (g.ne_zero_of_dir hz)).mpr hdet)
  · intro x hx0 hx
    rw [hatt x hx0] at hx
    have hxi : x ≠ i := by
      rintro rfl
      have := hx.resolve_left hroot
      omega
    refine ((ex.down x hx0 hx).transfer (i := i) (ex.free_empty g h) ?_ ?_).resolve_left hxi
    · intro z hz hdir
      rw [free_other hz]
      exact hdir
    · intro z d hz hd _ _
      rw [free_other hz]
      exact hd

end

end Remove

/-- Every effect that makes no entry in a removed directory keeps the counts exact. -/
theorem Exact.apply {ino : Nat → Inode} (ex : Exact ino) (g : Graph ino) (e : Effect)
    (he : e.Enabled ino) (hk : KeepsExact ino e) : Exact (e.apply ino) := by
  cases e with
  | link dp i name =>
    obtain ⟨hdp, hleaf, hfree, -, -⟩ := he
    apply ex.addEntry g hdp hk hleaf ((g.node i).2.1 hfree).1
    · simp [Inode.tail, (g.node i).2.2.2 hleaf]
    · rfl
  | create dp i name type =>
    obtain ⟨hdp, hfree, hpos, -, -, -⟩ := he
    apply ex.addEntry g hdp hk (by simp [hfree]) hpos newInode_tail
    rw [newInode_nlink, (g.node i).1 hfree]
    rfl
  | unlink dp i k => exact ex.unlink g he
  | free i => exact ex.free g he

section Property

/-- The inodes reached from the root by directory entries. -/
inductive Reachable (ino : Nat → Inode) : Nat → Prop
  | root : Reachable ino rootino
  | entry {z : Nat} {d : Dirent} (hz : Reachable ino z) (hdir : (ino z).type = .dir)
      (hd : d ∈ (ino z).dirents) (hne : d.inum ≠ 0) : Reachable ino d.inum

open Classical in
/-- The entries for `j`, with another name than `.`, in directories that are reached from the
root. -/
noncomputable def entryCount (ino : Nat → Inode) (j : Nat) : Nat :=
  ∑ x ∈ Finset.range ninodes,
    if (ino x).type = .dir ∧ Reachable ino x then
      (ino x).dirents.countP fun d => j = d.inum ∧ d.name ≠ dot
    else 0

/-- No file is open and every current directory is the root. -/
def Quiescent (s : Sys) : Prop :=
  ∀ p, ∀ pr ∈ s.procs p, pr.cwd = rootino ∧ ∀ fd, pr.ofile fd = none

instance (s : Sys) : Decidable (Quiescent s) := inferInstanceAs (Decidable (∀ _, _))

variable {ino : Nat → Inode} {s : Sys} {j x : Nat}

theorem DownReach.reachable (h : DownReach ino x) : Reachable ino x := by
  induction h with
  | root => exact .root
  | entry _ hdir hd hne ih => exact .entry ih hdir (mem_of_mem_drop hd) hne

/-- The entries for `j` in one directory: those after `.` and `..`, and `..` itself. -/
theorem Graph.countP_dirents (g : Graph ino) (hdir : (ino x).type = .dir) (hj : j ≠ 0) :
    ((ino x).dirents.countP fun d => j = d.inum ∧ d.name ≠ dot) =
      (ino x).links j + if (ino x).parent = j then 1 else 0 := by
  obtain ⟨p, tail, heq, -, hnames⟩ := g.shape hdir
  have htail : tail.countP (fun d => j = d.inum ∧ d.name ≠ dot) =
      tail.countP fun d => j = d.inum := by
    apply countP_congr
    intro d hd
    simp only [decide_eq_true_eq]
    constructor
    · exact fun h => h.1
    · intro h
      exact ⟨h, (hnames d hd (h ▸ hj)).1⟩
  unfold Inode.links Inode.tail Inode.parent
  rw [heq, if_pos hdir]
  simp only [countP_cons, htail, drop_succ_cons, drop_zero, ne_eq, not_true_eq_false,
    and_false, decide_false, Bool.false_eq_true, if_false, add_zero, getElem?_cons_succ,
    getElem?_cons_zero, Option.map_some, Option.getD_some, decide_eq_true_eq]
  have hdd : dotdot ≠ dot := by decide
  simp only [hdd, not_false_eq_true, and_true, eq_comm]

theorem Quiescent.ref_eq_zero (hq : Quiescent s) (h : s.Ok) (hx : x ≠ rootino) :
    s.tree.ref x = 0 := by
  have huses : ∀ f, uses s.procs f = 0 := by
    intro f
    apply Finset.sum_eq_zero
    intro p _
    cases hp : s.procs p with
    | none => rfl
    | some pr => simp [descriptors, (hq p pr hp).2]
  have hfiles : ∑ f, fileAt (s.files f) x = 0 := by
    apply Finset.sum_eq_zero
    intro f _
    simp [fileAt, h.uses f, huses f]
  have hprocs : ∑ p, cwdAt (s.procs p) x = 0 := by
    apply Finset.sum_eq_zero
    intro p _
    cases hp : s.procs p with
    | none => rfl
    | some pr => simp [cwdAt, (hq p pr hp).1, Ne.symm hx]
  rw [h.refs, holders, hprocs, hfiles]

section

variable (hq : Quiescent s) (h : s.Ok) (ex : Exact s.tree.inodes)

include hq h ex

/-- When nothing is held, every inode has an entry. -/
theorem Quiescent.attached (hx : (s.tree.inodes x).type ≠ .free) : Attached s.tree.inodes x := by
  have g := h.tree.graph
  by_cases hroot : x = rootino
  · exact Or.inl hroot
  have hnlink : (s.tree.inodes x).nlink ≠ 0 := by
    intro hzero
    have hpos := h.tree.anchored x hx hzero
    rw [hq.ref_eq_zero h hroot] at hpos
    omega
  by_cases hdir : (s.tree.inodes x).type = .dir
  · exact ex.attached_of_nlink g hdir hnlink
  · right
    rw [ex.leaf x ((g.node x).2.1 hx).1 hdir] at hnlink
    omega

theorem Quiescent.reachable (hx : (s.tree.inodes x).type ≠ .free) : Reachable s.tree.inodes x := by
  have hx0 := ((h.tree.graph.node x).2.1 hx).1
  exact (ex.down x (by omega) (hq.attached h ex hx)).reachable

theorem Quiescent.entryCount_eq (hj : j ≠ 0) : entryCount s.tree.inodes j =
      linkCount s.tree.inodes j + childCount s.tree.inodes j := by
  unfold entryCount linkCount childCount
  rw [← Finset.sum_add_distrib]
  apply Finset.sum_congr rfl
  intro x _
  by_cases hdir : (s.tree.inodes x).type = .dir
  · have hfree : (s.tree.inodes x).type ≠ .free := by rw [hdir]; decide
    have hatt := hq.attached h ex hfree
    rw [if_pos ⟨hdir, hq.reachable h ex hfree⟩, h.tree.graph.countP_dirents hdir hj]
    simp [childAt, hdir, hatt]
  · simp [childAt, hdir, links_leaf hdir]

end

end Property

section Runs

/-- The path at which a call makes a new entry. -/
def Call.newEntry : Call → Option (List Char)
  | .open path omode => if omode &&& Sys.oCreate ≠ 0 then some path else none
  | .mkdir path => some path
  | .mknod path _ _ => some path
  | .link _ new => some new
  | .unlink _ => none
  | .chdir _ => none
  | .close _ => none
  | .exit => none
  | .fork => none

/-- The call makes no entry in a directory without links, and no link too many. -/
def EntersLinked (s : Sys) : Fin nproc × Call → Prop
  | (p, c) => ∀ pr ∈ s.procs p,
      (∀ path ∈ c.newEntry, ∀ r ∈ walk s.tree.inodes pr.cwd path true,
        (s.tree.inodes r.1).nlink ≠ 0) ∧ LinkFits s pr c

instance (s : Sys) (a : Fin nproc × Call) : Decidable (EntersLinked s a) :=
  inferInstanceAs (Decidable (∀ _ ∈ _, _))

theorem EntersLinked.meets {s : Sys} {a : Fin nproc × Call} (h : EntersLinked s a) :
    StepMeets KeepsExact s a := by
  obtain ⟨p, c⟩ := a
  intro pr hp
  obtain ⟨hentry, hfits⟩ := h pr hp
  cases c with
  | «open» path omode =>
    intro hcreate dp name i hwalk
    exact hentry path (by simp [Call.newEntry, hcreate]) (dp, name) hwalk
  | mkdir path => exact fun dp name i hwalk => hentry path rfl (dp, name) hwalk
  | mknod path major minor => exact fun dp name i hwalk => hentry path rfl (dp, name) hwalk
  | link old new =>
    exact ⟨fun i name hwalk => hfits old rfl (i, name) hwalk,
      fun dp name i hwalk => hentry new rfl (dp, name) hwalk⟩
  | unlink path => exact fun _ _ _ _ _ _ => trivial
  | chdir path => trivial
  | close fd => trivial
  | exit => trivial
  | fork => trivial

theorem Image.exact (im : Image) : Exact im.inodes := by
  refine ⟨fun j hj hleaf => im.nlink_leaf hj hleaf, ?_, ?_⟩
  · intro z hz hdet
    exact absurd (Or.inl (Image.dir_iff.mp hz)) hdet
  · rintro x hx0 (rfl | hpos)
    · exact .root
    · obtain ⟨z, -, hz, d, hd, rfl⟩ := exists_mem_of_linkCount_pos hpos
      obtain rfl := Image.dir_iff.mp hz
      exact .entry .root hz hd hx0

/-- In every run in which no call makes an entry in a removed directory, counts are exact and
nothing is lost. -/
theorem links_exact_when_entered_linked (im : Image) (refusals : List Bool)
    (ops : List (Fin nproc × Call)) (s : Sys)
    (hguard : Guarded Sys.step EntersLinked (im.boot refusals) ops)
    (hrun : run Sys.step (im.boot refusals) ops = .ok s) (hq : Quiescent s) (i : Nat)
    (hi : (s.tree.inodes i).type ≠ .free) :
    Reachable s.tree.inodes i ∧ (s.tree.inodes i).nlink = entryCount s.tree.inodes i := by
  have hinv : s.Ok ∧ Exact s.tree.inodes := by
    have hkeep : ∀ (s : Sys) a s', s.Ok ∧ Exact s.tree.inodes → EntersLinked s a →
        s.step a = .ok s' → s'.Ok ∧ Exact s'.tree.inodes := by
      rintro s a s' ⟨hok, hex⟩ hg hstep
      obtain ⟨hok', hev⟩ := step_ok hok (fun _ _ => trivial) hg.meets hstep
      exact ⟨hok', (hev.preserves hok.tree.graph hex fun _ e g ex => ex.apply g e).2⟩
    exact run_invariant hkeep ⟨im.boot_ok refusals, im.exact⟩ hguard hrun
  obtain ⟨hok, hex⟩ := hinv
  have hpos := ((hok.tree.graph.node i).2.1 hi).1
  refine ⟨hq.reachable hok hex hi, ?_⟩
  rw [hq.entryCount_eq hok hex (by omega)]
  by_cases hdir : (s.tree.inodes i).type = .dir
  · rw [hok.tree.graph.nlink_dir i hdir]
    push_cast
    rfl
  · rw [hex.leaf i hpos hdir, hok.tree.graph.childCount_leaf hdir]
    rfl

/-- Make a directory with a file, link the file to the root, and remove the first link. -/
def moveOut : List (Fin nproc × Call) :=
  [(initproc, .mkdir ['/', 'd']), (initproc, .open ['/', 'd', '/', 'f'] 0x201),
    (initproc, .close ⟨0, by decide⟩), (initproc, .link ['/', 'd', '/', 'f'] ['/', 'g']),
    (initproc, .unlink ['/', 'd', '/', 'f'])]

theorem links_exact_moveOut : ∃ s, run Sys.step (emptyImage.boot []) moveOut = .ok s ∧
    (s.tree.inodes 3).type = .file ∧ Reachable s.tree.inodes 3 ∧
    (s.tree.inodes 3).nlink = entryCount s.tree.inodes 3 := by
  have hends : Ends (fun s => (s.tree.inodes 3).type = .file)
      (run Sys.step (emptyImage.boot []) moveOut) := by decide +kernel
  have hquiet : Ends Quiescent (run Sys.step (emptyImage.boot []) moveOut) := by decide +kernel
  obtain ⟨s, hrun, hfile⟩ := hends.exists
  refine ⟨s, hrun, hfile, ?_⟩
  exact links_exact_when_entered_linked emptyImage [] moveOut s (by decide +kernel) hrun
    (hquiet.of_ok hrun) 3 (by rw [hfile]; decide)

/-- Create a file in a removed directory that is the current directory, and leave it. -/
def enterRemoved : List (Fin nproc × Call) :=
  [(initproc, .mkdir ['d']), (initproc, .chdir ['d']), (initproc, .unlink ['/', 'd']),
    (initproc, .open ['f'] 0x201), (initproc, .close ⟨0, by decide⟩), (initproc, .chdir ['/'])]

/-- The file is lost: it has a link, but the directory that had its entry is gone. -/
theorem file_lost_in_removed_directory :
    ∃ s, run Sys.step (emptyImage.boot []) enterRemoved = .ok s ∧ Quiescent s ∧
      (s.tree.inodes 3).type = .file ∧ (s.tree.inodes 3).nlink = 1 ∧
      ¬ Reachable s.tree.inodes 3 := by
  have hends : Ends (fun s => (s.tree.inodes 3).type = .file ∧ (s.tree.inodes 3).nlink = 1)
      (run Sys.step (emptyImage.boot []) enterRemoved) := by decide +kernel
  have hquiet : Ends Quiescent (run Sys.step (emptyImage.boot []) enterRemoved) := by
    decide +kernel
  have hroot : Ends (fun s => ∀ d ∈ (s.tree.inodes rootino).dirents, d.inum = 0 ∨ d.inum = rootino)
      (run Sys.step (emptyImage.boot []) enterRemoved) := by decide +kernel
  obtain ⟨s, hrun, hfile, hnlink⟩ := hends.exists
  have honly : ∀ x, Reachable s.tree.inodes x → x = rootino := by
    intro x hx
    induction hx with
    | root => rfl
    | entry _ _ hd hne ih =>
      subst ih
      exact (hroot.of_ok hrun _ hd).resolve_left hne
  exact ⟨s, hrun, hquiet.of_ok hrun, hfile, hnlink, fun hr => absurd (honly 3 hr) (by decide)⟩

end Runs

end FogOS.Dir
