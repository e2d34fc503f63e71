import FogOS.Dir.Calls
import FogOS.Library.Count

/-!
# The link graph of a tree

The entries of directories, apart from `.` and `..`, form a graph on the inodes.
Its invariant says what link counts are worth: a directory has one for the entry
in its parent and one for the `..` of each of its subdirectories, any other inode
has at least one for each entry.
-/

namespace FogOS.Dir

open Library List Inode

section Slots

/-- The slots after `.` and `..`. -/
def Inode.tail (ip : Inode) : List Dirent := ip.dirents.drop 2

/-- The inode that `..` refers to. -/
def Inode.parent (ip : Inode) : Nat := ((ip.dirents[1]?).map Dirent.inum).getD 0

/-- The entries of the inode for `j`, if it is a directory. -/
def Inode.links (ip : Inode) (j : Nat) : Nat :=
  if ip.type = .dir then ip.tail.countP fun de => j = de.inum else 0

/-- The directory with an entry in its first empty slot, or after its last slot. -/
def putDirent (de : Dirent) : List Dirent → List Dirent
  | [] => [de]
  | d :: ds => if d.inum = 0 then de :: ds else d :: putDirent de ds

variable {de d : Dirent} {ds : List Dirent} {j k : Nat}

theorem countP_putDirent (hj : j ≠ 0) :
    (putDirent de ds).countP (fun d => j = d.inum) =
      ds.countP (fun d => j = d.inum) + if j = de.inum then 1 else 0 := by
  induction ds with
  | nil => by_cases h : j = de.inum <;> simp [putDirent, h]
  | cons d ds ih =>
    unfold putDirent
    by_cases hzero : d.inum = 0
    · have hne : ¬ j = d.inum := by omega
      rw [if_pos hzero, countP_cons, countP_cons]
      simp [hne]
    · rw [if_neg hzero, countP_cons, countP_cons, ih]
      omega

theorem mem_putDirent (h : d ∈ putDirent de ds) : d = de ∨ d ∈ ds := by
  induction ds with
  | nil => simpa [putDirent] using h
  | cons d' ds ih =>
    unfold putDirent at h
    split at h
    · rcases mem_cons.mp h with h | h
      · exact Or.inl h
      · exact Or.inr (mem_cons_of_mem _ h)
    · rcases mem_cons.mp h with h | h
      · exact Or.inr (h ▸ mem_cons_self)
      · rcases ih h with h | h
        · exact Or.inl h
        · exact Or.inr (mem_cons_of_mem _ h)

theorem mem_putDirent_self : de ∈ putDirent de ds := by
  induction ds with
  | nil => simp [putDirent]
  | cons d ds ih =>
    unfold putDirent
    split
    · exact mem_cons_self
    · exact mem_cons_of_mem _ ih

theorem mem_putDirent_of_mem (h : d ∈ ds) (hd : d.inum ≠ 0) : d ∈ putDirent de ds := by
  induction ds with
  | nil => cases h
  | cons d' ds ih =>
    unfold putDirent
    split
    · rename_i hzero
      rcases mem_cons.mp h with rfl | h
      · exact absurd hzero hd
      · exact mem_cons_of_mem _ h
    · rcases mem_cons.mp h with rfl | h
      · exact mem_cons_self
      · exact mem_cons_of_mem _ (ih h)

/-- Erasing a slot takes one entry from the inode it referred to. -/
theorem countP_erase (hk : ds[k]? = some d) (hj : j ≠ 0) :
    (ds.set k ⟨0, []⟩).countP (fun d => j = d.inum) + (if j = d.inum then 1 else 0) =
      ds.countP (fun d => j = d.inum) := by
  obtain ⟨hlt, hget⟩ := List.getElem?_eq_some_iff.mp hk
  have hmem : d ∈ ds := hget ▸ getElem_mem hlt
  rw [countP_set hlt, hget]
  by_cases hd : j = d.inum
  · have hpos : 0 < ds.countP (fun d => j = d.inum) :=
      countP_pos_iff.mpr ⟨d, hmem, by simp [hd]⟩
    simp only [hd, decide_true, if_true, show ¬ d.inum = 0 from hd ▸ hj, decide_false,
      Bool.false_eq_true, if_false] at hpos ⊢
    omega
  · simp [hd, hj]

end Slots

/-- A directory starts with its own `.` and `..`; no other entry has these names. -/
def DirShape (i : Nat) (ip : Inode) : Prop :=
  ∃ p tail, ip.dirents = ⟨i, dot⟩ :: ⟨p, dotdot⟩ :: tail ∧ p ≠ 0 ∧
    ∀ d, d ∈ tail → d.inum ≠ 0 → d.name ≠ dot ∧ d.name ≠ dotdot

/-- What inode `i` looks like on its own. -/
def NodeOk (i : Nat) (ip : Inode) : Prop :=
  (ip.type = .free → ip = Inode.zero) ∧
  (ip.type ≠ .free → 0 < i ∧ i < ninodes) ∧
  (ip.type = .dir → DirShape i ip) ∧
  (ip.type ≠ .dir → ip.dirents = [])

section Counts

/-- The entries for `j` in all directories, `.` and `..` not counted. -/
@[irreducible] def linkCount (ino : Nat → Inode) (j : Nat) : Nat := ∑ x ∈ Finset.range ninodes, (ino x).links j

/-- The inode has an entry, or is the root. -/
def Attached (ino : Nat → Inode) (x : Nat) : Prop := x = rootino ∨ 0 < linkCount ino x

instance (ino : Nat → Inode) (x : Nat) : Decidable (Attached ino x) :=
  inferInstanceAs (Decidable (_ ∨ _))

/-- One if `x` is an attached directory whose `..` is `j`. -/
def childAt (ino : Nat → Inode) (j x : Nat) : Nat :=
  if (ino x).type = .dir ∧ Attached ino x ∧ (ino x).parent = j then 1 else 0

/-- The attached directories whose `..` is `j`. -/
@[irreducible] def childCount (ino : Nat → Inode) (j : Nat) : Nat := ∑ x ∈ Finset.range ninodes, childAt ino j x

variable {ino ino' : Nat → Inode} {x j : Nat}

theorem linkCount_change (hx : x < ninodes) (h : ∀ y, y ≠ x → (ino' y).links j = (ino y).links j) :
    linkCount ino' j + (ino x).links j = linkCount ino j + (ino' x).links j := by
  unfold linkCount
  exact sum_change (f := fun y => (ino y).links j) (g := fun y => (ino' y).links j)
    (Finset.mem_range.mpr hx) h

theorem childCount_congr (h : ∀ y, childAt ino' j y = childAt ino j y) :
    childCount ino' j = childCount ino j := by
  unfold childCount
  exact Finset.sum_congr rfl fun y _ => h y

theorem childCount_change (hx : x < ninodes) (h : ∀ y, y ≠ x → childAt ino' j y = childAt ino j y) :
    childCount ino' j + childAt ino j x = childCount ino j + childAt ino' j x := by
  unfold childCount
  exact sum_change (f := childAt ino j) (g := childAt ino' j) (Finset.mem_range.mpr hx) h

theorem linkCount_pos_of_mem {z : Nat} {d : Dirent} (hz : z < ninodes)
    (hdir : (ino z).type = .dir) (hd : d ∈ (ino z).tail) : 0 < linkCount ino d.inum := by
  have hpos : 0 < (ino z).links d.inum := by
    unfold links
    rw [if_pos hdir]
    exact countP_pos_iff.mpr ⟨d, hd, by simp⟩
  unfold linkCount
  exact lt_of_lt_of_le hpos
    (Finset.single_le_sum (f := fun x => (ino x).links d.inum) (fun _ _ => zero_le)
      (Finset.mem_range.mpr hz))

theorem exists_mem_of_linkCount_pos (h : 0 < linkCount ino j) :
    ∃ z, z < ninodes ∧ (ino z).type = .dir ∧ ∃ d, d ∈ (ino z).tail ∧ d.inum = j := by
  obtain ⟨z, hz, hpos⟩ : ∃ z ∈ Finset.range ninodes, 0 < (ino z).links j := by
    by_contra hnone
    simp only [not_exists, not_and, not_lt] at hnone
    have hzero : linkCount ino j = 0 := by
      unfold linkCount
      exact Finset.sum_eq_zero fun z hz => Nat.le_zero.mp (hnone z hz)
    omega
  unfold links at hpos
  split at hpos
  · rename_i hdir
    obtain ⟨d, hd, heq⟩ := countP_pos_iff.mp hpos
    exact ⟨z, Finset.mem_range.mp hz, hdir, d, hd, (of_decide_eq_true heq).symm⟩
  · omega

end Counts

/-- The invariant of the link graph. -/
structure Graph (ino : Nat → Inode) : Prop where
  node : ∀ i, NodeOk i (ino i)
  root_dir : (ino rootino).type = .dir
  root_parent : (ino rootino).parent = rootino
  root_links : linkCount ino rootino = 0
  nlink_dir : ∀ j, (ino j).type = .dir → (ino j).nlink = linkCount ino j + childCount ino j
  nlink_leaf : ∀ j, 0 < j → (ino j).type ≠ .dir →
    (linkCount ino j : Int) ≤ (ino j).nlink ∧ (ino j).nlink ≤ 32767
  single : ∀ j, (ino j).type = .dir → linkCount ino j ≤ 1
  inParent : ∀ z d, (ino z).type = .dir → d ∈ (ino z).tail → (ino d.inum).type = .dir →
    (ino d.inum).parent = z

section Nodes

variable {i k : Nat} {ip : Inode} {de : Dirent}

/-- The directory with an entry added. -/
def Inode.withEntry (ip : Inode) (de : Dirent) : Inode :=
  { ip with dirents := putDirent de ip.dirents }

/-- The directory with slot `k` erased. -/
def Inode.without (ip : Inode) (k : Nat) : Inode :=
  { ip with dirents := ip.dirents.set k ⟨0, []⟩ }

section

variable (h : DirShape i ip) (hi : i ≠ 0)

include h hi

theorem DirShape.putDirent_eq (de : Dirent) :
    ∃ p, ip.dirents = ⟨i, dot⟩ :: ⟨p, dotdot⟩ :: ip.tail ∧ p ≠ 0 ∧
      putDirent de ip.dirents = ⟨i, dot⟩ :: ⟨p, dotdot⟩ :: putDirent de ip.tail := by
  obtain ⟨p, tail, heq, hp, -⟩ := h
  have htail : ip.tail = tail := by simp [Inode.tail, heq]
  rw [heq, htail]
  simp [putDirent, hi, hp]

theorem DirShape.withEntry_tail : (ip.withEntry de).tail = putDirent de ip.tail := by
  obtain ⟨p, -, -, hput⟩ := h.putDirent_eq hi de
  simp [Inode.withEntry, Inode.tail, hput]

theorem DirShape.withEntry_parent : (ip.withEntry de).parent = ip.parent := by
  obtain ⟨p, heq, -, hput⟩ := h.putDirent_eq hi de
  have hparent : ip.parent = p := by rw [parent, heq]; rfl
  rw [hparent, parent, withEntry]
  simp only [hput]
  rfl

theorem DirShape.withEntry_links {j : Nat} (hj : j ≠ 0) (hdir : ip.type = .dir) :
    (ip.withEntry de).links j = ip.links j + if j = de.inum then 1 else 0 := by
  have htype : (ip.withEntry de).type = .dir := hdir
  unfold links
  rw [if_pos htype, if_pos hdir, h.withEntry_tail hi, countP_putDirent hj]

theorem DirShape.withEntry
    (hname : de.name ≠ dot ∧ de.name ≠ dotdot) : DirShape i (ip.withEntry de) := by
  obtain ⟨p, tail, heq, hp, hnames⟩ := h
  refine ⟨p, putDirent de tail, ?_, hp, ?_⟩
  · simp [Inode.withEntry, heq, putDirent, hi, hp]
  · intro d hd hne
    rcases mem_putDirent hd with rfl | hd
    · exact hname
    · exact hnames d hd hne

end

theorem without_tail (hk : 2 ≤ k) : (ip.without k).tail = ip.tail.set (k - 2) ⟨0, []⟩ := by
  unfold Inode.without Inode.tail
  rw [drop_set]
  simp [not_lt.mpr hk]

theorem without_parent (hk : 2 ≤ k) : (ip.without k).parent = ip.parent := by
  unfold without parent
  rw [getElem?_set_ne (by omega)]

theorem without_links (hk : 2 ≤ k) (hde : ip.dirents[k]? = some de) {j : Nat} (hj : j ≠ 0)
    (hdir : ip.type = .dir) :
    (ip.without k).links j + (if j = de.inum then 1 else 0) = ip.links j := by
  have htype : (ip.without k).type = .dir := hdir
  have hget : ip.tail[k - 2]? = some de := by
    rw [Inode.tail, getElem?_drop, show 2 + (k - 2) = k by omega, hde]
  unfold links
  rw [if_pos htype, if_pos hdir, without_tail hk, countP_erase hget hj]

theorem DirShape.without (h : DirShape i ip) (hk : 2 ≤ k) : DirShape i (ip.without k) := by
  obtain ⟨p, tail, heq, hp, hnames⟩ := h
  refine ⟨p, tail.set (k - 2) ⟨0, []⟩, ?_, hp, ?_⟩
  · obtain ⟨m, rfl⟩ : ∃ m, k = m + 2 := ⟨k - 2, by omega⟩
    simp [without, heq]
  · intro d hd hne
    rcases mem_or_eq_of_mem_set hd with hd | rfl
    · exact hnames d hd hne
    · exact absurd rfl hne

end Nodes

section Facts

variable {ino : Nat → Inode} {i : Nat}

variable (g : Graph ino)

include g

theorem Graph.zero_free : (ino 0).type = .free := by
  by_contra h
  have hpos := ((g.node 0).2.1 h).1
  omega

theorem Graph.shape (h : (ino i).type = .dir) : DirShape i (ino i) :=
  (g.node i).2.2.1 h

theorem Graph.lt_of_dir (h : (ino i).type = .dir) : 0 < i ∧ i < ninodes :=
  (g.node i).2.1 (by rw [h]; decide)

theorem Graph.ne_zero_of_dir (h : (ino i).type = .dir) : i ≠ 0 := by
  have := (g.lt_of_dir h).1
  omega

/-- No entry refers to a free inode. -/
theorem Graph.linkCount_free (h : (ino i).type = .free) (hi : 0 < i) : linkCount ino i = 0 := by
  have hleaf := (g.nlink_leaf i hi (by rw [h]; decide)).1
  rw [(g.node i).1 h] at hleaf
  have hzero : (linkCount ino i : Int) ≤ 0 := hleaf
  omega

/-- The entry that attaches a directory is in its parent. -/
theorem Graph.mem_of_attached (hdir : (ino i).type = .dir)
    (h : Attached ino i) (hroot : i ≠ rootino) :
    (ino (ino i).parent).type = .dir ∧ ∃ d, d ∈ (ino (ino i).parent).tail ∧ d.inum = i := by
  obtain ⟨z, -, hz, d, hd, rfl⟩ := exists_mem_of_linkCount_pos (h.resolve_left hroot)
  rw [g.inParent z d hz hd hdir]
  exact ⟨hz, d, hd, rfl⟩

omit g in
theorem childCount_eq_zero (h : ∀ x, (ino x).type = .dir → Attached ino x → (ino x).parent ≠ i) :
    childCount ino i = 0 := by
  unfold childCount
  apply Finset.sum_eq_zero
  intro x _
  unfold childAt
  rw [if_neg]
  rintro ⟨hdir, hatt, hparent⟩
  exact h x hdir hatt hparent

theorem Graph.childCount_leaf (h : (ino i).type ≠ .dir) : childCount ino i = 0 := by
  apply childCount_eq_zero
  rintro x hdir hatt rfl
  by_cases hroot : x = rootino
  · rw [hroot, g.root_parent] at h
    exact h g.root_dir
  · exact h (g.mem_of_attached hdir hatt hroot).1

/-- A directory other than the root without live entries is the `..` of no attached directory. -/
theorem Graph.childCount_empty (hroot : i ≠ rootino)
    (h : ∀ d, d ∈ (ino i).tail → d.inum = 0) : childCount ino i = 0 := by
  apply childCount_eq_zero
  rintro x hdir hatt rfl
  by_cases hx : x = rootino
  · rw [hx, g.root_parent] at hroot
    exact hroot rfl
  · obtain ⟨d, hd, rfl⟩ := (g.mem_of_attached hdir hatt hx).2
    exact g.ne_zero_of_dir hdir (h d hd)

omit g in
theorem childCount_pos {x : Nat} (hx : x < ninodes) (hdir : (ino x).type = .dir)
    (hatt : Attached ino x) : 0 < childCount ino (ino x).parent := by
  have hone : childAt ino (ino x).parent x = 1 := if_pos ⟨hdir, hatt, rfl⟩
  unfold childCount
  calc 0 < childAt ino (ino x).parent x := by omega
    _ ≤ ∑ y ∈ Finset.range ninodes, childAt ino (ino x).parent y :=
      Finset.single_le_sum (f := childAt ino (ino x).parent) (fun _ _ => zero_le)
        (Finset.mem_range.mpr hx)

theorem Graph.nlink_root : 0 < (ino rootino).nlink := by
  have hpos := childCount_pos (g.lt_of_dir g.root_dir).2 g.root_dir (Or.inl rfl)
  rw [g.root_parent] at hpos
  rw [g.nlink_dir _ g.root_dir]
  omega

end Facts

end FogOS.Dir
