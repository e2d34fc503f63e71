import FogOS.Dir.Graph

/-!
# What a call does to the inodes

Seen from the inodes alone, a call adds an entry for an existing inode, adds an
inode with its entry, removes an entry, or frees an inode that has no link left.
Each of these effects keeps the invariant of the link graph.
-/

namespace FogOS.Dir

open Function Library List Inode

/-- The effects, with the directory, the inode and the name or slot they concern. -/
inductive Effect
  | link (dp i : Nat) (name : Name)
  | create (dp i : Nat) (name : Name) (type : InodeType)
  | unlink (dp i k : Nat)
  | free (i : Nat)

/-- A new inode of the given type, whose entry is in `dp`. -/
def newInode (dp i : Nat) (type : InodeType) : Inode :=
  if type = .dir then ⟨.dir, 1, [⟨i, dot⟩, ⟨dp, dotdot⟩]⟩ else ⟨type, 1, []⟩

/-- The link that a directory of type `type` gives to its parent. -/
def backLink (type : InodeType) : Int := if type = .dir then 1 else 0

/-- The inodes after the effect. -/
def Effect.apply (ino : Nat → Inode) : Effect → Nat → Inode
  | .link dp i name =>
    update (update ino i { ino i with nlink := (ino i).nlink + 1 }) dp
      ((ino dp).withEntry ⟨i, name⟩)
  | .create dp i name type =>
    update (update ino i (newInode dp i type)) dp
      { (ino dp).withEntry ⟨i, name⟩ with nlink := (ino dp).nlink + backLink type }
  | .unlink dp i k =>
    update (update ino i { ino i with nlink := (ino i).nlink - 1 }) dp
      { (ino dp).without k with nlink := (ino dp).nlink - backLink (ino i).type }
  | .free i => update ino i Inode.zero

/-- When the effect can take place. -/
def Effect.Enabled (ino : Nat → Inode) : Effect → Prop
  | .link dp i name =>
    (ino dp).type = .dir ∧ (ino i).type ≠ .dir ∧ (ino i).type ≠ .free ∧
      (ino i).nlink < 32767 ∧ name ≠ dot ∧ name ≠ dotdot
  | .create dp i name type =>
    (ino dp).type = .dir ∧ (ino i).type = .free ∧ 0 < i ∧ i < ninodes ∧ type ≠ .free ∧
      name ≠ dot ∧ name ≠ dotdot
  | .unlink dp i k =>
    (ino dp).type = .dir ∧ 2 ≤ k ∧ (∃ name, (ino dp).dirents[k]? = some ⟨i, name⟩) ∧
      i ≠ 0 ∧ ((ino i).type = .dir → isdirempty (ino i) = true)
  | .free i => (ino i).type ≠ .free ∧ (ino i).nlink = 0

/-- `ino'` has one entry more than `ino`: in `dp`, for inode `i`. -/
structure OneMore (ino ino' : Nat → Inode) (dp i : Nat) : Prop where
  dp_lt : dp < ninodes
  type_eq : ∀ x, x ≠ i → (ino' x).type = (ino x).type
  parent_eq : ∀ x, x ≠ i → (ino' x).parent = (ino x).parent
  links_eq : ∀ x j, j ≠ 0 → (ino' x).links j = (ino x).links j + if x = dp ∧ j = i then 1 else 0

namespace OneMore

variable {ino ino' : Nat → Inode} {dp i j x : Nat}

theorem linkCount_eq (h : OneMore ino ino' dp i) (hj : j ≠ 0) :
    linkCount ino' j = linkCount ino j + if j = i then 1 else 0 := by
  have hchange := @linkCount_change ino ino' dp j h.dp_lt (fun y hy => by
    rw [h.links_eq y j hj]
    simp [hy])
  rw [h.links_eq dp j hj] at hchange
  simp only [true_and] at hchange
  omega

theorem attached_iff (h : OneMore ino ino' dp i) (hx : x ≠ 0) (hxi : x ≠ i) :
    Attached ino' x ↔ Attached ino x := by
  unfold Attached
  rw [h.linkCount_eq hx, if_neg hxi, add_zero]

theorem childAt_eq (h : OneMore ino ino' dp i) (h0 : (ino 0).type ≠ .dir) (hxi : x ≠ i) :
    childAt ino' j x = childAt ino j x := by
  unfold childAt
  rw [h.type_eq x hxi, h.parent_eq x hxi]
  by_cases hx : x = 0
  · subst hx
    simp [h0]
  · simp only [h.attached_iff hx hxi]

end OneMore

section More

variable {ino : Nat → Inode} {dp i j x : Nat} {name : Name} {type : InodeType} {ip : Inode}
  {n : Int}

/-- The inodes after an entry for `i` has been added to `dp`, with the new state of both. -/
def addEntry (ino : Nat → Inode) (dp i : Nat) (name : Name) (ip : Inode) (n : Int) : Nat → Inode :=
  update (update ino i ip) dp { (ino dp).withEntry ⟨i, name⟩ with nlink := n }

theorem addEntry_dp : addEntry ino dp i name ip n dp =
    { (ino dp).withEntry ⟨i, name⟩ with nlink := n } := by
  simp [addEntry]

theorem addEntry_i (h : i ≠ dp) : addEntry ino dp i name ip n i = ip := by
  simp [addEntry, h]

theorem addEntry_other (hdp : x ≠ dp) (hi : x ≠ i) : addEntry ino dp i name ip n x = ino x := by
  simp [addEntry, hdp, hi]

section

variable (g : Graph ino) (hdp : (ino dp).type = .dir) (hi : i ≠ dp)

include g hdp hi

/-- Adding an entry for an inode without entries of its own. -/
theorem Graph.oneMore (hold : ∀ j, (ino i).links j = 0) (hnew : ∀ j, ip.links j = 0) :
    OneMore ino (addEntry ino dp i name ip n) dp i := by
  have hshape := g.shape hdp
  have hne := g.ne_zero_of_dir hdp
  refine ⟨(g.lt_of_dir hdp).2, ?_, ?_, ?_⟩
  · intro x hx
    by_cases hxd : x = dp
    · rw [hxd, addEntry_dp]
      rfl
    · rw [addEntry_other hxd hx]
  · intro x hx
    by_cases hxd : x = dp
    · rw [hxd, addEntry_dp]
      exact hshape.withEntry_parent hne
    · rw [addEntry_other hxd hx]
  · intro x j hj
    by_cases hxd : x = dp
    · subst hxd
      rw [addEntry_dp]
      have hlinks := @DirShape.withEntry_links _ _ ⟨i, name⟩ hshape hne j hj hdp
      simp only [true_and]
      exact hlinks
    · by_cases hxi : x = i
      · subst hxi
        rw [addEntry_i hi, hnew, hold]
        simp [hi]
      · rw [addEntry_other hxd hxi]
        simp [hxd]

omit g hdp hi in
theorem links_leaf (h : ip.type ≠ .dir) (j : Nat) : ip.links j = 0 := if_neg h

/-- The nodes stay well-formed when an entry is added. -/
theorem Graph.addEntry_node (hname : name ≠ dot ∧ name ≠ dotdot) (hip : NodeOk i ip) (x : Nat) :
    NodeOk x (addEntry ino dp i name ip n x) := by
  by_cases hxd : x = dp
  · subst hxd
    rw [addEntry_dp]
    obtain ⟨-, hlt, hshape, -⟩ := g.node x
    have hne := g.ne_zero_of_dir hdp
    refine ⟨?_, ?_, ?_, ?_⟩
    · intro h
      have hfree : (ino x).type = .free := h
      rw [hdp] at hfree
      cases hfree
    · intro _
      exact g.lt_of_dir hdp
    · intro _
      exact (hshape hdp).withEntry hne hname
    · intro h
      exact absurd hdp h
  · by_cases hxi : x = i
    · subst hxi
      rw [addEntry_i hi]
      exact hip
    · rw [addEntry_other hxd hxi]
      exact g.node x

/-- Every entry for a directory other than `i` was there before. -/
theorem Graph.addEntry_inParent (hnew : ip.tail = []) {z : Nat} {d : Dirent}
    (hz : (addEntry ino dp i name ip n z).type = .dir)
    (hd : d ∈ (addEntry ino dp i name ip n z).tail) :
    (z = dp ∧ d = ⟨i, name⟩) ∨ ((ino z).type = .dir ∧ d ∈ (ino z).tail) := by
  by_cases hzd : z = dp
  · subst hzd
    rw [addEntry_dp] at hd
    have htail : d ∈ putDirent ⟨i, name⟩ (ino z).tail := by
      rw [← (g.shape hdp).withEntry_tail (g.ne_zero_of_dir hdp)]
      exact hd
    rcases mem_putDirent htail with h | h
    · exact Or.inl ⟨rfl, h⟩
    · exact Or.inr ⟨hdp, h⟩
  · by_cases hzi : z = i
    · subst hzi
      rw [addEntry_i hi, hnew] at hd
      cases hd
    · rw [addEntry_other hzd hzi] at hz hd
      exact Or.inr ⟨hz, hd⟩

end

/-- The new directory is the one attached directory more under `dp`. -/
theorem Graph.addEntry_childCount (g : Graph ino) (hi : i ≠ dp) (hlt : i < ninodes) (hpos : i ≠ 0)
    (hleaf : (ino i).type ≠ .dir) (hmore : OneMore ino (addEntry ino dp i name ip n) dp i)
    (hparent : ip.type = .dir → ip.parent = dp) (j : Nat) :
    childCount (addEntry ino dp i name ip n) j =
      childCount ino j + if ip.type = .dir ∧ j = dp then 1 else 0 := by
  have hzero : (ino 0).type ≠ .dir := by simp [g.zero_free]
  have hchange := childCount_change (j := j) hlt fun y hy => hmore.childAt_eq (j := j) hzero hy
  have hold : childAt ino j i = 0 := if_neg fun h => hleaf h.1
  have hatt : Attached (addEntry ino dp i name ip n) i := by
    right
    rw [hmore.linkCount_eq hpos, if_pos rfl]
    omega
  have hnew : childAt (addEntry ino dp i name ip n) j i =
      if ip.type = .dir ∧ j = dp then 1 else 0 := by
    unfold childAt
    rw [addEntry_i hi]
    by_cases hdir : ip.type = .dir
    · simp [hdir, hatt, hparent hdir, eq_comm]
    · simp [hdir]
  omega

/-- Adding an entry, together with the link it is worth, keeps the link graph. -/
theorem Graph.addEntry (g : Graph ino) (hdp : (ino dp).type = .dir)
    (hname : name ≠ dot ∧ name ≠ dotdot) (hleaf : (ino i).type ≠ .dir) (hip : NodeOk i ip)
    (hexists : ip.type ≠ .free) (htail : ip.tail = []) (hnlink : ip.nlink = (ino i).nlink + 1)
    (hmax : ip.nlink ≤ 32767) (hdir : ip.type = .dir → (ino i).type = .free ∧ ip.parent = dp)
    (hn : n = (ino dp).nlink + backLink ip.type) : Graph (addEntry ino dp i name ip n) := by
  have hi : i ≠ dp := by
    rintro rfl
    exact hleaf hdp
  have hiroot : rootino ≠ i := by
    rintro rfl
    exact hleaf g.root_dir
  obtain ⟨hpos, hlt⟩ := hip.2.1 hexists
  have hlinks : ∀ j, ip.links j = 0 := by
    simp [links, htail]
  have hmore : OneMore ino (Dir.addEntry ino dp i name ip n) dp i :=
    g.oneMore hdp hi (links_leaf hleaf) hlinks
  have hchild := g.addEntry_childCount hi hlt (by omega) hleaf hmore fun h => (hdir h).2
  have htype : ∀ x, x ≠ i → (Dir.addEntry ino dp i name ip n x).type = (ino x).type :=
    hmore.type_eq
  have hiold : (linkCount ino i : Int) ≤ (ino i).nlink := (g.nlink_leaf i hpos hleaf).1
  have hself : Dir.addEntry ino dp i name ip n i = ip := addEntry_i hi
  have hother : ∀ x, x ≠ dp → x ≠ i → Dir.addEntry ino dp i name ip n x = ino x :=
    fun x hx hx' => addEntry_other hx hx'
  refine ⟨g.addEntry_node hdp hi hname hip, ?_, ?_, ?_, ?_, ?_, ?_, ?_⟩
  · rw [htype _ hiroot]
    exact g.root_dir
  · rw [hmore.parent_eq _ hiroot]
    exact g.root_parent
  · rw [hmore.linkCount_eq (by decide), if_neg hiroot, add_zero]
    exact g.root_links
  · intro j hj
    by_cases hji : j = i
    · subst hji
      rw [hself] at hj ⊢
      have hfree := (hdir hj).1
      rw [hmore.linkCount_eq (by omega), hchild j, g.linkCount_free hfree hpos,
        g.childCount_leaf hleaf, hnlink, (g.node j).1 hfree, if_pos rfl, if_neg (by tauto)]
      rfl
    · rw [htype j hji] at hj
      have hj0 := g.ne_zero_of_dir hj
      rw [hmore.linkCount_eq hj0, hchild j, if_neg hji]
      by_cases hjd : j = dp
      · subst hjd
        rw [addEntry_dp]
        simp only [hn, g.nlink_dir j hj, backLink, and_true]
        split <;> push_cast <;> omega
      · rw [hother j hjd hji, g.nlink_dir j hj, if_neg (by tauto)]
        omega
  · intro j hj0 hj
    by_cases hji : j = i
    · subst hji
      rw [hself, hmore.linkCount_eq (by omega), if_pos rfl]
      exact ⟨by omega, hmax⟩
    · rw [htype j hji] at hj
      have hjd : j ≠ dp := by
        rintro rfl
        exact hj hdp
      rw [hother j hjd hji, hmore.linkCount_eq (by omega), if_neg hji, add_zero]
      exact g.nlink_leaf j hj0 hj
  · intro j hj
    by_cases hji : j = i
    · subst hji
      rw [hself] at hj
      rw [hmore.linkCount_eq (by omega), g.linkCount_free (hdir hj).1 hpos, if_pos rfl]
    · rw [htype j hji] at hj
      rw [hmore.linkCount_eq (g.ne_zero_of_dir hj), if_neg hji, add_zero]
      exact g.single j hj
  · intro z d hz hd hdirD
    rcases g.addEntry_inParent hdp hi htail hz hd with ⟨rfl, rfl⟩ | ⟨hz, hd⟩
    · rw [hself] at hdirD ⊢
      exact (hdir hdirD).2
    · have hdi : d.inum ≠ i := by
        intro h
        have hcount := linkCount_pos_of_mem (g.lt_of_dir hz).2 hz hd
        rw [h] at hcount hdirD
        rw [hself] at hdirD
        rw [g.linkCount_free (hdir hdirD).1 hpos] at hcount
        omega
      rw [htype _ hdi] at hdirD
      rw [hmore.parent_eq _ hdi]
      exact g.inParent z d hz hd hdirD

theorem Effect.apply_link (ino : Nat → Inode) (dp i : Nat) (name : Name) :
    (Effect.link dp i name).apply ino =
      addEntry ino dp i name { ino i with nlink := (ino i).nlink + 1 } (ino dp).nlink := rfl

theorem Graph.link (g : Graph ino) (h : (Effect.link dp i name).Enabled ino) :
    Graph ((Effect.link dp i name).apply ino) := by
  obtain ⟨hdp, hleaf, hfree, hmax, hname⟩ := h
  apply g.addEntry hdp hname hleaf
  · exact ⟨fun hf => absurd hf hfree, (g.node i).2.1, fun hd => absurd hd hleaf, (g.node i).2.2.2⟩
  · exact hfree
  · simp [Inode.tail, (g.node i).2.2.2 hleaf]
  · rfl
  · exact Int.add_one_le_iff.mpr hmax
  · intro hd
    exact absurd hd hleaf
  · simp [backLink, hleaf]

theorem Effect.apply_create (ino : Nat → Inode) (dp i : Nat) (name : Name) (type : InodeType) :
    (Effect.create dp i name type).apply ino =
      addEntry ino dp i name (newInode dp i type) ((ino dp).nlink + backLink type) := rfl

theorem newInode_type : (newInode dp i type).type = type := by
  unfold newInode
  split
  · rename_i h
    exact h.symm
  · rfl

theorem newInode_nlink : (newInode dp i type).nlink = 1 := by
  unfold newInode
  split <;> rfl

theorem newInode_tail : (newInode dp i type).tail = [] := by
  unfold newInode
  split <;> rfl

theorem newInode_node (hi : 0 < i ∧ i < ninodes) (hdp : dp ≠ 0) (htype : type ≠ .free) :
    NodeOk i (newInode dp i type) := by
  refine ⟨?_, fun _ => hi, ?_, ?_⟩
  · rw [newInode_type]
    exact fun h => absurd h htype
  · rw [newInode_type]
    rintro rfl
    exact ⟨dp, [], rfl, hdp, by simp⟩
  · rw [newInode_type]
    intro h
    simp [newInode, h]

theorem Graph.create (g : Graph ino) (h : (Effect.create dp i name type).Enabled ino) :
    Graph ((Effect.create dp i name type).apply ino) := by
  obtain ⟨hdp, hfree, hpos, hlt, htype, hname⟩ := h
  apply g.addEntry hdp hname
  · simp [hfree]
  · exact newInode_node ⟨hpos, hlt⟩ (g.ne_zero_of_dir hdp) htype
  · rw [newInode_type]
    exact htype
  · exact newInode_tail
  · rw [newInode_nlink, (g.node i).1 hfree]
    rfl
  · rw [newInode_nlink]
    decide
  · rw [newInode_type]
    rintro rfl
    exact ⟨hfree, rfl⟩
  · rw [newInode_type]

end More

section Less

variable {ino : Nat → Inode} {dp i k x : Nat}

theorem unlink_dp : (Effect.unlink dp i k).apply ino dp =
    { (ino dp).without k with nlink := (ino dp).nlink - backLink (ino i).type } := by
  simp [Effect.apply]

theorem unlink_i (h : i ≠ dp) : (Effect.unlink dp i k).apply ino i =
    { ino i with nlink := (ino i).nlink - 1 } := by
  simp [Effect.apply, h]

theorem unlink_other (hdp : x ≠ dp) (hi : x ≠ i) : (Effect.unlink dp i k).apply ino x = ino x := by
  simp [Effect.apply, hdp, hi]

theorem unlink_type (x : Nat) : ((Effect.unlink dp i k).apply ino x).type = (ino x).type := by
  by_cases hdp : x = dp
  · rw [hdp, unlink_dp]
    rfl
  · by_cases hi : x = i
    · rw [hi, unlink_i (hi ▸ hdp)]
    · rw [unlink_other hdp hi]

theorem unlink_parent (hk : 2 ≤ k) (x : Nat) :
    ((Effect.unlink dp i k).apply ino x).parent = (ino x).parent := by
  by_cases hdp : x = dp
  · rw [hdp, unlink_dp]
    exact without_parent hk
  · by_cases hi : x = i
    · rw [hi, unlink_i (hi ▸ hdp)]
      rfl
    · rw [unlink_other hdp hi]

theorem mem_tail_of_slot {ip : Inode} {d : Dirent} (hk : 2 ≤ k) (h : ip.dirents[k]? = some d) :
    d ∈ ip.tail := by
  apply mem_of_getElem? (i := k - 2)
  rw [Inode.tail, getElem?_drop, show 2 + (k - 2) = k by omega, h]

theorem isdirempty_iff {ip : Inode} : isdirempty ip = true ↔ ∀ d, d ∈ ip.tail → d.inum = 0 := by
  simp [isdirempty, Inode.tail]

/-- The inode whose entry is removed is not the directory it is removed from. -/
theorem Effect.Enabled.unlink_ne (h : (Effect.unlink dp i k).Enabled ino) : i ≠ dp := by
  rintro rfl
  obtain ⟨hdp, hk, ⟨name, hslot⟩, hi, hempty⟩ := h
  exact hi (isdirempty_iff.mp (hempty hdp) _ (mem_tail_of_slot hk hslot))

section

variable (g : Graph ino) (h : (Effect.unlink dp i k).Enabled ino)

include g h

theorem Graph.unlink_oneMore : OneMore ((Effect.unlink dp i k).apply ino) ino dp i := by
  have hne := h.unlink_ne
  obtain ⟨hdp, hk, ⟨name, hslot⟩, hi, -⟩ := h
  refine ⟨(g.lt_of_dir hdp).2, fun x _ => (unlink_type x).symm,
    fun x _ => (unlink_parent hk x).symm, ?_⟩
  intro x j hj
  by_cases hxd : x = dp
  · subst hxd
    have hlinks := without_links hk hslot hj hdp
    rw [unlink_dp]
    simp only [true_and]
    exact hlinks.symm
  · by_cases hxi : x = i
    · subst hxi
      rw [unlink_i hne, if_neg (by tauto)]
      rfl
    · rw [unlink_other hxd hxi, if_neg (by tauto), add_zero]

omit g h in
/-- Every entry after an erasure was there before. -/
theorem unlink_mem (hk : 2 ≤ k) (hne : i ≠ dp) {z : Nat} {d : Dirent}
    (hd : d ∈ ((Effect.unlink dp i k).apply ino z).tail) : d ∈ (ino z).tail ∨ d.inum = 0 := by
  by_cases hzd : z = dp
  · subst hzd
    rw [unlink_dp] at hd
    have hset : d ∈ (ino z).tail.set (k - 2) ⟨0, []⟩ := by
      rw [← without_tail hk]
      exact hd
    rcases mem_or_eq_of_mem_set hset with h | h
    · exact Or.inl h
    · exact Or.inr (by rw [h])
  · by_cases hzi : z = i
    · subst hzi
      rw [unlink_i hne] at hd
      exact Or.inl hd
    · rw [unlink_other hzd hzi] at hd
      exact Or.inl hd

theorem Graph.unlink_node (x : Nat) : NodeOk x ((Effect.unlink dp i k).apply ino x) := by
  have hne := h.unlink_ne
  obtain ⟨hdp, hk, ⟨name, hslot⟩, hi, -⟩ := h
  have hlink : 0 < linkCount ino i :=
    linkCount_pos_of_mem (g.lt_of_dir hdp).2 hdp (mem_tail_of_slot hk hslot)
  by_cases hxd : x = dp
  · subst hxd
    rw [unlink_dp]
    refine ⟨?_, fun _ => g.lt_of_dir hdp, fun _ => (g.shape hdp).without hk, ?_⟩
    · intro hf
      have hfree : (ino x).type = .free := hf
      rw [hdp] at hfree
      cases hfree
    · intro hf
      exact absurd hdp hf
  · by_cases hxi : x = i
    · subst hxi
      rw [unlink_i hne]
      obtain ⟨-, hlt, hshape, hleaf⟩ := g.node x
      refine ⟨?_, hlt, hshape, hleaf⟩
      intro hf
      rw [g.linkCount_free hf (by omega)] at hlink
      omega
    · rw [unlink_other hxd hxi]
      exact g.node x

/-- A directory has one entry; the removed one leaves it detached. -/
theorem Graph.unlink_dir_count (hdir : (ino i).type = .dir) :
    linkCount ino i = 1 ∧ childCount ino i = 0 ∧ i ≠ rootino ∧ (ino i).parent = dp := by
  obtain ⟨hdp, hk, ⟨name, hslot⟩, hi, hempty⟩ := h
  have hmem := mem_tail_of_slot hk hslot
  have hlink : 0 < linkCount ino i := linkCount_pos_of_mem (g.lt_of_dir hdp).2 hdp hmem
  have hroot : i ≠ rootino := by
    rintro rfl
    rw [g.root_links] at hlink
    omega
  have hone := g.single i hdir
  exact ⟨by omega, g.childCount_empty hroot (isdirempty_iff.mp (hempty hdir)), hroot,
    g.inParent dp ⟨i, name⟩ hdp hmem hdir⟩

theorem Graph.unlink_childCount (j : Nat) :
    childCount ino j = childCount ((Effect.unlink dp i k).apply ino) j +
      if (ino i).type = .dir ∧ j = dp then 1 else 0 := by
  have hmore := g.unlink_oneMore h
  have hi : i ≠ 0 := h.2.2.2.1
  have hzero : ((Effect.unlink dp i k).apply ino 0).type ≠ .dir := by
    rw [unlink_type, g.zero_free]
    decide
  have hrest : ∀ y, y ≠ i → childAt ino j y = childAt ((Effect.unlink dp i k).apply ino) j y :=
    fun y hy => hmore.childAt_eq hzero hy
  by_cases hdir : (ino i).type = .dir
  · obtain ⟨hone, -, hroot, hparent⟩ := g.unlink_dir_count h hdir
    have hchange := childCount_change (g.lt_of_dir hdir).2 hrest
    have hcount := hmore.linkCount_eq hi
    rw [if_pos rfl] at hcount
    have hnew : childAt ((Effect.unlink dp i k).apply ino) j i = 0 := by
      refine if_neg fun hc => ?_
      have hpos := hc.2.1.resolve_left hroot
      omega
    have hold : childAt ino j i = if j = dp then 1 else 0 := by
      have hatt : Attached ino i := Or.inr (by omega)
      simp [childAt, hdir, hatt, hparent, eq_comm]
    simp only [hdir, true_and]
    omega
  · rw [if_neg (by tauto), add_zero]
    apply childCount_congr
    intro y
    by_cases hy : y = i
    · subst hy
      simp [childAt, unlink_type, hdir]
    · exact hrest y hy

/-- Removing an entry, together with the link it is worth, keeps the link graph. -/
theorem Graph.unlink : Graph ((Effect.unlink dp i k).apply ino) := by
  have hmore := g.unlink_oneMore h
  have hchild := g.unlink_childCount h
  have hne := h.unlink_ne
  have hdp := h.1
  have hk := h.2.1
  have hcount : ∀ j, j ≠ 0 →
      linkCount ino j = linkCount ((Effect.unlink dp i k).apply ino) j + if j = i then 1 else 0 :=
    fun j hj => hmore.linkCount_eq hj
  refine ⟨g.unlink_node h, ?_, ?_, ?_, ?_, ?_, ?_, ?_⟩
  · rw [unlink_type]
    exact g.root_dir
  · rw [unlink_parent hk]
    exact g.root_parent
  · have hroot := hcount rootino (by decide)
    rw [g.root_links] at hroot
    omega
  · intro j hj
    rw [unlink_type] at hj
    have hnlink := g.nlink_dir j hj
    have hj0 := g.ne_zero_of_dir hj
    rw [hcount j hj0, hchild j] at hnlink
    by_cases hji : j = i
    · subst hji
      rw [unlink_i hne]
      simp only [if_true, hne, and_false, if_false] at hnlink ⊢
      omega
    · by_cases hjd : j = dp
      · subst hjd
        rw [unlink_dp]
        simp only [hji, if_false, and_true, backLink] at hnlink ⊢
        split at hnlink <;> rename_i hdir <;> simp only [hdir, if_true, if_false] <;> omega
      · rw [unlink_other hjd hji]
        simp only [hji, if_false, hjd, and_false] at hnlink
        omega
  · intro j hj0 hj
    rw [unlink_type] at hj
    have hle := g.nlink_leaf j hj0 hj
    rw [hcount j (by omega)] at hle
    have hjd : j ≠ dp := by
      rintro rfl
      exact hj hdp
    by_cases hji : j = i
    · subst hji
      rw [unlink_i hne]
      simp only [if_true] at hle ⊢
      omega
    · rw [unlink_other hjd hji]
      simp only [hji, if_false, add_zero] at hle
      exact hle
  · intro j hj
    rw [unlink_type] at hj
    have hone := g.single j hj
    have := hcount j (g.ne_zero_of_dir hj)
    omega
  · intro z d hz hd hdir
    rw [unlink_type] at hz hdir
    rw [unlink_parent hk]
    rcases unlink_mem hk hne hd with hd | hzero
    · exact g.inParent z d hz hd hdir
    · rw [hzero, g.zero_free] at hdir
      cases hdir

end

end Less

section Free

variable {ino : Nat → Inode} {i x : Nat}

theorem free_i : (Effect.free i).apply ino i = zero := by
  simp [Effect.apply]

theorem free_other (h : x ≠ i) : (Effect.free i).apply ino x = ino x := by
  simp [Effect.apply, h]

section

variable (g : Graph ino) (h : (Effect.free i).Enabled ino)

include g h

theorem Graph.free_pos : 0 < i ∧ i < ninodes :=
  (g.node i).2.1 h.1

/-- An inode without links has no entry, and is not the root. -/
theorem Graph.free_detached : linkCount ino i = 0 ∧ i ≠ rootino := by
  constructor
  · by_cases hdir : (ino i).type = .dir
    · have hnlink := g.nlink_dir i hdir
      rw [h.2] at hnlink
      omega
    · have hle := (g.nlink_leaf i (g.free_pos h).1 hdir).1
      rw [h.2] at hle
      omega
  · rintro rfl
    have hpos := g.nlink_root
    rw [h.2] at hpos
    omega

/-- An inode without links has no entries for directories. -/
theorem Graph.free_links_dir (hx : (ino x).type = .dir) : (ino i).links x = 0 := by
  by_cases hdir : (ino i).type = .dir
  · by_contra hne
    unfold links at hne
    rw [if_pos hdir] at hne
    obtain ⟨d, hd, heq⟩ := countP_pos_iff.mp (Nat.pos_of_ne_zero hne)
    obtain rfl : x = d.inum := of_decide_eq_true heq
    have hatt : Attached ino d.inum := Or.inr (linkCount_pos_of_mem (g.free_pos h).2 hdir hd)
    have hchild := childCount_pos (g.lt_of_dir hx).2 hx hatt
    rw [g.inParent i d hdir hd hx] at hchild
    have hnlink := g.nlink_dir i hdir
    rw [h.2] at hnlink
    omega
  · exact links_leaf hdir x

theorem Graph.free_linkCount (j : Nat) :
    linkCount ((Effect.free i).apply ino) j + (ino i).links j = linkCount ino j := by
  have hrest : ∀ y, y ≠ i → ((Effect.free i).apply ino y).links j = (ino y).links j := by
    intro y hy
    rw [free_other hy]
  have hchange := linkCount_change (g.free_pos h).2 hrest
  have hzero : ((Effect.free i).apply ino i).links j = 0 := by
    rw [free_i]
    rfl
  omega

theorem Graph.free_childAt (j x : Nat) :
    childAt ((Effect.free i).apply ino) j x = childAt ino j x := by
  obtain ⟨hcount, hroot⟩ := g.free_detached h
  unfold childAt
  by_cases hx : x = i
  · subst hx
    rw [free_i, if_neg (by simp [zero]), if_neg]
    rintro ⟨-, hatt, -⟩
    have hpos := hatt.resolve_left hroot
    omega
  · rw [free_other hx]
    by_cases hdir : (ino x).type = .dir
    · have hsame := g.free_linkCount h x
      rw [g.free_links_dir h hdir, add_zero] at hsame
      have hatt : Attached ((Effect.free i).apply ino) x ↔ Attached ino x := by
        unfold Attached
        rw [hsame]
      simp only [hatt]
    · simp [hdir]

/-- Freeing an inode without links keeps the link graph. -/
theorem Graph.free : Graph ((Effect.free i).apply ino) := by
  obtain ⟨hcount, hroot⟩ := g.free_detached h
  have hlinks := g.free_linkCount h
  have hchild : ∀ j, childCount ((Effect.free i).apply ino) j = childCount ino j :=
    fun j => childCount_congr fun y => g.free_childAt h j y
  have hdir_ne : ∀ j, ((Effect.free i).apply ino j).type = .dir → j ≠ i := by
    rintro j hj rfl
    rw [free_i] at hj
    cases hj
  have hdir_count : ∀ j, (ino j).type = .dir →
      linkCount ((Effect.free i).apply ino) j = linkCount ino j := by
    intro j hj
    have hsame := hlinks j
    rw [g.free_links_dir h hj] at hsame
    exact hsame
  refine ⟨?_, ?_, ?_, ?_, ?_, ?_, ?_, ?_⟩
  · intro x
    by_cases hx : x = i
    · subst hx
      rw [free_i]
      exact ⟨fun _ => rfl, fun h => absurd rfl h, fun h => (by cases h), fun _ => rfl⟩
    · rw [free_other hx]
      exact g.node x
  · rw [free_other hroot.symm]
    exact g.root_dir
  · rw [free_other hroot.symm]
    exact g.root_parent
  · rw [hdir_count _ g.root_dir]
    exact g.root_links
  · intro j hj
    have hne := hdir_ne j hj
    rw [free_other hne] at hj ⊢
    rw [hdir_count j hj, hchild]
    exact g.nlink_dir j hj
  · intro j hj0 hj
    have hsum := hlinks j
    by_cases hji : j = i
    · subst hji
      rw [free_i]
      have hzero : (zero).nlink = 0 := rfl
      omega
    · rw [free_other hji] at hj ⊢
      have hle := g.nlink_leaf j hj0 hj
      omega
  · intro j hj
    have hne := hdir_ne j hj
    rw [free_other hne] at hj
    rw [hdir_count j hj]
    exact g.single j hj
  · intro z d hz hd hdir
    have hzne := hdir_ne z hz
    have hdne := hdir_ne _ hdir
    rw [free_other hzne] at hz hd
    rw [free_other hdne] at hdir ⊢
    exact g.inParent z d hz hd hdir

end

end Free

/-- Every effect keeps the invariant of the link graph. -/
theorem Graph.apply {ino : Nat → Inode} (g : Graph ino) (e : Effect) (h : e.Enabled ino) :
    Graph (e.apply ino) := by
  cases e with
  | link dp i name => exact g.link h
  | create dp i name type => exact g.create h
  | unlink dp i k => exact g.unlink h
  | free i => exact g.free h

section Evolves

variable {G : (Nat → Inode) → Effect → Prop} {P : (Nat → Inode) → Prop} {ino ino' : Nat → Inode}

/-- `ino'` comes from `ino` by effects that can take place and meet `G` when they do. -/
inductive Evolves (G : (Nat → Inode) → Effect → Prop) (ino : Nat → Inode) :
    (Nat → Inode) → Prop
  | refl : Evolves G ino ino
  | step {ino' : Nat → Inode} (h : Evolves G ino ino') (e : Effect) (he : e.Enabled ino')
      (hG : G ino' e) : Evolves G ino (e.apply ino')

theorem Evolves.one (e : Effect) (he : e.Enabled ino) (hG : G ino e) :
    Evolves G ino (e.apply ino) :=
  Evolves.refl.step e he hG

theorem Evolves.trans {ino'' : Nat → Inode} (h : Evolves G ino ino') (h' : Evolves G ino' ino'') :
    Evolves G ino ino'' := by
  induction h' with
  | refl => exact h
  | step _ e he hG ih => exact ih.step e he hG

/-- A property that every effect keeps holds at the end. -/
theorem Evolves.preserves (g : Graph ino) (h₀ : P ino)
    (hstep : ∀ ino e, Graph ino → P ino → e.Enabled ino → G ino e → P (e.apply ino))
    (h : Evolves G ino ino') : Graph ino' ∧ P ino' := by
  induction h with
  | refl => exact ⟨g, h₀⟩
  | step _ e he hG ih => exact ⟨ih.1.apply e he, hstep _ e ih.1 ih.2 he hG⟩

end Evolves

end FogOS.Dir
