import FogOS.Dir.Ops

/-!
# `create` as an effect

`create` adds one inode with its entry, finds the file that is there, or leaves the
inodes as they were, whatever step fails.
-/

namespace FogOS.Dir

open Function Library List Tree Effect

section Create

variable {G : (Nat → Inode) → Effect → Prop} {b t : Tree} {X V : List Nat} {dp i cwd : Nat}
  {name : Name} {type : InodeType} {E : DirPanic → Prop}

/-- The tree after `ialloc` has chosen inode `i`. -/
def Tree.allocated (t : Tree) (i : Nat) (type : InodeType) : Tree :=
  ((t.setInode i ⟨type, 0, []⟩).setRef i 1).setValid i false

theorem ialloc_spec (ht : t.Sound) :
    wp (ialloc type) (fun r t' =>
      match r with
      | none => t' = t
      | some i => (0 < i ∧ i < ninodes) ∧ (t.inodes i).type = .free ∧ t' = t.allocated i type)
      (NoType b) t := by
  unfold ialloc
  simp only [wp_bind, wp_get]
  cases hfind : (range' 1 (ninodes - 1)).find? fun i => (t.inodes i).type = .free with
  | none => rfl
  | some i =>
    have hfree : (t.inodes i).type = .free := by simpa using find?_some hfind
    have hmem := mem_range'_1.mp (mem_of_find?_eq_some hfind)
    have hrange : 0 < i ∧ i < ninodes := by
      omega
    have hzero : t.ref i = 0 := by
      by_contra hpos
      exact ht.live i (by omega) hfree
    unfold iget
    simp only [wp_bind, wp_set, wp_get, wp_ite, wp_throw, wp_pure]
    refine ⟨fun hpos => ?_, fun _ => ⟨fun _ => ⟨hrange, hfree, rfl⟩, fun _ => Or.inl rfl⟩⟩
    have hpos' : 0 < t.ref i := hpos
    omega

/-- An entry of the new directory itself. -/
theorem dirlink_self {des : List Dirent} {de : Dirent} (rs : List Bool)
    (hfresh : findName de.name des = none) :
    wp (dirlink i de.name de.inum) (fun r t' => ∃ rs,
      (r = false ∧ t' = (t.setInode i ⟨.dir, 1, des⟩).refused rs) ∨
      (r = true ∧ t' = (t.setInode i ⟨.dir, 1, putDirent de des⟩).refused rs)) E
      ((t.setInode i ⟨.dir, 1, des⟩).refused rs) := by
  have hsame : ((t.setInode i ⟨.dir, 1, des⟩).refused rs).inodes i = ⟨.dir, 1, des⟩ :=
    update_self _ _ _
  apply wp_mono (dirlink_fresh (by rw [hsame]) (by rw [hsame]; exact hfresh)) ?_ fun _ he => he
  rintro r t' ⟨rs', hr⟩
  refine ⟨rs', ?_⟩
  simpa [setInode, refused, Inode.withEntry] using hr

/-- What `create` has written after `createEntries`: all entries, or none outside the new
inode. -/
def Entered (t : Tree) (dp i : Nat) (name : Name) (type : InodeType) (r : Bool) (t' : Tree) :
    Prop :=
  ∃ rs, (r = false ∧ ∃ des, t' = (t.setInode i ⟨type, 1, des⟩).refused rs) ∨
    (r = true ∧ t' = ((t.setInode i (newInode dp i type)).setInode dp
      ((t.inodes dp).withEntry ⟨i, name⟩)).refused rs)

/-- The entry in the parent, once the new inode is complete. -/
theorem dirlink_parent {des : List Dirent} (rs : List Bool)
    (hnew : newInode dp i type = ⟨type, 1, des⟩) (hne : i ≠ dp)
    (hdir : (t.inodes dp).type = .dir) (hfresh : findName name (t.inodes dp).dirents = none) :
    wp (dirlink dp name i) (Entered t dp i name type) E
      ((t.setInode i ⟨type, 1, des⟩).refused rs) := by
  have hsame : ((t.setInode i ⟨type, 1, des⟩).refused rs).inodes dp = t.inodes dp :=
    update_of_ne hne.symm _ _
  apply wp_mono (dirlink_fresh (by rw [hsame]; exact hdir) (by rw [hsame]; exact hfresh)) ?_
    fun _ he => he
  rintro r t' ⟨rs', hr⟩
  rw [hsame, ← hnew] at hr
  rcases hr with ⟨hr, ht'⟩ | ⟨hr, ht'⟩
  · exact ⟨rs', Or.inl ⟨hr, des, by rw [← hnew]; exact ht'⟩⟩
  · exact ⟨rs', Or.inr ⟨hr, ht'⟩⟩

theorem createEntries_spec (rs : List Bool) (hne : i ≠ dp) (hpos : i ≠ 0)
    (hdir : (t.inodes dp).type = .dir) (hfresh : findName name (t.inodes dp).dirents = none) :
    wp (createEntries dp name type i) (Entered t dp i name type) E
      ((t.setInode i ⟨type, 1, []⟩).refused rs) := by
  unfold createEntries
  by_cases hd : type = .dir
  · subst hd
    apply wp_seq (@dirlink_self t i E [] ⟨i, dot⟩ rs rfl)
    rintro r t₁ ⟨rs₁, ⟨rfl, rfl⟩ | ⟨rfl, rfl⟩⟩
    · exact ⟨rs₁, Or.inl ⟨rfl, [], rfl⟩⟩
    · apply wp_seq (@dirlink_self t i E _ ⟨dp, dotdot⟩ rs₁
        (by simp [putDirent, findName, dot, dotdot]))
      rintro r t₂ ⟨rs₂, ⟨rfl, rfl⟩ | ⟨rfl, rfl⟩⟩
      · exact ⟨rs₂, Or.inl ⟨rfl, _, rfl⟩⟩
      · apply dirlink_parent rs₂ _ hne hdir hfresh
        simp [newInode, putDirent, hpos]
  · rw [if_neg hd]
    exact dirlink_parent rs (by simp [newInode, hd]) hne hdir hfresh

/-- The effect of `create` keeps the invariant of any tree with these inodes. -/
theorem Tree.Ok.create (ht : t.Ok) (he : (Effect.create dp i name type).Enabled t.inodes) :
    (t.withInodes ((Effect.create dp i name type).apply t.inodes)).Ok := by
  refine ⟨?_, ht.graph.create he⟩
  obtain ⟨hdp, hfree, hpos, -, htype, -⟩ := he
  have hne : i ≠ dp := by
    rintro rfl
    rw [hdp] at hfree
    cases hfree
  rw [apply_create]
  apply ht.toSound.withInodes
  · intro j _ hzero
    left
    by_cases hjd : j = dp
    · subst hjd
      rw [addEntry_dp] at hzero
      have hnlink : (t.inodes j).nlink + backLink type = 0 := hzero
      have hbounds := (ht.graph.nlink_bounds (ht.graph.lt_of_dir hdp).1).1
      refine ⟨by rw [hdp]; decide, ?_⟩
      unfold backLink at hnlink
      split at hnlink <;> omega
    · by_cases hji : j = i
      · subst hji
        rw [addEntry_i hne, newInode_nlink] at hzero
        cases hzero
      · rw [addEntry_other hjd hji] at *
        exact ⟨by assumption, hzero⟩
  · intro j hj
    by_cases hjd : j = dp
    · subst hjd
      rw [addEntry_dp]
      exact hj
    · by_cases hji : j = i
      · subst hji
        exact absurd hfree hj
      · rw [addEntry_other hjd hji]
        exact hj

/-- The reference and the `valid` flag of a new inode. -/
def Tree.taken (t : Tree) (i : Nat) : Tree := (t.setRef i 1).setValid i true

theorem createStart_spec (htype : type ≠ .free) :
    wp (do ilock i; setNlink i 1)
      (fun _ t' => t' = ((t.taken i).setInode i ⟨type, 1, []⟩).refused t.refusals) E
      (t.allocated i type) := by
  have hself : (t.allocated i type).inodes i = ⟨type, 0, []⟩ := update_self _ _ _
  have href : (t.allocated i type).ref i = 1 := update_self _ _ _
  have hvalid : (t.allocated i type).valid i = false := update_self _ _ _
  unfold ilock setNlink
  simp only [wp_bind, wp_get, wp_ite, wp_set, wp_throw, wp_pure, wp_modify, href, hvalid, hself]
  refine ⟨fun h => by omega, fun _ => ⟨fun h => (by cases h), fun _ => ⟨fun h => absurd h htype,
    fun _ => ?_⟩⟩⟩
  have hone : short 1 = 1 := short_eq (by decide) (by decide)
  have hinode : ((t.allocated i type).setValid i true).inodes i = ⟨type, 0, []⟩ := hself
  rw [hinode, hone]
  simp [allocated, taken, setInode, setRef, setValid, refused]

/-- The failing end of `create` takes the new inode back. -/
theorem createFail_spec {des : List Dirent} (rs : List Bool) (href : t.ref i = 0)
    (hzero : t.inodes i = Inode.zero) :
    wp (do setNlink i 0; iput i) (fun _ t' => t' = (t.setValid i false).refused rs) E
      (((t.taken i).setInode i ⟨type, 1, des⟩).refused rs) := by
  have hlast : ((((t.taken i).setInode i ⟨type, 1, des⟩).refused rs).setInode i
      ⟨type, 0, des⟩).Last i := by
    simp [Tree.Last, taken, setInode, setRef, setValid, refused]
  have hshort : short 0 = 0 := short_eq (by decide) (by decide)
  have hself : (((t.taken i).setInode i ⟨type, 1, des⟩).refused rs).inodes i = ⟨type, 1, des⟩ :=
    update_self _ _ _
  unfold setNlink
  simp only [wp_bind, wp_modify, wp_iput, hself, hshort]
  unfold put
  simp only [if_pos hlast]
  have hinode : update t.inodes i ⟨.free, 0, []⟩ = t.inodes := by
    rw [show (⟨.free, 0, []⟩ : Inode) = t.inodes i from hzero.symm, update_eq_self]
  have hcount : update t.ref i 0 = t.ref := by
    rw [← href, update_eq_self]
  simp [taken, setInode, setRef, setValid, refused, hinode, hcount]

/-- The link that a new directory gives to its parent is counted. -/
theorem createParent_spec (rs : List Bool) (g : Graph t.inodes) (hdir : (t.inodes dp).type = .dir) :
    wp (if type = .dir then addNlink dp 1 else pure ())
      (fun _ t' => t' = (t.withInodes ((Effect.create dp i name type).apply t.inodes)).refused rs) E
      (((t.setInode i (newInode dp i type)).setInode dp
        ((t.inodes dp).withEntry ⟨i, name⟩)).refused rs) := by
  have hself : (((t.setInode i (newInode dp i type)).setInode dp
      ((t.inodes dp).withEntry ⟨i, name⟩)).refused rs).inodes dp =
      (t.inodes dp).withEntry ⟨i, name⟩ := update_self _ _ _
  have hlo := (g.nlink_bounds (g.lt_of_dir hdir).1).1
  have hhi := g.nlink_dir_le hdir
  have hshort : short ((t.inodes dp).nlink + 1) = (t.inodes dp).nlink + 1 :=
    short_eq (by omega) (by omega)
  have hnlink : ((t.inodes dp).withEntry ⟨i, name⟩).nlink = (t.inodes dp).nlink := rfl
  unfold addNlink
  simp only [wp_ite, wp_modify, wp_pure, hself, hnlink, hshort]
  constructor
  · rintro rfl
    simp [setInode, refused, withInodes, apply, backLink]
  · intro hd
    simp [setInode, refused, withInodes, apply, backLink, hd, Inode.withEntry]

theorem createInode_spec (hb : b.Ok) (h : Holding b [dp] [dp] t)
    (he : (Effect.create dp i name type).Enabled b.inodes)
    (hfresh : findName name (b.inodes dp).dirents = none)
    (hG : G b.inodes (.create dp i name type)) :
    wp (createInode dp name type i) (fun r t' =>
      match r with
      | none => Holding b [] [] t'
      | some i => After G b [i] [i] t') E (t.allocated i type) := by
  have hbNew := hb.create he
  have hino := h.inodes
  have htNew := (h.ok hb).create (t := t) (by rw [hino]; exact he)
  obtain ⟨hdir, hfree, hpos, -, htype, -⟩ := id he
  have hne : i ≠ dp := by
    rintro rfl
    rw [hdir] at hfree
    cases hfree
  have href : t.ref i = 0 := by
    by_contra hr
    exact h.sound.live i (by omega) (by rw [hino]; exact hfree)
  have hrefb : b.ref i = 0 := by
    have hsum := h.ref i
    omega
  have hput : ∀ b' t' X, b'.Sound → Holding b' (dp :: X) X t' →
      wp (iput dp) (fun _ t' => Holding b' X X t') E t' :=
    fun b' t' X hb' h' => iput_holding hb' h' fun j hj => hj
  apply wp_seq_two (createStart_spec htype)
  rintro - _ rfl
  apply wp_seq (createEntries_spec t.refusals hne (by omega) (by rw [← hino] at hdir; exact hdir)
    (by rw [← hino] at hfresh; exact hfresh))
  rintro r t₁ ⟨rs, ⟨rfl, des, rfl⟩ | ⟨rfl, rfl⟩⟩
  · have hzero : t.inodes i = Inode.zero := by
      rw [hino]
      exact (hb.graph.node i).1 hfree
    apply wp_seq_two (createFail_spec rs href hzero)
    rintro - _ rfl
    have h₁ : Holding b [dp] [] ((t.setValid i false).refused rs) :=
      Holding.refused ⟨h.sound.setValid (Or.inr (Or.inr href)), hino, h.ref, by simp⟩ rs
    apply wp_seq (hput b _ [] hb.toSound h₁)
    intro _ t₂ h₂
    exact h₂
  · have hgraph : Graph (t.taken i).inodes := (h.ok hb).graph
    apply wp_seq_when (createParent_spec rs hgraph (by rw [← hino] at hdir; exact hdir))
    rintro _ rfl
    have hsame : (t.taken i).inodes = b.inodes := hino
    rw [hsame]
    have h₁ : Holding (b.withInodes ((Effect.create dp i name type).apply b.inodes)) [dp, i] [i]
        (((t.taken i).withInodes ((Effect.create dp i name type).apply b.inodes)).refused rs) := by
      have hnew : ((Effect.create dp i name type).apply b.inodes i).type ≠ .free ∧
          ((Effect.create dp i name type).apply b.inodes i).nlink = 1 := by
        rw [apply_create, addEntry_i hne, newInode_type]
        exact ⟨htype, newInode_nlink⟩
      rw [hino] at htNew
      have hok := (htNew.toSound.setRef (i := i) (n := 1) (fun _ => ⟨hnew.1, fun hz => by
        have hz' : ((Effect.create dp i name type).apply b.inodes i).nlink = 0 := hz
        omega⟩) (by omega)).setValid (i := i) (Or.inl (Eq.refl true))
      apply Holding.refused
      refine ⟨hok, rfl, ?_, ?_⟩
      · intro j
        have hsum := h.ref j
        by_cases hji : j = i
        · subst hji
          simp [taken, withInodes, setRef, setValid, hrefb, hne.symm]
        · simpa [taken, withInodes, setRef, setValid, hji, count_cons,
            Ne.symm hji] using hsum
      · intro j hj
        obtain rfl := mem_singleton.mp hj
        exact ⟨by simp, by simp [taken, withInodes, setValid]⟩
    apply wp_seq (hput _ _ [i] hbNew.toSound h₁)
    intro _ t₂ h₂
    exact ⟨_, hbNew, rfl, Evolves.one _ he hG, h₂⟩

/-- `create` adds at most one inode, in the directory that the path leads to. -/
theorem create_spec (hb : b.Ok) (hcwd : 0 < b.ref cwd) (path : List Char) (htype : type ≠ .free)
    (hG : ∀ dp name i, walk b.inodes cwd path true = some (dp, name) →
      G b.inodes (.create dp i name type)) :
    wp (create cwd path type) (fun r t' =>
      match r with
      | none => Holding b [] [] t'
      | some i => After G b [i] [i] t') (NoType b) b := by
  have hs := hb.toSound
  apply wp_seq (nameiparent_spec hs hs.holding (by simp) hcwd path)
  rintro (_ | ⟨dp, name⟩) t₁ ⟨hr, h₁⟩
  · exact h₁
  obtain ⟨h₁, hdir⟩ := h₁
  have hput : ∀ t', Holding b [dp] [dp] t' →
      wp (iput dp) (fun _ t' => Holding b [] [] t') (NoType b) t' := fun t' h' =>
    iput_holding hs (h'.unlock (by simp)) (by simp)
  apply wp_seq (ilock_holding h₁ mem_cons_self)
  intro _ t₂ h₂
  apply wp_seq (dirlookup_spec h₂ hdir)
  rintro (_ | ⟨ip, off⟩) t₃ ⟨hfind, h₃⟩
  · apply wp_seq (ialloc_spec h₃.sound)
    rintro (_ | i) t₄ h₄
    · rw [h₄]
      apply wp_seq (hput t₃ h₃)
      intro _ t₅ h₅
      exact h₅
    · obtain ⟨hrange, hfree, rfl⟩ := h₄
      rw [h₃.inodes] at hfree
      have hname := hb.graph.fresh_name hdir hfind.symm
      exact createInode_spec hb h₃ ⟨hdir, hfree, hrange.1, hrange.2, htype, hname⟩ hfind.symm
        (hG dp name i hr.symm)
  · obtain ⟨hgot, hlive⟩ := h₃
    apply wp_seq (iput_under hs (hgot.unlock (W := []) (by simp)) (by rw [hdir]; decide) (by simp))
    intro _ t₄ h₄
    apply wp_seq (ilock_got h₄ hlive)
    intro _ t₅ h₅
    rw [wp_bind, wp_get]
    have hdone : After G b [ip] [ip] t₅ := h₅.after hb
    have hback : wp (do iput ip; pure none) (fun r t' =>
        match r with
        | none => Holding b [] [] t'
        | some i => After G b [i] [i] t') (NoType b) t₅ := by
      apply wp_seq (iput_holding hs (h₅.unlock (W := []) (by simp)) (by simp))
      intro _ t₆ h₆
      exact h₆
    split
    · exact hdone
    · exact hdone
    · exact hback

end Create

end FogOS.Dir
