import FogOS.Dir.Ops

/-!
# `link` and `unlink` as effects

`link` raises the count of an inode before it looks for the new place; if there is
none, it takes the link back. `unlink` removes an entry, and giving back its two
references may free the directory and the inode.
-/

namespace FogOS.Dir

open Function Library List Option Tree Effect

section Link

variable {G : (Nat → Inode) → Effect → Prop} {b t : Tree} {X V : List Nat} {dp i cwd : Nat}
  {name : Name} {ino ino' : Nat → Inode} {E : DirPanic → Prop} {n : Int}

/-- The same inodes up to link counts. -/
def SameNames (ino ino' : Nat → Inode) : Prop :=
  ∀ x, (ino' x).type = (ino x).type ∧ (ino' x).dirents = (ino x).dirents

theorem SameNames.walkLoop (h : SameNames ino ino') (parent : Bool) (es : List Name)
    (name : Name) (ip : Nat) : walkLoop ino' parent es name ip = walkLoop ino parent es name ip := by
  induction es generalizing name ip with
  | nil => rfl
  | cons e es ih =>
    unfold Dir.walkLoop
    rw [(h ip).1, (h ip).2]
    simp only [ih]

theorem SameNames.walk (h : SameNames ino ino') (cwd : Nat) (path : List Char) (parent : Bool) :
    walk ino' cwd path parent = walk ino cwd path parent :=
  h.walkLoop parent _ _ _

theorem SameNames.closed (h : SameNames ino ino') (hc : Closed ino) : Closed ino' := by
  intro z d hz hd hne
  rw [(h z).1] at hz
  rw [(h z).2] at hd
  rw [(h _).1]
  exact hc z d hz hd hne

/-- The inodes with another link count for `i`. -/
def relink (ino : Nat → Inode) (i : Nat) (n : Int) : Nat → Inode :=
  update ino i { ino i with nlink := n }

theorem sameNames_relink (ino : Nat → Inode) (i : Nat) (n : Int) :
    SameNames ino (relink ino i n) := by
  intro x
  by_cases hx : x = i
  · subst hx
    simp [relink]
  · simp [relink, hx]

theorem relink_other {x : Nat} (h : x ≠ i) : relink ino i n x = ino x := by
  simp [relink, h]

/-- The tree in the middle of `link`: the count of `i` has been raised, and may have wrapped. -/
def Tree.raised (b : Tree) (i : Nat) : Tree :=
  b.withInodes (relink b.inodes i (short ((b.inodes i).nlink + 1)))

/-- A count that wraps becomes negative. -/
theorem Tree.Sound.raised (hb : b.Sound)
    (hbounds : 0 ≤ (b.inodes i).nlink ∧ (b.inodes i).nlink ≤ 32767) : (b.raised i).Sound := by
  have hsame := sameNames_relink b.inodes i (short ((b.inodes i).nlink + 1))
  apply hb.withInodes
  · intro j htype hzero
    have hji : j ≠ i := by
      rintro rfl
      have hzero' : short ((b.inodes j).nlink + 1) = 0 := by
        simpa [Dir.relink] using hzero
      rw [short_succ hbounds] at hzero'
      split at hzero' <;> omega
    rw [relink_other hji] at htype hzero
    exact Or.inl ⟨htype, hzero⟩
  · intro j hj
    rw [(hsame j).1]
    exact hj

theorem linkBad_spec (hb : b.Sound) (h : Holding (b.raised i) [i] [i] t)
    (hbounds : 0 ≤ (b.inodes i).nlink ∧ (b.inodes i).nlink ≤ 32767) {fits : Prop} :
    wp (linkBad i) (Outcome G fits b) E t := by
  apply wp_seq (ilock_holding h mem_cons_self)
  intro _ t₁ h₁
  have hino : t₁.inodes = relink b.inodes i (short ((b.inodes i).nlink + 1)) := h₁.inodes
  have hback : t₁.setInode i { t₁.inodes i with nlink := short ((t₁.inodes i).nlink + -1) } =
      t₁.withInodes b.inodes := by
    have hshort : short (short ((b.inodes i).nlink + 1) + -1) = (b.inodes i).nlink := by
      rw [short_succ hbounds]
      split
      · rw [short_eq (by omega) (by omega)]
        omega
      · have hmax : (b.inodes i).nlink = 32767 := by omega
        rw [hmax]
        rfl
    simp [setInode, withInodes, hino, Dir.relink, hshort]
  have hok : (t₁.withInodes b.inodes).Sound := by
    apply h₁.sound.withInodes
    · intro j htype hzero
      by_cases hji : j = i
      · subst hji
        exact Or.inr ⟨h₁.pos mem_cons_self, (h₁.locked j mem_cons_self).2⟩
      · left
        rw [hino, relink_other hji]
        exact ⟨htype, hzero⟩
    · intro j hj
      rw [hino, (sameNames_relink _ _ _ j).1] at hj
      exact hj
  have h₂ : Holding b [i] [] (t₁.withInodes b.inodes) :=
    ⟨hok, rfl, h₁.ref, by simp⟩
  unfold addNlink
  rw [wp_bind, wp_modify]
  simp only [hback]
  apply wp_seq (iput_holding hb h₂ (by simp))
  intro _ t₃ h₃
  exact h₃

theorem Tree.Sound.link (ht : t.Sound) (he : (Effect.link dp i name).Enabled ino) (g : Graph ino)
    (hino : SameNames ino t.inodes) (hnlink : ∀ j, j ≠ i → (t.inodes j).nlink = (ino j).nlink) :
    (t.withInodes ((Effect.link dp i name).apply ino)).Sound := by
  obtain ⟨hdp, hleaf, hfree, -, -⟩ := he
  have hne : i ≠ dp := by
    rintro rfl
    exact hleaf hdp
  rw [apply_link]
  have hpos := ((g.node i).2.1 hfree).1
  have hle := (g.nlink_leaf i hpos hleaf).1
  apply ht.withInodes
  · intro j _ hzero
    left
    by_cases hjd : j = dp
    · subst hjd
      rw [addEntry_dp] at hzero
      rw [hnlink j hne.symm, (hino j).1, hdp]
      exact ⟨by decide, hzero⟩
    · have hji : j ≠ i := by
        rintro rfl
        rw [addEntry_i hne] at hzero
        have hzero' : (ino j).nlink + 1 = 0 := hzero
        omega
      rw [addEntry_other hjd hji] at *
      rw [hnlink j hji, (hino j).1]
      exact ⟨by assumption, hzero⟩
  · intro j hj
    rw [(hino j).1] at hj
    by_cases hjd : j = dp
    · subst hjd
      rw [addEntry_dp]
      exact hj
    · by_cases hji : j = i
      · subst hji
        rw [addEntry_i hne]
        exact hj
      · rw [addEntry_other hjd hji]
        exact hj

theorem linkEntry_spec (hb : b.Ok) (h : Holding (b.raised i) [i] [i] t) (hcwd : 0 < b.ref cwd)
    (new : List Char) (hleaf : (b.inodes i).type ≠ .dir) (hfree : (b.inodes i).type ≠ .free)
    (hG : ∀ dp name, walk b.inodes cwd new true = some (dp, name) → G b.inodes (.link dp i name)) :
    wp (linkEntry cwd new i) (Outcome G ((b.inodes i).nlink < 32767) b) (NoType (b.raised i)) t := by
  have hbounds := hb.graph.nlink_bounds ((hb.graph.node i).2.1 hfree).1
  have hb' := hb.toSound.raised hbounds
  have hsame := sameNames_relink b.inodes i (short ((b.inodes i).nlink + 1))
  have hbad : ∀ t', Holding (b.raised i) [i] [i] t' → wp (linkBad i)
      (Outcome G ((b.inodes i).nlink < 32767) b) (NoType (b.raised i)) t' :=
    fun t' h' => linkBad_spec hb.toSound h' hbounds
  apply wp_seq (nameiparent_spec hb' h (by simp) hcwd new)
  rintro (_ | ⟨dp, name⟩) t₁ ⟨hr, h₁⟩
  · exact hbad t₁ h₁
  obtain ⟨h₁, hdir⟩ := h₁
  have hwalk : walk b.inodes cwd new true = some (dp, name) := by
    rw [hr]
    exact (hsame.walk cwd new true).symm
  have hdir' : (b.inodes dp).type = .dir := by
    rw [← (hsame dp).1]
    exact hdir
  have hne : dp ≠ i := by
    rintro rfl
    exact hleaf hdir'
  apply wp_seq (ilock_holding h₁ mem_cons_self)
  intro _ t₂ h₂
  apply wp_seq (dirlink_holding hb' h₂ (fun j hj => hj) hdir)
  rintro r t₃ (⟨rfl, h₃⟩ | ⟨rfl, hfresh, t₀, h₀, rfl⟩)
  · apply wp_seq (iput_holding hb' (h₃.unlock (W := [i]) (by simp)) (by simp))
    intro _ t₄ h₄
    exact hbad t₄ h₄
  · have hdp : (b.raised i).inodes dp = b.inodes dp := relink_other hne
    by_cases hmax : (b.inodes i).nlink < 32767
    swap
    · exact fun hlt => absurd hlt hmax
    have he : (Effect.link dp i name).Enabled b.inodes :=
      ⟨hdir', hleaf, hfree, hmax, hb.graph.fresh_name hdir' (by rw [← hdp]; exact hfresh)⟩
    have happly : update (b.raised i).inodes dp
        (((b.raised i).inodes dp).withEntry ⟨i, name⟩) = (Effect.link dp i name).apply b.inodes := by
      rw [hdp, raised, short_eq (by omega) (by omega)]
      rfl
    have hbNew := hb.toSound.link he hb.graph (fun x => ⟨rfl, rfl⟩) fun j _ => rfl
    have htNew := h₀.sound.link he hb.graph (by rw [h₀.inodes]; exact hsame) fun j hj => by
      rw [h₀.inodes]
      exact congrArg Inode.nlink (relink_other hj)
    rw [happly]
    have h₃ : Holding (b.withInodes ((Effect.link dp i name).apply b.inodes)) [dp, i] []
        (t₀.withInodes ((Effect.link dp i name).apply b.inodes)) :=
      ⟨htNew, rfl, h₀.ref, by simp⟩
    apply wp_seq (iput_holding hbNew h₃ (by simp))
    intro _ t₄ h₄
    apply wp_seq (iput_holding hbNew h₄ (by simp))
    intro _ t₅ h₅
    exact fun _ => ⟨_, ⟨hbNew, hb.graph.link he⟩, rfl, Evolves.one _ he (hG dp name hwalk), h₅⟩

/-- `link` adds at most one entry, in the directory that the new path leads to. -/
theorem link_spec (hb : b.Ok) (hcwd : 0 < b.ref cwd) (old new : List Char)
    (hG : ∀ dp name i, walk b.inodes cwd new true = some (dp, name) →
      G b.inodes (.link dp i name)) :
    wp (link cwd old new) (Outcome G (∀ i name, walk b.inodes cwd old false = some (i, name) →
      (b.inodes i).nlink < 32767) b) (NoType b) b := by
  have hs := hb.toSound
  unfold link
  rw [wp_ite]
  refine ⟨fun _ => ?_, fun _ => hs.holding⟩
  apply wp_seq (namei_spec hs hs.holding (by simp) hcwd old)
  rintro (_ | i) t₁ ⟨hr, h₁⟩
  · exact h₁
  obtain ⟨⟨i', name⟩, hwalk, hi⟩ := map_eq_some_iff.mp hr.symm
  obtain rfl : i' = i := hi
  apply wp_seq (ilock_got h₁.1 h₁.2)
  intro _ t₂ h₂
  rw [wp_bind, wp_get, h₂.inodes, wp_ite]
  constructor
  · intro _
    apply wp_seq (iput_holding hs (h₂.unlock (W := []) (by simp)) (by simp))
    intro _ t₃ h₃
    exact h₃
  · intro hleaf
    have hfree := h₂.live mem_cons_self
    have hbounds := hb.graph.nlink_bounds ((hb.graph.node _).2.1 hfree).1
    have hup : t₂.setInode i' { t₂.inodes i' with nlink := short ((t₂.inodes i').nlink + 1) } =
        t₂.withInodes (b.raised i').inodes := by
      simp [setInode, withInodes, raised, Dir.relink, h₂.inodes]
    have hok : (t₂.withInodes (b.raised i').inodes).Sound := by
      have hraised := @Tree.Sound.raised t₂ i' h₂.sound (by rw [h₂.inodes]; exact hbounds)
      rw [raised, h₂.inodes] at hraised
      exact hraised
    have h₃ : Holding (b.raised i') [i'] [i'] _ := h₂.withInodes hok
    unfold addNlink
    rw [wp_bind, wp_modify]
    simp only [hup]
    apply wp_mono (linkEntry_spec hb h₃ hcwd new hleaf hfree fun dp name => hG dp name i')
    · intro r t' h
      cases r with
      | false => exact h
      | true => exact fun hmax => h (hmax _ _ hwalk)
    · rintro e (he | ⟨he, hclosed⟩)
      · exact Or.inl he
      · exact Or.inr ⟨he, fun hb => hclosed ((sameNames_relink _ _ _).closed hb)⟩

end Link

section Unlink

variable {G : (Nat → Inode) → Effect → Prop} {b t : Tree} {dp i k cwd : Nat} {name : Name}
  {E : DirPanic → Prop}

/-- A slot with another name than the first two is not one of them. -/
theorem Graph.slot_ge {ino : Nat → Inode} (g : Graph ino) (hdir : (ino dp).type = .dir)
    (hslot : (ino dp).dirents[k]? = some ⟨i, name⟩) (hname : ¬ (name = dot ∨ name = dotdot)) :
    2 ≤ k := by
  obtain ⟨p, tail, heq, -, -⟩ := g.shape hdir
  rw [heq] at hslot
  match k, hslot with
  | 0, hslot =>
    simp only [getElem?_cons_zero, some.injEq, Dirent.mk.injEq] at hslot
    exact absurd (Or.inl hslot.2.symm) hname
  | 1, hslot =>
    simp only [getElem?_cons_succ, getElem?_cons_zero, some.injEq, Dirent.mk.injEq] at hslot
    exact absurd (Or.inr hslot.2.symm) hname
  | k + 2, _ => omega

/-- An inode with an entry has a link. -/
theorem Graph.nlink_pos {ino : Nat → Inode} (g : Graph ino) (hdir : (ino dp).type = .dir)
    {d : Dirent} (hd : d ∈ (ino dp).tail) (hne : d.inum ≠ 0) : 1 ≤ (ino d.inum).nlink := by
  have hpos := linkCount_pos_of_mem (g.lt_of_dir hdir).2 hdir hd
  by_cases hleaf : (ino d.inum).type = .dir
  · have hlink := g.nlink_dir _ hleaf
    omega
  · have hlink := (g.nlink_leaf _ (Nat.pos_of_ne_zero hne) hleaf).1
    omega

/-- Giving back a reference does not read or change another inode. -/
theorem Tree.put_setInode {x : Inode} (h : i ≠ dp) :
    (t.put dp).setInode i x = (t.setInode i x).put dp := by
  have hsame : (t.setInode i x).inodes dp = t.inodes dp := update_of_ne h.symm _ _
  have hlast : (t.setInode i x).Last dp ↔ t.Last dp := by
    unfold Tree.Last
    rw [hsame]
    rfl
  unfold put
  by_cases hl : t.Last dp
  · simp only [if_pos hl, if_pos (hlast.mpr hl), hsame]
    simp only [setInode, setValid, setRef, update_comm h]
  · simp only [if_neg hl, if_neg (mt hlast.mp hl)]
    rfl

theorem Tree.put_inodes (h : i ≠ dp) : (t.put dp).inodes i = t.inodes i := by
  unfold put
  by_cases hl : t.Last dp
  · simp [if_pos hl, setInode, setValid, setRef, h]
  · simp [if_neg hl, setRef]

/-- The steps that remove an entry: the effect, and then the two references. -/
theorem unlinkEntry_spec (g : Graph t.inodes) (he : (Effect.unlink dp i k).Enabled t.inodes) :
    wp (unlinkEntry dp i k) (fun _ t' =>
      t' = ((t.withInodes ((Effect.unlink dp i k).apply t.inodes)).put dp).put i) E t := by
  have hne := he.unlink_ne
  have hdir := he.1
  have hbounds := g.nlink_bounds (Nat.pos_of_ne_zero he.2.2.2.1)
  have hlo := (g.nlink_bounds (g.lt_of_dir hdir).1).1
  have hhi := g.nlink_dir_le hdir
  have hparent : wp (if (t.inodes i).type = .dir then addNlink dp (-1) else pure ())
      (fun _ s => s = t.setInode dp
        { (t.inodes dp).without k with nlink := (t.inodes dp).nlink - backLink (t.inodes i).type })
      E (t.setInode dp ((t.inodes dp).without k)) := by
    unfold addNlink
    simp only [wp_ite, wp_modify, wp_pure]
    constructor
    · intro hd
      have hshort : short ((t.inodes dp).nlink + -1) = (t.inodes dp).nlink - 1 :=
        short_eq (by omega) (by omega)
      simp [setInode, Inode.without, backLink, hd, hshort]
    · intro hd
      simp [setInode, Inode.without, backLink, hd]
  apply wp_seq_when hparent
  rintro s rfl
  have hself : (t.setInode dp { (t.inodes dp).without k with
        nlink := (t.inodes dp).nlink - backLink (t.inodes i).type }).inodes i = t.inodes i :=
    update_of_ne hne _ _
  have hshort : short ((t.inodes i).nlink + -1) = (t.inodes i).nlink - 1 :=
    short_eq (by omega) (by omega)
  unfold addNlink
  simp only [wp_bind, wp_iput, wp_modify, put_inodes hne, put_setInode hne, hself, hshort]
  simp only [setInode, withInodes, apply, update_comm hne.symm]

/-- The effect of `unlink` keeps the invariant while both inodes are locked. -/
theorem Tree.Ok.unlink (ht : t.Ok) (he : (Effect.unlink dp i k).Enabled t.inodes)
    (hi : 0 < t.ref i ∧ t.valid i = true) (hdp : 0 < t.ref dp ∧ t.valid dp = true) :
    (t.withInodes ((Effect.unlink dp i k).apply t.inodes)).Ok := by
  refine ⟨ht.toSound.withInodes ?_ ?_, ht.graph.unlink he⟩
  · intro j htype hzero
    by_cases hjd : j = dp
    · exact Or.inr (hjd ▸ hdp)
    · by_cases hji : j = i
      · exact Or.inr (hji ▸ hi)
      · rw [unlink_other hjd hji] at htype hzero
        exact Or.inl ⟨htype, hzero⟩
  · intro j hj
    rw [unlink_type]
    exact hj

/-- The two references given back at the end of `unlink`. -/
theorem unlink_after (h : Holding b [i, dp] [i, dp] t)
    (hok : (t.withInodes ((Effect.unlink dp i k).apply b.inodes)).Ok)
    (he : (Effect.unlink dp i k).Enabled b.inodes) (hfree : ∀ ino i, G ino (.free i))
    (hG : G b.inodes (.unlink dp i k)) :
    After G b [] [] (((t.withInodes ((Effect.unlink dp i k).apply b.inodes)).put dp).put i) := by
  have hne := he.unlink_ne
  have hrefi := h.ref i
  have hrefdp := h.ref dp
  simp only [count_cons_self, count_cons_of_ne hne.symm, count_cons_of_ne hne,
    count_nil] at hrefi hrefdp
  obtain ⟨hok₁, hev₁⟩ := hok.put (i := dp) (G := G) (by
    show 0 < t.ref dp
    omega) fun ino => hfree ino dp
  have href₁ : ((t.withInodes ((Effect.unlink dp i k).apply b.inodes)).put dp).ref i = t.ref i := by
    rw [put_ref, update_of_ne hne]
    rfl
  obtain ⟨hok₂, hev₂⟩ := hok₁.put (i := i) (G := G) (by
    omega) fun ino => hfree ino i
  refine ⟨_, hok₂, ?_, ((Evolves.one _ he hG).trans hev₁).trans hev₂, hok₂.holding⟩
  funext j
  rw [put_ref, href₁, put_ref]
  by_cases hji : j = i
  · subst hji
    rw [update_self]
    omega
  · rw [update_of_ne hji]
    by_cases hjd : j = dp
    · subst hjd
      rw [update_self]
      exact Nat.sub_eq_of_eq_add hrefdp
    · rw [update_of_ne hjd]
      have hrefj := h.ref j
      simp only [count_cons_of_ne (Ne.symm hji), count_cons_of_ne (Ne.symm hjd),
        count_nil, add_zero] at hrefj
      exact hrefj

/-- `unlink` removes at most one entry of the directory that the path leads to; what has no link
left afterwards is freed with its last reference. -/
theorem unlink_spec (hb : b.Ok) (hcwd : 0 < b.ref cwd) (path : List Char)
    (hfree : ∀ ino i, G ino (.free i))
    (hG : ∀ dp name i k, walk b.inodes cwd path true = some (dp, name) →
      findName name (b.inodes dp).dirents = some (i, k) → G b.inodes (.unlink dp i k)) :
    wp (unlink cwd path) (Outcome G True b) (NoType b) b := by
  have hs := hb.toSound
  unfold unlink
  rw [wp_ite]
  refine ⟨fun _ => ?_, fun _ => hs.holding⟩
  apply wp_seq (nameiparent_spec hs hs.holding (by simp) hcwd path)
  rintro (_ | ⟨dp, name⟩) t₁ ⟨hr, h₁⟩
  · exact h₁
  obtain ⟨h₁, hdir⟩ := h₁
  have hback : ∀ t', Holding b [dp] [dp] t' →
      wp (do iput dp; pure false) (Outcome G True b) (NoType b) t' := by
    intro t' h'
    apply wp_seq (iput_holding hs (h'.unlock (W := []) (by simp)) (by simp))
    intro _ t'' h''
    exact h''
  apply wp_seq (ilock_holding h₁ mem_cons_self)
  intro _ t₂ h₂
  rw [wp_ite]
  refine ⟨fun _ => hback t₂ h₂, fun hname => ?_⟩
  apply wp_seq (dirlookup_spec h₂ hdir)
  rintro (_ | ⟨i, k⟩) t₃ ⟨hfind, h₃⟩
  · exact hback t₃ h₃
  apply wp_seq (ilock_got h₃.1 h₃.2)
  intro _ t₄ h₄
  rw [wp_bind, wp_get, h₄.inodes]
  simp only [wp_ite, wp_throw]
  obtain ⟨hslot, hi⟩ := findName_some hfind.symm
  have hk := hb.graph.slot_ge hdir hslot hname
  refine ⟨fun hlt => ?_, fun _ => ⟨fun _ => ?_, fun hempty => ?_⟩⟩
  · have hpos : 1 ≤ (b.inodes i).nlink :=
      hb.graph.nlink_pos hdir (mem_tail_of_slot hk hslot) hi
    exact absurd hlt (by omega)
  · apply wp_seq (iput_holding hs (h₄.unlock (W := [dp]) (by simp)) (by simp))
    intro _ t₅ h₅
    exact hback t₅ h₅
  · have he : (Effect.unlink dp i k).Enabled b.inodes := by
      refine ⟨hdir, hk, ⟨name, hslot⟩, hi, fun hd => ?_⟩
      by_contra hne
      exact hempty ⟨hd, by simpa using hne⟩
    have hok := (h₄.ok hb).unlink (by rw [h₄.inodes]; exact he)
      ⟨h₄.pos (by simp), (h₄.locked i (by simp)).2⟩ ⟨h₄.pos (by simp), (h₄.locked dp (by simp)).2⟩
    apply wp_seq (unlinkEntry_spec (h₄.ok hb).graph (by rw [h₄.inodes]; exact he))
    rintro - _ rfl
    rw [h₄.inodes] at hok ⊢
    exact fun _ => unlink_after h₄ hok he hfree (hG dp name i k hr.symm hfind.symm)

end Unlink

end FogOS.Dir
