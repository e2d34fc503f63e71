import FogOS.Dir.Spec

/-!
# Trees that change during a call

What is needed of every call that changes inodes: counts stay within a `short`,
new inodes keep the invariant of the tree, giving back a reference frees at most
one inode, and `dirlink` writes one entry or nothing.
-/

namespace FogOS.Dir

open Function Library List Finset Tree

section Short

theorem short_eq {n : Int} (hlo : -32768 ≤ n) (hhi : n ≤ 32767) : short n = n := by
  unfold short
  rw [Int.bmod_eq_of_le] <;> norm_num <;> omega

/-- `n++` on a `short`. -/
theorem short_succ {n : Int} (h : 0 ≤ n ∧ n ≤ 32767) :
    short (n + 1) = if n < 32767 then n + 1 else -32768 := by
  split
  · exact short_eq (by omega) (by omega)
  · obtain rfl : n = 32767 := by omega
    rfl

variable {ino : Nat → Inode} {i : Nat}

theorem childCount_le (ino : Nat → Inode) (j : Nat) : childCount ino j ≤ ninodes := by
  unfold childCount
  calc ∑ x ∈ range ninodes, childAt ino j x ≤ ∑ _x ∈ range ninodes, 1 := by
        apply Finset.sum_le_sum
        intro x _
        unfold childAt
        split <;> omega
    _ = ninodes := by simp

theorem Graph.nlink_bounds (g : Graph ino) (h : 0 < i) :
    0 ≤ (ino i).nlink ∧ (ino i).nlink ≤ 32767 := by
  by_cases hdir : (ino i).type = .dir
  · have hone := g.single i hdir
    have hle : childCount ino i ≤ 200 := childCount_le ino i
    rw [g.nlink_dir i hdir]
    omega
  · have hle := g.nlink_leaf i h hdir
    omega

theorem Graph.nlink_dir_le (g : Graph ino) (hdir : (ino i).type = .dir) : (ino i).nlink ≤ 201 := by
  have hone := g.single i hdir
  have hle : childCount ino i ≤ 200 := childCount_le ino i
  rw [g.nlink_dir i hdir]
  omega

end Short

section Trees

variable {G : (Nat → Inode) → Effect → Prop} {b t : Tree} {X V : List Nat} {i k : Nat}
  {ino : Nat → Inode} {E : DirPanic → Prop}

/-- The tree with the inodes replaced. -/
def Tree.withInodes (t : Tree) (ino : Nat → Inode) : Tree := { t with inodes := ino }

/-- New inodes keep the guarantees of the table if none of them loses its last link without
being referenced and read. -/
theorem Tree.Sound.withInodes (h : t.Sound)
    (hzero : ∀ j, (ino j).type ≠ .free → (ino j).nlink = 0 →
      ((t.inodes j).type ≠ .free ∧ (t.inodes j).nlink = 0) ∨ (0 < t.ref j ∧ t.valid j = true))
    (hlive : ∀ j, (t.inodes j).type ≠ .free → (ino j).type ≠ .free) :
    (t.withInodes ino).Sound := by
  have hlive' : ∀ j, 0 < t.ref j → (ino j).type ≠ .free := fun j hj => hlive j (h.live j hj)
  refine ⟨hlive _ h.root, ?_, hlive', ?_⟩
  · intro j htype hlink
    rcases hzero j htype hlink with ⟨htype, hlink⟩ | ⟨hpos, -⟩
    · exact h.anchored j htype hlink
    · exact hpos
  · intro j hpos hlink
    rcases hzero j (hlive' j hpos) hlink with ⟨-, hlink⟩ | ⟨-, hvalid⟩
    · exact h.valid j hpos hlink
    · exact hvalid

theorem Holding.withInodes (h : Holding b X V t) (ht : (t.withInodes ino).Sound) :
    Holding (b.withInodes ino) X V (t.withInodes ino) :=
  ⟨ht, rfl, h.ref, h.locked⟩

theorem Holding.ok (hb : b.Ok) (h : Holding b X V t) : t.Ok :=
  ⟨h.sound, h.inodes ▸ hb.graph⟩

/-- The state after a call, with the effects it had on the inodes. -/
def After (G : (Nat → Inode) → Effect → Prop) (b : Tree) (X V : List Nat) (t : Tree) : Prop :=
  ∃ b' : Tree, b'.Ok ∧ b'.ref = b.ref ∧ Evolves G b.inodes b'.inodes ∧ Holding b' X V t

theorem Holding.after (hb : b.Ok) (h : Holding b X V t) : After G b X V t :=
  ⟨b, hb, rfl, Evolves.refl, h⟩

/-- The end of `sys_link` and `sys_unlink`: a failure has changed nothing, and a success has had
its effects, if the link count did not wrap. -/
def Outcome (G : (Nat → Inode) → Effect → Prop) (fits : Prop) (b : Tree) : Bool → Tree → Prop
  | false, t => Holding b [] [] t
  | true, t => fits → After G b [] [] t

theorem Outcome.after {fits : Prop} {r : Bool} (h : Outcome G fits b r t) (hb : b.Ok) (hfits : fits) :
    After G b [] [] t := by
  cases r with
  | false => exact Holding.after hb h
  | true => exact h hfits

/-- The tree after `iput`. -/
def Tree.put (t : Tree) (i : Nat) : Tree :=
  let t := if t.Last i then
    (t.setInode i { t.inodes i with type := .free, dirents := [] }).setValid i false else t
  t.setRef i (t.ref i - 1)

@[simp] theorem wp_iput {Q : Unit → Tree → Prop} : wp (iput i) Q E t ↔ Q () (t.put i) := Iff.rfl

theorem Tree.put_ref (t : Tree) (i : Nat) : (t.put i).ref = update t.ref i (t.ref i - 1) := by
  unfold put
  by_cases h : t.Last i
  · simp only [if_pos h]
    rfl
  · simp only [if_neg h]
    rfl

/-- Giving back any reference keeps the invariant, and frees at most this inode. -/
theorem Tree.Ok.put (h : t.Ok) (hi : 0 < t.ref i) (hG : ∀ ino, G ino (.free i)) :
    (t.put i).Ok ∧ Evolves G t.inodes (t.put i).inodes := by
  unfold Tree.put
  by_cases hlast : t.Last i
  · obtain ⟨hone, hvalid, hlink⟩ := hlast
    have hen : (Effect.free i).Enabled t.inodes := ⟨h.live i hi, hlink⟩
    have hino : update t.inodes i { t.inodes i with type := .free, dirents := [] } =
        (Effect.free i).apply t.inodes := by
      simp only [Effect.apply, hlink]
      rfl
    have hgraph := h.graph.free hen
    simp only [if_pos (show t.Last i from ⟨hone, hvalid, hlink⟩), setInode, setValid,
      setRef, hone, hino, Nat.sub_self]
    have hself : (Effect.free i).apply t.inodes i = Inode.zero := free_i
    refine ⟨⟨⟨?_, ?_, ?_, ?_⟩, hgraph⟩, Evolves.one _ hen (hG _)⟩
    · rw [hgraph.root_dir]
      decide
    all_goals
      intro j
      by_cases hji : j = i
    · simp [hji, hself, Inode.zero]
    · simpa only [free_other hji, update_of_ne hji] using h.anchored j
    · simp [hji]
    · simpa only [free_other hji, update_of_ne hji] using h.live j
    · simp [hji]
    · simpa only [free_other hji, update_of_ne hji] using h.valid j
  · simp only [if_neg hlast]
    refine ⟨⟨h.setRef (fun _ => ⟨h.live i hi, h.valid i hi⟩) ?_, h.graph⟩, Evolves.refl⟩
    intro hn _ hlink
    exact hlast ⟨by omega, h.valid i hi hlink, hlink⟩

end Trees

section Dirlink

variable {b t : Tree} {X V : List Nat} {dp i : Nat} {name : Name} {de : Dirent}
  {des : List Dirent} {E : DirPanic → Prop} {rs : List Bool}

theorem putDirent_of_some {k : Nat} (h : (des.findIdx? fun d => d.inum = 0) = some k) :
    putDirent de des = des.set k de := by
  induction des generalizing k with
  | nil => simp at h
  | cons d ds ih =>
    rw [findIdx?_cons] at h
    unfold putDirent
    by_cases hd : d.inum = 0
    · simp only [hd, decide_true, if_true, Option.some.injEq] at h ⊢
      subst h
      rfl
    · simp only [hd, decide_false, Bool.false_eq_true, if_false] at h ⊢
      obtain ⟨k', hk', rfl⟩ := Option.map_eq_some_iff.mp h
      rw [ih hk']
      rfl

theorem putDirent_of_none (h : (des.findIdx? fun d => d.inum = 0) = none) :
    putDirent de des = des ++ [de] := by
  induction des with
  | nil => rfl
  | cons d ds ih =>
    have hall := findIdx?_eq_none_iff.mp h
    have hd : ¬ d.inum = 0 := by simpa using hall d mem_cons_self
    have hrest : (ds.findIdx? fun d => d.inum = 0) = none :=
      findIdx?_eq_none_iff.mpr fun x hx => hall x (mem_cons_of_mem d hx)
    unfold putDirent
    rw [if_neg hd, ih hrest, cons_append]

theorem dirlookup_none (hdir : (t.inodes dp).type = .dir)
    (hfresh : findName name (t.inodes dp).dirents = none) :
    wp (dirlookup dp name) (fun r t' => r = none ∧ t' = t) E t := by
  unfold dirlookup
  simp only [wp_bind, wp_get, wp_ite, wp_throw]
  refine ⟨fun hne => absurd hdir hne, fun _ => ?_⟩
  rw [hfresh]
  exact ⟨rfl, rfl⟩

/-- A name that a directory does not have is not one of its first two. -/
theorem Graph.fresh_name {ino : Nat → Inode} (g : Graph ino) (hdir : (ino dp).type = .dir)
    (hfresh : findName name (ino dp).dirents = none) : name ≠ dot ∧ name ≠ dotdot := by
  obtain ⟨p, tail, heq, hp, -⟩ := g.shape hdir
  rw [heq] at hfresh
  constructor
  · rintro rfl
    exact findName_none hfresh (d := ⟨dp, dot⟩) (by simp) (g.ne_zero_of_dir hdir) rfl
  · rintro rfl
    exact findName_none hfresh (d := ⟨p, dotdot⟩) (by simp) hp rfl

/-- The tree with other answers to come from `balloc`. -/
def Tree.refused (t : Tree) (rs : List Bool) : Tree := { t with refusals := rs }

/-- What `dirlink` does when the name is not in the directory: nothing, or the new entry. -/
theorem dirlink_fresh (hdir : (t.inodes dp).type = .dir)
    (hfresh : findName name (t.inodes dp).dirents = none) :
    wp (dirlink dp name i) (fun r t' => ∃ rs, (r = false ∧ t' = t.refused rs) ∨
      (r = true ∧ t' = (t.setInode dp ((t.inodes dp).withEntry ⟨i, name⟩)).refused rs)) E t := by
  apply wp_seq (dirlookup_none hdir hfresh)
  rintro r t' ⟨rfl, rfl⟩
  simp only [wp_bind, wp_get]
  cases hempty : (t'.inodes dp).dirents.findIdx? fun de => de.inum = 0 with
  | some k =>
    refine ⟨t'.refusals, Or.inr ⟨rfl, ?_⟩⟩
    rw [Inode.withEntry, putDirent_of_some hempty]
    rfl
  | none =>
    have hput : ∀ rs, (t'.refused rs).setInode dp
        { t'.inodes dp with dirents := (t'.inodes dp).dirents ++ [(⟨i, name⟩ : Dirent)] } =
        (t'.setInode dp ((t'.inodes dp).withEntry ⟨i, name⟩)).refused rs := by
      intro rs
      rw [Inode.withEntry, putDirent_of_none hempty]
      rfl
    simp only [wp_ite, wp_bind, wp_set, wp_pure]
    refine ⟨fun _ => ⟨t'.refusals, Or.inl ⟨trivial, rfl⟩⟩, fun _ => ⟨fun _ => ⟨fun _ => ?_, fun _ => ?_⟩,
      fun _ => ?_⟩⟩
    · exact ⟨t'.refusals.tail, Or.inl ⟨trivial, rfl⟩⟩
    · exact ⟨t'.refusals.tail, Or.inr ⟨trivial, hput _⟩⟩
    · exact ⟨t'.refusals, Or.inr ⟨trivial, hput _⟩⟩

theorem Holding.refused (h : Holding b X V t) (rs : List Bool) : Holding b X V (t.refused rs) :=
  ⟨⟨h.sound.root, h.sound.anchored, h.sound.live, h.sound.valid⟩, h.inodes, h.ref, h.locked⟩

/-- `dirlink` with references held: a name that is present makes it fail. -/
theorem dirlink_holding (hb : b.Sound) (h : Holding b X V t) (hV : ∀ j, j ∈ V → j ∈ X)
    (hdir : (b.inodes dp).type = .dir) :
    wp (dirlink dp name i) (fun r t' =>
      (r = false ∧ Holding b X V t') ∨
      (r = true ∧ findName name (b.inodes dp).dirents = none ∧ ∃ t₀, Holding b X V t₀ ∧
        t' = t₀.withInodes (update b.inodes dp ((b.inodes dp).withEntry ⟨i, name⟩))))
      (NoType b) t := by
  cases hfind : findName name (b.inodes dp).dirents with
  | none =>
    rw [← h.inodes] at hdir hfind
    apply wp_mono (dirlink_fresh hdir hfind) ?_ fun _ he => he
    rintro r t' ⟨rs, ⟨hr, rfl⟩ | ⟨hr, rfl⟩⟩
    · exact Or.inl ⟨hr, h.refused rs⟩
    · refine Or.inr ⟨hr, rfl, _, h.refused rs, ?_⟩
      rw [← h.inodes]
      rfl
  | some r =>
    apply wp_seq (dirlookup_spec h hdir)
    rintro r' t₁ ⟨hr, h₁⟩
    rw [hfind] at hr
    subst hr
    apply wp_seq (iput_got hb h₁.1 hV)
    intro _ t₂ h₂
    exact Or.inl ⟨rfl, h₂⟩

end Dirlink

end FogOS.Dir
