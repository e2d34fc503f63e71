import FogOS.Dir.Effect
import FogOS.Library.Wp

/-!
# References held during a call

A call takes references to inodes and gives them back. Relative to the tree at
its start, the state in the middle of a call is described by the references
it holds and the inodes it has locked. Looking up a path changes nothing else, and
its result is a function of the inodes.
-/

namespace FogOS.Dir

open Function Library List Tree

/-- What the inode table guarantees: the root exists; an inode without links is referenced; only
existing inodes are referenced; and the last reference to an inode without links will free
it. -/
structure Tree.Sound (t : Tree) : Prop where
  root : (t.inodes rootino).type ≠ .free
  anchored : ∀ i, (t.inodes i).type ≠ .free → (t.inodes i).nlink = 0 → 0 < t.ref i
  live : ∀ i, 0 < t.ref i → (t.inodes i).type ≠ .free
  valid : ∀ i, 0 < t.ref i → (t.inodes i).nlink = 0 → t.valid i = true

/-- The invariant of a tree: the guarantees of the table, and the link graph. -/
structure Tree.Ok (t : Tree) : Prop extends Tree.Sound t where
  graph : Graph t.inodes

/-- No existing directory has an entry for a free inode. -/
def Closed (ino : Nat → Inode) : Prop :=
  ∀ z d, (ino z).type = .dir → d ∈ (ino z).dirents → d.inum ≠ 0 → (ino d.inum).type ≠ .free

/-- The panics of a call: the inode table is full, or there is an entry for a free inode. -/
def NoType (b : Tree) (e : DirPanic) : Prop :=
  e = .igetNoInodes ∨ e = .ilockNoType ∧ ¬ Closed b.inodes

/-- The call holds the references `X` beyond those of `b`, and has read the inodes `V`. -/
structure Holding (b : Tree) (X V : List Nat) (t : Tree) : Prop where
  sound : t.Sound
  inodes : t.inodes = b.inodes
  ref : ∀ j, t.ref j = b.ref j + X.count j
  locked : ∀ j, j ∈ V → j ∈ X ∧ t.valid j = true

/-- The call holds a reference to a free inode, which it has not read yet. -/
structure DanglingRef (b : Tree) (X V : List Nat) (i : Nat) (t : Tree) : Prop where
  free : (b.inodes i).type = .free
  ref : t.ref i = 1
  invalid : t.valid i = false
  rest : Holding b X V (t.setRef i 0)

/-- The state after `iget`: one more reference, perhaps to a free inode. -/
def Got (b : Tree) (X V : List Nat) (i : Nat) (t : Tree) : Prop :=
  Holding b (i :: X) V t ∨ DanglingRef b X V i t

section References

variable {b t : Tree} {X V W : List Nat} {i k : Nat} {E : DirPanic → Prop}

theorem Tree.Sound.holding (h : b.Sound) : Holding b [] [] b :=
  ⟨h, rfl, by simp, by simp⟩

section

variable (h : Holding b X V t)

include h

theorem Holding.pos (hi : i ∈ X) : 0 < t.ref i := by
  rw [h.ref i]
  have := count_pos_iff.mpr hi
  omega

theorem Holding.live (hi : i ∈ X) : (b.inodes i).type ≠ .free := by
  rw [← h.inodes]
  exact h.sound.live i (h.pos hi)

theorem Holding.unlock (hV : ∀ j, j ∈ W → j ∈ V) : Holding b X W t :=
  ⟨h.sound, h.inodes, h.ref, fun j hj => h.locked j (hV j hj)⟩

omit h in
theorem Holding.swap (h : Holding b (i :: k :: X) V t) : Holding b (k :: i :: X) V t := by
  refine ⟨h.sound, h.inodes, ?_, ?_⟩
  · intro j
    rw [h.ref j, (List.Perm.swap k i X).count_eq]
  · intro j hj
    obtain ⟨hmem, hvalid⟩ := h.locked j hj
    exact ⟨(List.Perm.swap k i X).mem_iff.mp hmem, hvalid⟩

omit h in
theorem Got.holding (h : Got b X V i t) (hi : (b.inodes i).type ≠ .free) :
    Holding b (i :: X) V t := by
  rcases h with h | h
  · exact h
  · exact absurd h.free hi

omit h in
theorem Got.unlock (h : Got b X V i t) (hV : ∀ j, j ∈ W → j ∈ V) : Got b X W i t := by
  rcases h with h | h
  · exact Or.inl (h.unlock hV)
  · exact Or.inr ⟨h.free, h.ref, h.invalid, h.rest.unlock hV⟩

omit h in
/-- Changing a `valid` flag of an inode with links keeps the invariant. -/
theorem Tree.Sound.setValid (h : t.Sound) {v : Bool} (hv : v = true ∨ (t.inodes i).nlink ≠ 0 ∨ t.ref i = 0) :
    (t.setValid i v).Sound := by
  refine ⟨h.root, h.anchored, h.live, ?_⟩
  intro j hj hzero
  by_cases hji : j = i
  · subst hji
    have hj' : 0 < t.ref j := hj
    have hzero' : (t.inodes j).nlink = 0 := hzero
    have htrue : v = true := by
      rcases hv with hv | hv | hv
      · exact hv
      · exact absurd hzero' hv
      · omega
    simp [setValid, htrue]
  · have hvalid := h.valid j hj hzero
    simpa [Tree.setValid, hji] using hvalid

omit h in
/-- Changing a reference count keeps the invariant if the count stays right for its inode. -/
theorem Tree.Sound.setRef (h : t.Sound) {n : Nat}
    (hup : 0 < n → (t.inodes i).type ≠ .free ∧ ((t.inodes i).nlink = 0 → t.valid i = true))
    (hdown : n = 0 → (t.inodes i).type ≠ .free → (t.inodes i).nlink ≠ 0) : (t.setRef i n).Sound := by
  have hself : (t.setRef i n).ref i = n := by simp [Tree.setRef]
  have hother : ∀ j, j ≠ i → (t.setRef i n).ref j = t.ref j := by
    intro j hj
    simp [Tree.setRef, hj]
  refine ⟨h.root, ?_, ?_, ?_⟩
  · intro j htype hzero
    by_cases hji : j = i
    · subst hji
      rw [hself]
      by_contra hn
      exact hdown (by omega) htype hzero
    · rw [hother j hji]
      exact h.anchored j htype hzero
  · intro j hj
    by_cases hji : j = i
    · subst hji
      rw [hself] at hj
      exact (hup hj).1
    · rw [hother j hji] at hj
      exact h.live j hj
  · intro j hj hzero
    by_cases hji : j = i
    · subst hji
      rw [hself] at hj
      exact (hup hj).2 hzero
    · rw [hother j hji] at hj
      exact h.valid j hj hzero

/-- One more reference to an inode that is referenced already. -/
theorem Holding.dup (hi : 0 < t.ref i) : Holding b (i :: X) V (t.setRef i (t.ref i + 1)) := by
  refine ⟨h.sound.setRef (fun _ => ⟨h.sound.live i hi, h.sound.valid i hi⟩) (by omega), h.inodes, ?_, ?_⟩
  · intro j
    by_cases hji : j = i
    · subst hji
      simp only [setRef, update_self, h.ref, count_cons_self]
      omega
    · simp only [setRef, update_of_ne hji, h.ref,
        count_cons_of_ne (Ne.symm hji)]
  · intro j hj
    obtain ⟨hmem, hvalid⟩ := h.locked j hj
    exact ⟨mem_cons_of_mem i hmem, hvalid⟩

theorem iget_holding (hi : (b.inodes i).type ≠ .free) :
    wp (iget i) (fun _ t' => Holding b (i :: X) V t') (NoType b) t := by
  unfold iget
  simp only [wp_bind, wp_get, wp_ite, wp_set, wp_throw]
  refine ⟨fun hpos => h.dup hpos, fun hnone => ⟨fun _ => ?_, fun _ => Or.inl rfl⟩⟩
  have htype : (t.inodes i).type ≠ .free := by rw [h.inodes]; exact hi
  have hlinks : (t.inodes i).nlink ≠ 0 := by
    intro hlink
    have := h.sound.anchored i htype hlink
    omega
  refine ⟨?_, h.inodes, ?_, ?_⟩
  · exact (h.sound.setRef (fun _ => ⟨htype, fun hl => absurd hl hlinks⟩) (by omega)).setValid
      (Or.inr (Or.inl hlinks))
  · intro j
    by_cases hji : j = i
    · subst hji
      have hj := h.ref j
      simp only [setRef, setValid, update_self, count_cons_self]
      omega
    · simp only [setRef, setValid, update_of_ne hji, h.ref,
        count_cons_of_ne (Ne.symm hji)]
  · intro j hj
    obtain ⟨hmem, hvalid⟩ := h.locked j hj
    have hji : j ≠ i := by
      rintro rfl
      have := h.pos hmem
      omega
    refine ⟨mem_cons_of_mem i hmem, ?_⟩
    simpa [setRef, setValid, hji] using hvalid

theorem iget_dangling (hi : (b.inodes i).type = .free) :
    wp (iget i) (fun _ t' => DanglingRef b X V i t') (NoType b) t := by
  have hzero : t.ref i = 0 := by
    by_contra hpos
    exact h.sound.live i (by omega) (by rw [h.inodes]; exact hi)
  unfold iget
  simp only [wp_bind, wp_get, wp_ite, wp_set, wp_throw]
  refine ⟨fun hpos => by omega, fun _ => ⟨fun _ => ?_, fun _ => Or.inl rfl⟩⟩
  have hback : (((t.setRef i 1).setValid i false).setRef i 0) = t.setValid i false := by
    simp [setRef, setValid, ← hzero]
  refine ⟨hi, by simp [setRef, setValid], by simp [setValid], ?_⟩
  rw [hback]
  refine ⟨h.sound.setValid (Or.inr (Or.inr hzero)), h.inodes, h.ref, ?_⟩
  intro j hj
  obtain ⟨hmem, hvalid⟩ := h.locked j hj
  have hji : j ≠ i := by
    rintro rfl
    have := h.pos hmem
    omega
  refine ⟨hmem, ?_⟩
  simpa [setValid, hji] using hvalid

theorem iget_got : wp (iget i) (fun _ t' => Got b X V i t') (NoType b) t := by
  by_cases hi : (b.inodes i).type = .free
  · exact wp_mono (iget_dangling h hi) (fun _ _ => Or.inr) fun _ he => he
  · exact wp_mono (iget_holding h hi) (fun _ _ => Or.inl) fun _ he => he

theorem idup_holding (hi : 0 < b.ref i) :
    wp (idup i) (fun _ t' => Holding b (i :: X) V t') E t := by
  have hpos : 0 < t.ref i := by
    rw [h.ref i]
    omega
  exact h.dup hpos

theorem ilock_holding (hi : i ∈ X) : wp (ilock i) (fun _ t' => Holding b X (i :: V) t') E t := by
  have hpos := h.pos hi
  have htype := h.sound.live i hpos
  unfold ilock
  simp only [wp_bind, wp_get, wp_ite, wp_set, wp_throw, wp_pure]
  refine ⟨fun hlt => by omega, fun _ => ⟨fun hvalid => ?_, fun _ => ⟨fun hfree => ?_, fun _ => ?_⟩⟩⟩
  · refine ⟨h.sound, h.inodes, h.ref, ?_⟩
    intro j hj
    rcases mem_cons.mp hj with rfl | hj
    · exact ⟨hi, hvalid⟩
    · exact h.locked j hj
  · exact absurd hfree htype
  · refine ⟨h.sound.setValid (Or.inl rfl), h.inodes, h.ref, ?_⟩
    intro j hj
    by_cases hji : j = i
    · subst hji
      exact ⟨hi, by simp [setValid]⟩
    · obtain ⟨hmem, hvalid⟩ := h.locked j ((mem_cons.mp hj).resolve_left hji)
      exact ⟨hmem, by simpa [setValid, hji] using hvalid⟩

end

theorem ilock_got (h : Got b X V i t) (hi : Closed b.inodes → (b.inodes i).type ≠ .free) :
    wp (ilock i) (fun _ t' => Holding b (i :: X) (i :: V) t') (NoType b) t := by
  rcases h with h | h
  · exact ilock_holding h mem_cons_self
  · have hfree : (t.inodes i).type = .free := by
      rw [show t.inodes = b.inodes from h.rest.inodes]
      exact h.free
    unfold ilock
    simp only [wp_bind, wp_get, wp_ite, wp_set, wp_throw, wp_pure]
    have href := h.ref
    have hinvalid := h.invalid
    refine ⟨fun hlt => by omega, fun _ => ⟨fun hvalid => ?_, fun _ => ⟨fun _ => ?_, fun hne => ?_⟩⟩⟩
    · rw [hinvalid] at hvalid
      cases hvalid
    · exact Or.inr ⟨rfl, fun hclosed => hi hclosed h.free⟩
    · exact absurd hfree hne

/-- `iput` would free the inode. -/
def Tree.Last (t : Tree) (i : Nat) : Prop :=
  t.ref i = 1 ∧ t.valid i = true ∧ (t.inodes i).nlink = 0

instance (t : Tree) (i : Nat) : Decidable (t.Last i) := inferInstanceAs (Decidable (_ ∧ _))

theorem iput_keep (h : ¬ t.Last i) : iput i t = .ok ((), t.setRef i (t.ref i - 1)) := by
  have happly : iput i t = .ok ((),
      let t := if t.Last i then
        (t.setInode i { t.inodes i with type := .free, dirents := [] }).setValid i false else t
      t.setRef i (t.ref i - 1)) := rfl
  rw [happly, if_neg h]

/-- A reference taken by the call is not the last one to an inode without links. -/
theorem Holding.not_last (hb : b.Sound) (h : Holding b (i :: X) V t) : ¬ t.Last i := by
  rintro ⟨hone, -, hzero⟩
  have href := h.ref i
  rw [h.inodes] at hzero
  have := hb.anchored i (h.live mem_cons_self) hzero
  rw [count_cons_self] at href
  omega

theorem Holding.put (hb : b.Sound) (h : Holding b (i :: X) V t) (hV : ∀ j, j ∈ V → j ∈ X) :
    Holding b X V (t.setRef i (t.ref i - 1)) := by
  have hpos := h.pos mem_cons_self
  have href := h.ref i
  rw [count_cons_self] at href
  refine ⟨h.sound.setRef ?_ ?_, h.inodes, ?_, ?_⟩
  · intro _
    exact ⟨h.sound.live i hpos, h.sound.valid i hpos⟩
  · intro hn _ hzero
    rw [h.inodes] at hzero
    have := hb.anchored i (h.live mem_cons_self) hzero
    omega
  · intro j
    by_cases hji : j = i
    · subst hji
      simp only [setRef, update_self]
      omega
    · simp only [setRef, update_of_ne hji, h.ref,
        count_cons_of_ne (Ne.symm hji)]
  · intro j hj
    exact ⟨hV j hj, (h.locked j hj).2⟩

/-- Giving back a reference taken by the call never frees the inode. -/
theorem iput_holding (hb : b.Sound) (h : Holding b (i :: X) V t) (hV : ∀ j, j ∈ V → j ∈ X) :
    wp (iput i) (fun _ t' => Holding b X V t') E t := by
  unfold wp
  rw [iput_keep (h.not_last hb)]
  exact h.put hb hV

theorem iput_got (hb : b.Sound) (h : Got b X V i t) (hV : ∀ j, j ∈ V → j ∈ X) :
    wp (iput i) (fun _ t' => Holding b X V t') E t := by
  rcases h with h | h
  · exact iput_holding hb h hV
  · have hkeep : ¬ t.Last i := by simp [Tree.Last, h.invalid]
    unfold wp
    rw [iput_keep hkeep, h.ref]
    exact h.rest

/-- Giving back a reference below the last one taken. -/
theorem iput_under (hb : b.Sound) (h : Got b (i :: X) V k t) (hi : (b.inodes i).type ≠ .free)
    (hV : ∀ j, j ∈ V → j ∈ X) : wp (iput i) (fun _ t' => Got b X V k t') E t := by
  rcases h with h | h
  · exact wp_mono (iput_holding hb h.swap fun j hj => mem_cons_of_mem k (hV j hj))
      (fun _ _ => Or.inl) fun _ he => he
  · have hik : i ≠ k := by
      rintro rfl
      exact hi h.free
    have href : (t.setRef k 0).ref i = t.ref i := by simp [setRef, hik]
    have hkeep : ¬ t.Last i := by
      intro hlast
      exact h.rest.not_last hb ⟨href.trans hlast.1, hlast.2⟩
    have hcomm : (t.setRef i (t.ref i - 1)).setRef k 0 =
        (t.setRef k 0).setRef i ((t.setRef k 0).ref i - 1) := by
      rw [href]
      simp only [setRef, update_comm hik.symm]
    unfold wp
    rw [iput_keep hkeep]
    refine Or.inr ⟨h.free, ?_, h.invalid, ?_⟩
    · simp [setRef, hik.symm, h.ref]
    · rw [hcomm]
      exact h.rest.put hb hV

end References

section Walk

/-- The loop of a path lookup, as a function of the inodes. -/
def walkLoop (ino : Nat → Inode) (parent : Bool) : List Name → Name → Nat → Option (Nat × Name)
  | [], name, ip => if parent then none else some (ip, name)
  | e :: es, _, ip =>
    if (ino ip).type ≠ .dir then none
    else if parent && es.isEmpty then some (ip, e)
    else
      match findName e (ino ip).dirents with
      | none => none
      | some (next, _) => walkLoop ino parent es e next

/-- The result of a path lookup. -/
def walk (ino : Nat → Inode) (cwd : Nat) (path : List Char) (parent : Bool) :
    Option (Nat × Name) :=
  walkLoop ino parent (elements path) [] (if path.head? = some '/' then rootino else cwd)

variable {ino : Nat → Inode} {b t : Tree} {X V : List Nat} {i k ip dp cwd : Nat} {name : Name}
  {des : List Dirent} {E : DirPanic → Prop} {parent : Bool}

theorem findName_some (h : findName name des = some (i, k)) : des[k]? = some ⟨i, name⟩ ∧ i ≠ 0 := by
  obtain ⟨k', hk, heq⟩ := Option.map_eq_some_iff.mp h
  obtain ⟨hlt, hpred, -⟩ := findIdx?_eq_some_iff_getElem.mp hk
  simp only [Prod.mk.injEq] at heq
  obtain ⟨hi, rfl⟩ := heq
  rw [getElem?_eq_getElem hlt] at hi ⊢
  obtain ⟨hne, hname⟩ := of_decide_eq_true hpred
  have hinum : (des[k']).inum = i := hi
  refine ⟨?_, hinum ▸ hne⟩
  rw [← hinum, ← hname]

theorem findName_none (h : findName name des = none) {d : Dirent} (hd : d ∈ des)
    (hne : d.inum ≠ 0) : d.name ≠ name := by
  intro hname
  have hall := findIdx?_eq_none_iff.mp (Option.map_eq_none_iff.mp h) d hd
  simp [hne, hname] at hall

theorem Closed.findName_live (hc : Closed ino) (hdir : (ino dp).type = .dir)
    (h : findName name (ino dp).dirents = some (i, k)) : (ino i).type ≠ .free := by
  obtain ⟨hslot, hne⟩ := findName_some h
  exact hc dp ⟨i, name⟩ hdir (mem_of_getElem? hslot) hne

/-- What `dirlookup` returns, and the reference it takes. -/
theorem dirlookup_spec (h : Holding b X V t) (hdir : (b.inodes dp).type = .dir) :
    wp (dirlookup dp name) (fun r t' => r = findName name (b.inodes dp).dirents ∧
      match r with
      | none => Holding b X V t'
      | some (i, _) => Got b X V i t' ∧ (Closed b.inodes → (b.inodes i).type ≠ .free))
      (NoType b) t := by
  unfold dirlookup
  simp only [wp_bind, wp_get, wp_ite, wp_throw]
  rw [h.inodes]
  refine ⟨fun hne => absurd hdir hne, fun _ => ?_⟩
  cases hfind : findName name (b.inodes dp).dirents with
  | none => exact ⟨rfl, h⟩
  | some r =>
    apply wp_seq (iget_got h)
    intro _ t' hgot
    exact ⟨rfl, hgot, fun hc => hc.findName_live hdir hfind⟩

/-- The state after a lookup with the given result. -/
def Named (b : Tree) (X V : List Nat) (parent : Bool) : Option (Nat × Name) → Tree → Prop
  | none, t => Holding b X V t
  | some (i, _), t => Got b X V i t ∧ (Closed b.inodes → (b.inodes i).type ≠ .free) ∧
      (parent = true → (b.inodes i).type = .dir)

theorem namexLoop_spec (hb : b.Sound) (hV : ∀ j, j ∈ V → j ∈ X) (es : List Name)
    (h : Got b X V ip t) (hlive : Closed b.inodes → (b.inodes ip).type ≠ .free) :
    wp (namexLoop parent es name ip)
      (fun r t' => r = walkLoop b.inodes parent es name ip ∧ Named b X V parent r t')
      (NoType b) t := by
  induction es generalizing name ip t with
  | nil =>
    cases parent with
    | true =>
      apply wp_seq (iput_got hb h hV)
      intro _ t' h'
      exact ⟨rfl, h'⟩
    | false => exact ⟨rfl, h, hlive, fun hf => by cases hf⟩
  | cons e es ih =>
    unfold namexLoop walkLoop
    apply wp_seq (ilock_got h hlive)
    intro _ t₁ h₁
    rw [wp_bind, wp_get, h₁.inodes]
    have hfree := h₁.live mem_cons_self
    have hput : ∀ t', Holding b (ip :: X) (ip :: V) t' →
        wp (iput ip) (fun _ t' => Holding b X V t') (NoType b) t' := fun t' h' =>
      iput_holding hb (h'.unlock fun j hj => mem_cons_of_mem ip hj) hV
    by_cases hdir : (b.inodes ip).type = .dir
    · simp only [hdir, ne_eq, not_true_eq_false, if_false]
      by_cases hlast : (parent && es.isEmpty) = true
      · simp only [hlast, if_true]
        exact ⟨rfl, Or.inl (h₁.unlock fun j hj => mem_cons_of_mem ip hj), fun _ => hfree,
          fun _ => hdir⟩
      · simp only [hlast, Bool.false_eq_true, if_false]
        apply wp_seq (dirlookup_spec h₁ hdir)
        rintro r t₂ ⟨hr, h₂⟩
        rw [← hr]
        cases r with
        | none =>
          apply wp_seq (hput t₂ h₂)
          intro _ t₃ h₃
          exact ⟨rfl, h₃⟩
        | some r =>
          have hgot := h₂.1.unlock fun j hj => mem_cons_of_mem ip hj
          apply wp_seq (iput_under hb hgot hfree hV)
          intro _ t₃ h₃
          exact ih h₃ h₂.2
    · simp only [hdir, ne_eq, not_false_eq_true, if_true]
      apply wp_seq (hput t₁ h₁)
      intro _ t₂ h₂
      exact ⟨rfl, h₂⟩

section

variable (hb : b.Sound) (h : Holding b X V t) (hV : ∀ j, j ∈ V → j ∈ X) (hcwd : 0 < b.ref cwd)
  (path : List Char)

include hb h hV hcwd

/-- Looking up a path takes one reference, to the inode that `walk` finds. -/
theorem namex_spec :
    wp (namex cwd path parent)
      (fun r t' => r = walk b.inodes cwd path parent ∧ Named b X V parent r t') (NoType b) t := by
  unfold namex walk
  by_cases hslash : path.head? = some '/'
  · simp only [if_pos hslash]
    apply wp_seq (iget_holding h hb.root)
    intro _ t' h'
    exact namexLoop_spec hb hV _ (Or.inl h') fun _ => hb.root
  · simp only [if_neg hslash]
    apply wp_seq (idup_holding h hcwd)
    intro _ t' h'
    exact namexLoop_spec hb hV _ (Or.inl h') fun _ => hb.live cwd hcwd

theorem namei_spec :
    wp (namei cwd path) (fun r t' => r = (walk b.inodes cwd path false).map Prod.fst ∧
      match r with
      | none => Holding b X V t'
      | some i => Got b X V i t' ∧ (Closed b.inodes → (b.inodes i).type ≠ .free))
      (NoType b) t := by
  apply wp_seq (namex_spec hb h hV hcwd path)
  rintro r t' ⟨hr, h'⟩
  rw [← hr]
  cases r with
  | none => exact ⟨rfl, h'⟩
  | some r => exact ⟨rfl, h'.1, h'.2.1⟩

theorem nameiparent_spec :
    wp (nameiparent cwd path) (fun r t' => r = walk b.inodes cwd path true ∧
      match r with
      | none => Holding b X V t'
      | some (dp, _) => Holding b (dp :: X) V t' ∧ (b.inodes dp).type = .dir)
      (NoType b) t := by
  apply wp_mono (namex_spec hb h hV hcwd path) ?_ fun _ he => he
  rintro r t' ⟨hr, h'⟩
  refine ⟨hr, ?_⟩
  cases r with
  | none => exact h'
  | some r =>
    obtain ⟨hgot, -, hparent⟩ := h'
    have hdir := hparent rfl
    exact ⟨hgot.holding (by rw [hdir]; decide), hdir⟩

end

end Walk

end FogOS.Dir
