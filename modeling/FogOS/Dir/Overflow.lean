import FogOS.Dir.Paths

/-!
# Link counts are 16 bits wide

`sys_link` raises `nlink`, a `short`, without looking at it. While every link is made to an
inode with fewer than 32767 links, no count is wrong; two directories have room for more.
-/

namespace FogOS.Dir

open Function Library List

section Fits

/-- Every process links to inodes with fewer links than a `short` can count. -/
def LinksFit (s : Sys) : Fin nproc × Call → Prop
  | (p, c) => ∀ pr ∈ s.procs p, LinkFits s pr c

instance (s : Sys) (a : Fin nproc × Call) : Decidable (LinksFit s a) :=
  inferInstanceAs (Decidable (∀ _ ∈ _, _))

theorem LinksFit.meets {s : Sys} {a : Fin nproc × Call} (h : LinksFit s a) :
    StepMeets (fun _ _ => True) s a := by
  obtain ⟨p, c⟩ := a
  intro pr hpr
  have hfits := h pr hpr
  cases c with
  | link old new => exact ⟨fun i name hwalk => hfits old rfl (i, name) hwalk, by simp⟩
  | _ => simp [Call.Meets]

/-- A count is never below the number of entries, so an inode with an entry is not freed, and
`unlink` does not panic. -/
theorem link_counts_fit (im : Image) (refusals : List Bool) (ops : List (Fin nproc × Call))
    (hguard : Guarded Sys.step LinksFit (im.boot refusals) ops) :
    run Sys.step (im.boot refusals) ops ≠ .error .unlinkNlink ∧
    ∀ s, run Sys.step (im.boot refusals) ops = .ok s → ∀ i, 0 < i →
      0 ≤ (s.tree.inodes i).nlink ∧ (s.tree.inodes i).nlink ≤ 32767 ∧
      linkCount s.tree.inodes i ≤ (s.tree.inodes i).nlink := by
  have hkeep : ∀ (s : Sys) a s', s.Ok → LinksFit s a → s.step a = .ok s' → s'.Ok :=
    fun s a s' hok hfits hstep => (step_ok hok (fun _ _ => trivial) hfits.meets hstep).1
  have hsafe : ∀ (s : Sys) a, s.Ok → LinksFit s a → s.step a ≠ .error .unlinkNlink := by
    intro s a hok hfits hstep
    have he := step_error hok (fun _ _ => trivial) hfits.meets hstep
    simp [SysPanic, NoType] at he
  have hboot := im.boot_ok refusals
  refine ⟨run_ne_error hkeep hsafe hboot hguard, fun s hrun i hi => ?_⟩
  have hgraph := (run_invariant hkeep hboot hguard hrun).tree.graph
  have hbounds := hgraph.nlink_bounds hi
  refine ⟨hbounds.1, hbounds.2, ?_⟩
  by_cases hdir : (s.tree.inodes i).type = .dir
  · rw [hgraph.nlink_dir i hdir]
    omega
  · exact (hgraph.nlink_leaf i hi hdir).1

theorem link_counts_fit_two :
    ∃ s, run Sys.step (fileImage.boot []) [(initproc, .link ['f'] ['g'])] = .ok s ∧
      linkCount s.tree.inodes 2 ≤ (s.tree.inodes 2).nlink := by
  have hguard : Guarded Sys.step LinksFit (fileImage.boot []) [(initproc, .link ['f'] ['g'])] := by
    decide +kernel
  have hends : Ends (fun _ => True) (run Sys.step (fileImage.boot [])
    [(initproc, .link ['f'] ['g'])]) := by decide +kernel
  obtain ⟨s, hrun, -⟩ := hends.exists
  exact ⟨s, hrun, ((link_counts_fit _ _ _ hguard).2 s hrun 2 (by decide)).2.2⟩

end Fits

section Wraps

/-- The tree with one more reference. -/
def Tree.hold (t : Tree) (i : Nat) : Tree := t.setRef i (t.ref i + 1)

/-- An inode that some process keeps in memory. -/
structure Tree.Pinned (t : Tree) (i : Nat) : Prop where
  ref : 0 < t.ref i
  valid : t.valid i = true

variable {t : Tree} {d i k : Nat} {E : DirPanic → Prop}

theorem Tree.Pinned.hold (h : t.Pinned i) (j : Nat) : (t.hold j).Pinned i where
  ref := by
    have hpos := h.ref
    unfold Tree.hold Tree.setRef
    by_cases hij : i = j
    · simp [hij]
    · simpa [update_of_ne hij] using hpos
  valid := h.valid

@[simp] theorem Tree.hold_inodes (t : Tree) (i : Nat) : (t.hold i).inodes = t.inodes := rfl

theorem Tree.hold_comm (t : Tree) (i j : Nat) : (t.hold i).hold j = (t.hold j).hold i := by
  by_cases hij : i = j
  · rw [hij]
  · simp [Tree.hold, Tree.setRef, update_of_ne hij, update_of_ne (Ne.symm hij), update_comm hij]

theorem Tree.Pinned.wp_ilock {Q : Unit → Tree → Prop} (h : t.Pinned i) :
    wp (ilock i) Q E t ↔ Q () t := by
  simp [Dir.ilock, h.valid, h.ref.ne']

theorem Tree.Pinned.put (h : t.Pinned i) : (t.hold i).put i = t := by
  have hpos := h.ref
  have hlast : ¬ (t.hold i).Last i := by
    simp only [Tree.Last, Tree.hold, Tree.setRef, update_self]
    omega
  rw [Tree.put, if_neg hlast]
  simp [Tree.hold, Tree.setRef]

variable {l : Int} {e : Name} {des : List Dirent}

theorem Tree.Pinned.wp_dirlookup {Q : Option (Nat × Nat) → Tree → Prop} (h : t.Pinned i)
    (hd : t.inodes d = ⟨.dir, l, des⟩) (hfind : findName e des = some (i, k)) :
    wp (dirlookup d e) Q E t ↔ Q (some (i, k)) (t.hold i) := by
  simp only [Dir.dirlookup, iget, wp_bind, wp_get, hd, hfind, h.ref, ne_eq, not_true_eq_false,
    if_false, if_true, wp_set, wp_pure]
  rfl

/-- The next entry of a directory without empty slots. -/
theorem wp_dirlink_next {Q : Bool → Tree → Prop} (hd : t.inodes d = ⟨.dir, l, des⟩)
    (hfresh : findName e des = none) (hfull : ∀ de ∈ des, de.inum ≠ 0)
    (hmax : des.length ≠ maxDirents) (hrefusals : t.refusals = []) :
    wp (dirlink d e i) Q E t ↔ Q true (t.setInode d ⟨.dir, l, des ++ [⟨i, e⟩]⟩) := by
  have hnone : des.findIdx? (fun de => de.inum = 0) = none := by
    simpa [findIdx?_eq_none_iff] using hfull
  have hsame : { t with refusals := [] } = t := by rw [← hrefusals]
  simp only [Dir.dirlink, Dir.dirlookup, wp_bind, wp_get, hd, hfresh, hnone, hmax, ne_eq,
    not_true_eq_false, if_false, wp_pure]
  split <;> simp only [wp_bind, wp_set, wp_pure, setDirents, wp_modify, hrefusals, tail_nil,
    hsame, headD_nil, Bool.false_eq_true, if_false, hd]

/-- A letter for each of sixteen digits, and a name for each number of four digits. -/
def letter (n : Nat) : Char := Char.ofNat ('a'.toNat + n % 16)

def label (n : Nat) : Name := [letter n, letter (n / 16), letter (n / 256), letter (n / 4096)]

theorem letter_spec : ∀ a < 16, letter a ≠ '/' ∧ ∀ b < 16, letter a = letter b → a = b := by decide

theorem label_inj {m n : Nat} (hm : m < 65536) (hn : n < 65536) (h : label m = label n) :
    m = n := by
  have hmod : ∀ a b, letter a = letter b → a % 16 = b % 16 := fun a b hab =>
    (letter_spec (a % 16) (by omega)).2 (b % 16) (by omega) (by simpa [letter] using hab)
  simp only [label, List.cons.injEq, and_true] at h
  obtain ⟨h₀, h₁, h₂, h₃⟩ := h
  have := hmod _ _ h₀
  have := hmod _ _ h₁
  have := hmod _ _ h₂
  have := hmod _ _ h₃
  omega

theorem letter_ne (a : Nat) : letter a ≠ '/' := fun h =>
  (letter_spec (a % 16) (by omega)).1 (by simpa [letter] using h)

theorem elements_label (n : Nat) : elements (label n) = [label n] := by
  rw [elements, elements_go _ (le_refl _),
    components_single (by simp [label]) (by simp [label, letter_ne])]
  rfl

theorem label_relative (n : Nat) : (label n).head? ≠ some '/' := by
  simpa [label] using letter_ne n

/-- A directory with `n + 1` entries for the file. -/
def listing (d n : Nat) : List Dirent :=
  ⟨d, dot⟩ :: ⟨rootino, dotdot⟩ :: ⟨2, ['f']⟩ :: (List.range n).map fun j => ⟨2, label j⟩

theorem listing_fresh {d n : Nat} (hn : n < 65536) : findName (label n) (listing d n) = none := by
  have hall : ∀ j < n, label j ≠ label n := fun j hj h => by
    have := label_inj (by omega) hn h
    omega
  simpa [findName, listing, findIdx?_eq_none_iff, label, dot, dotdot] using hall

variable {n : Nat}

theorem linkEntry_next (hfile : t.Pinned 2) (hdir : t.Pinned d) (hrefusals : t.refusals = [])
    (hd : t.inodes d = ⟨.dir, 1, listing d n⟩) (hpos : 0 < d) (hn : n < 17149) :
    Returns (linkEntry d (label n) 2)
      (fun _ t' => t' = t.setInode d ⟨.dir, 1, listing d (n + 1)⟩) (t.hold 2) := by
  have hfull : ∀ de ∈ listing d n, de.inum ≠ 0 := by simp [listing, hpos.ne', rootino]
  have hmax : (listing d n).length ≠ maxDirents := by
    have hsize : maxDirents = 17152 := by decide
    simp only [listing, length_cons, length_map, length_range, hsize]
    omega
  have hnext : listing d n ++ [⟨2, label n⟩] = listing d (n + 1) := by
    simp [listing, range_succ]
  have hheld := (hdir.hold 2).hold d
  unfold linkEntry nameiparent namex
  rw [if_neg (label_relative n), elements_label]
  simp only [namexLoop, idup, wp_bind, wp_modify]
  rw [← Tree.hold, hheld.wp_ilock, wp_get]
  simp only [Tree.hold_inodes, hd, ne_eq, not_true_eq_false, if_false, isEmpty_nil,
    Bool.and_self, if_true, wp_pure, wp_bind]
  rw [hheld.wp_ilock, wp_dirlink_next (t := (t.hold 2).hold d) hd (listing_fresh (by omega)) hfull
    hmax hrefusals, hnext]
  have hdone : (t.setInode d ⟨.dir, 1, listing d (n + 1)⟩).Pinned d := ⟨hdir.ref, hdir.valid⟩
  have hfile : (t.setInode d ⟨.dir, 1, listing d (n + 1)⟩).Pinned 2 := ⟨hfile.ref, hfile.valid⟩
  exact (congrArg (Tree.put · 2) (hdone.hold 2).put).trans hfile.put

/-- A link from one entry of the current directory to another. -/
theorem link_next (hfile : t.Pinned 2) (hdir : t.Pinned d) (hrefusals : t.refusals = [])
    (h₂ : t.inodes 2 = ⟨.file, l, []⟩) (hd : t.inodes d = ⟨.dir, 1, listing d n⟩) (hlt : 2 < d)
    (hn : n < 17149) :
    Returns (link d ['f'] (label n)) (fun _ t' => t' =
      (t.setInode 2 ⟨.file, short (l + 1), []⟩).setInode d ⟨.dir, 1, listing d (n + 1)⟩) t := by
  have hfind : findName ['f'] (listing d n) = some (2, 2) := by
    simp [findName, listing, findIdx?_cons, dot, dotdot]
  unfold Dir.link namei namex
  simp only [show argstr ['f'] = true from rfl, show argstr (label n) = true from rfl, Bool.and_true,
    if_true, show elements ['f'] = [['f']] from rfl, namexLoop, idup]
  rw [if_neg (by decide)]
  simp only [wp_bind, wp_modify]
  rw [← Tree.hold, (hdir.hold d).wp_ilock, wp_get]
  simp only [Tree.hold_inodes, hd, ne_eq, not_true_eq_false, if_false, Bool.false_and,
    Bool.false_eq_true, wp_bind]
  rw [(hfile.hold d).wp_dirlookup hd hfind]
  simp only [wp_bind, wp_iput, wp_pure]
  rw [Tree.hold_comm, (hdir.hold 2).put, (hfile.hold 2).wp_ilock, wp_get]
  simp only [Tree.hold_inodes, h₂, reduceCtorEq, if_false, addNlink, wp_bind, wp_modify]
  refine @linkEntry_next (t.setInode 2 ⟨.file, short (l + 1), []⟩) d n ⟨hfile.ref, hfile.valid⟩
    ⟨hdir.ref, hdir.valid⟩ hrefusals ?_ (by omega) hn
  rw [← hd]
  exact update_of_ne (by omega) _ _

/-- The tree after `n` links in directory `d`, to a file with `c` links before. -/
def Tree.linked (t : Tree) (d c n : Nat) : Tree :=
  (t.setInode 2 ⟨.file, short (c + n), []⟩).setInode d ⟨.dir, 1, listing d n⟩

theorem Tree.linked_zero {c : Nat} (h₂ : t.inodes 2 = ⟨.file, short c, []⟩)
    (hd : t.inodes d = ⟨.dir, 1, listing d 0⟩) : t.linked d c 0 = t := by
  simp only [Tree.linked, Tree.setInode, Nat.cast_zero, add_zero, ← h₂, ← hd, update_eq_self]

/-- The links by process `p` in its current directory. -/
def linksBy (p : Fin nproc) (n : Nat) : List (Fin nproc × Call) :=
  (List.range n).map fun j => (p, .link ['f'] (label j))

theorem run_linksBy {s : Sys} {p : Fin nproc} {pr : Proc} {c : Nat} (hp : s.procs p = some pr)
    (hfile : t.Pinned 2) (hdir : t.Pinned pr.cwd) (hrefusals : t.refusals = []) (hlt : 2 < pr.cwd)
    (hn : n ≤ 17149) : run Sys.step { s with tree := t.linked pr.cwd c 0 } (linksBy p n) =
      .ok { s with tree := t.linked pr.cwd c n } := by
  induction n with
  | zero => rfl
  | succ n ih =>
    have hne : pr.cwd ≠ 2 := by omega
    have hlink := @link_next (t.linked pr.cwd c n) pr.cwd (short (c + n)) n
      ⟨hfile.ref, hfile.valid⟩ ⟨hdir.ref, hdir.valid⟩ hrefusals
      (by simp [Tree.linked, Tree.setInode, hne.symm]) (by simp [Tree.linked, Tree.setInode]) hlt hn
    have hshort : short (short (c + n) + 1) = short (c + (n + 1 : Nat)) := by
      simp [short, add_assoc]
    have hcall : Returns (Sys.call p pr (.link ['f'] (label n)))
        (fun _ s' => s' = { s with tree := t.linked pr.cwd c (n + 1) })
        { s with tree := t.linked pr.cwd c n } := by
      rw [Sys.call, Returns, wp_bind, wp_onTree]
      refine wp_mono hlink (fun _ t' ht' => ?_) fun _ => id
      simp only [hshort, Tree.linked, Tree.setInode] at ht'
      rw [update_comm hne, update_idem, update_idem] at ht'
      rw [ht']
      rfl
    obtain ⟨_, _, hok, rfl⟩ := exists_ok_of_wp hcall
    rw [linksBy, range_succ, map_append, ← linksBy, run_append_of_ok (ih (by omega))]
    exact run_cons_of_ok (by simp only [Sys.step, hp, hok]) []

/-- The child of the first process. -/
def second : Fin nproc := ⟨1, by decide⟩

/-- The two processes go to two new directories that have an entry for the file, which is open. -/
def crowded : List (Fin nproc × Call) :=
  [(initproc, .open ['f'] 0), (initproc, .mkdir ['a']), (initproc, .mkdir ['b']),
    (initproc, .link ['f'] ['a', '/', 'f']), (initproc, .link ['f'] ['b', '/', 'f']),
    (initproc, .fork), (initproc, .chdir ['a']), (second, .chdir ['b'])]

/-- Two directories have room for 32768 links to one file. -/
theorem link_count_wraps : ∃ s, run Sys.step (fileImage.boot [])
      (crowded ++ (linksBy initproc 17149 ++ linksBy second 15616)) = .ok s ∧
    s.tree.inodes 2 = ⟨.file, -32768, []⟩ ∧ s.tree.inodes 3 = ⟨.dir, 1, listing 3 17149⟩ ∧
    s.tree.inodes 4 = ⟨.dir, 1, listing 4 15616⟩ := by
  have hcrowded : Ends (fun s => ((s.procs initproc).map Proc.cwd = some 3 ∧
      (s.procs second).map Proc.cwd = some 4) ∧ (∀ i < 5, 1 < i → 0 < s.tree.ref i ∧
      s.tree.valid i = true) ∧ s.tree.refusals = [] ∧ s.tree.inodes 2 = ⟨.file, short 3, []⟩ ∧
      s.tree.inodes 3 = ⟨.dir, 1, listing 3 0⟩ ∧ s.tree.inodes 4 = ⟨.dir, 1, listing 4 0⟩)
      (run Sys.step (fileImage.boot []) crowded) := by decide +kernel
  obtain ⟨s, hrun, ⟨hcwd₁, hcwd₂⟩, hpinned, hrefusals, h₂, h₃, h₄⟩ := hcrowded.exists
  have hpin : ∀ i < 5, 1 < i → ∀ t : Tree, t.ref = s.tree.ref ∧ t.valid = s.tree.valid →
      t.Pinned i := fun i h h' t ht => ⟨ht.1 ▸ (hpinned i h h').1, ht.2 ▸ (hpinned i h h').2⟩
  obtain ⟨pr₁, hp₁, hcwd₁⟩ := Option.map_eq_some_iff.mp hcwd₁
  obtain ⟨pr₂, hp₂, hcwd₂⟩ := Option.map_eq_some_iff.mp hcwd₂
  have hfirst := @run_linksBy s.tree 17149 s initproc pr₁ 3 hp₁
    (hpin 2 (by decide) (by decide) _ ⟨rfl, rfl⟩)
    (hcwd₁ ▸ hpin 3 (by decide) (by decide) _ ⟨rfl, rfl⟩) hrefusals (by omega) (le_refl _)
  rw [hcwd₁, Tree.linked_zero h₂ h₃] at hfirst
  have hthen := @run_linksBy (s.tree.linked 3 3 17149) 15616 s second pr₂ 17152 hp₂
    (hpin 2 (by decide) (by decide) _ ⟨rfl, rfl⟩)
    (hcwd₂ ▸ hpin 4 (by decide) (by decide) _ ⟨rfl, rfl⟩) hrefusals (by omega) (by decide)
  rw [hcwd₂, Tree.linked_zero (by rfl) (by rw [← h₄]; rfl)] at hthen
  exact ⟨_, (run_append_of_ok hrun _).trans ((run_append_of_ok hfirst _).trans hthen),
    rfl, rfl, rfl⟩

end Wraps

end FogOS.Dir
