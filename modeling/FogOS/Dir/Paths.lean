import FogOS.Dir.Boot

/-!
# Path lookup and failed calls

What a caller can rely on without looking at the loops: a path names what its
components name one after the other, and a call that fails has changed no inode.
-/

namespace FogOS.Dir

open Library List

section Components

/-- The non-empty parts of a path between slashes, cut to `DIRSIZ` characters. -/
def components (path : List Char) : List Name :=
  ((path.splitOnP (· = '/')).filter (· ≠ [])).map (List.take dirsiz)

variable {path s : List Char}

theorem components_append (s path : List Char) :
    components (s ++ '/' :: path) = components s ++ components path := by
  simp [components, splitOnP_append_cons]

theorem components_single (hs : s ≠ []) (h : ∀ c ∈ s, c ≠ '/') :
    components s = [s.take dirsiz] := by
  rw [components, splitOnP_eq_singleton fun c hc => decide_eq_false (h c hc)]
  simp [hs]

/-- Slashes in front of a path say where it starts, and nothing else. -/
theorem components_dropWhile (path : List Char) :
    components (path.dropWhile (· = '/')) = components path := by
  induction path with
  | nil => rfl
  | cons c path ih =>
    by_cases hc : c = '/'
    · subst hc
      rw [dropWhile_cons_of_pos (by simp), ih]
      exact (components_append [] path).symm
    · rw [dropWhile_cons_of_neg (by simpa using hc)]

/-- The first component is what stands before the next slash. -/
theorem components_cons {c : Char} (hc : c ≠ '/') :
    components (c :: s) = ((c :: s).takeWhile (· ≠ '/')).take dirsiz ::
      components ((c :: s).dropWhile (· ≠ '/')) := by
  have hne : (c :: s).takeWhile (· ≠ '/') ≠ [] := by simp [hc]
  have hsingle := components_single hne fun x hx => by simpa using mem_takeWhile_imp hx
  have hhead := head?_dropWhile_not (· ≠ '/') (c :: s)
  have hsplit := @takeWhile_append_dropWhile _ (· ≠ '/') (c :: s)
  cases hrest : (c :: s).dropWhile (· ≠ '/') with
  | nil =>
    rw [hrest, append_nil] at hsplit
    rw [hsplit] at hsingle ⊢
    exact hsingle
  | cons d rest =>
    rw [hrest] at hhead hsplit
    obtain rfl : d = '/' := by simpa using hhead
    have hslash := components_append [] rest
    rw [← hsplit, components_append, hsingle, hsplit]
    exact congrArg _ hslash.symm

theorem elements_go (n : Nat) (h : path.length ≤ n) : elements.go n path = components path := by
  -- Every element takes at least one character.
  induction n generalizing path with
  | zero =>
    obtain rfl : path = [] := eq_nil_of_length_eq_zero (by omega)
    rfl
  | succ n ih =>
    have hle := length_dropWhile_le (· = '/') path
    have hhead := head?_dropWhile_not (· = '/') path
    rw [elements.go, ← components_dropWhile path, skipelem]
    cases hs : path.dropWhile (· = '/') with
    | nil => rfl
    | cons c s =>
      rw [hs] at hle hhead
      have hc : c ≠ '/' := by simpa using hhead
      rw [components_cons hc]
      simp only
      rw [ih, components_dropWhile]
      have hdrop : (c :: s).dropWhile (· ≠ '/') = s.dropWhile (· ≠ '/') :=
        dropWhile_cons_of_pos (by simpa using hc)
      have h₁ := length_dropWhile_le (· = '/') (s.dropWhile (· ≠ '/'))
      have h₂ := length_dropWhile_le (· ≠ '/') s
      rw [hdrop]
      rw [length_cons] at hle
      omega

end Components

section Resolve

/-- The entry of a directory with the given name. -/
def child (ino : Nat → Inode) (dir : Nat) (name : Name) : Option Nat :=
  if (ino dir).type = .dir then (findName name (ino dir).dirents).map Prod.fst else none

/-- Look the names up one after the other. -/
def resolve (ino : Nat → Inode) (start : Nat) (names : List Name) : Option Nat :=
  names.foldlM (child ino) start

/-- Where a path starts. -/
def startOf (cwd : Nat) (path : List Char) : Nat :=
  if path.head? = some '/' then rootino else cwd

/-- The directory that the names but the last one lead to, and the last name. -/
def resolveParent (ino : Nat → Inode) (start : Nat) (names : List Name) : Option (Nat × Name) := do
  let name ← names.getLast?
  let dp ← resolve ino start names.dropLast
  if (ino dp).type = .dir then some (dp, name) else none

variable {ino : Nat → Inode}

theorem walkLoop_namei (es : List Name) (name : Name) (ip : Nat) :
    (walkLoop ino false es name ip).map Prod.fst = resolve ino ip es := by
  induction es generalizing name ip with
  | nil => rfl
  | cons e es ih =>
    rw [resolve, foldlM_cons, walkLoop, child]
    by_cases hdir : (ino ip).type = .dir
    · cases hfind : findName e (ino ip).dirents with
      | none => simp [hdir]
      | some r => simpa [hdir, resolve] using ih e r.1
    · simp [hdir]

theorem walkLoop_nameiparent (es : List Name) (name : Name) (ip : Nat) :
    walkLoop ino true es name ip = resolveParent ino ip es := by
  induction es generalizing name ip with
  | nil => rfl
  | cons e es ih =>
    cases es with
    | nil => simp [walkLoop, resolveParent, resolve]
    | cons e' es =>
      rw [walkLoop]
      simp only [resolveParent, resolve, dropLast_cons_cons, foldlM_cons, child]
      by_cases hdir : (ino ip).type = .dir
      · cases hfind : findName e (ino ip).dirents with
        | none => simp [hdir]
        | some r => simpa [hdir, resolveParent, resolve] using ih e r.1
      · simp [hdir]

/-- Where no directory has an entry for a free inode, a path leads to what its components name one
after the other from the root or the current directory. The parent of the last component has to be
a directory. -/
theorem path_resolution (b : Tree) (hb : b.Sound) (hclosed : Closed b.inodes) (cwd : Nat)
    (hcwd : 0 < b.ref cwd) (path : List Char) :
    (∀ r t, namei cwd path b = .ok (r, t) →
      r = resolve b.inodes (startOf cwd path) (components path)) ∧
    (∀ r t, nameiparent cwd path b = .ok (r, t) →
      r = resolveParent b.inodes (startOf cwd path) (components path)) ∧
    ∀ e, namei cwd path b = .error e ∨ nameiparent cwd path b = .error e → e = .igetNoInodes := by
  have hnamei := namei_spec hb hb.holding (by simp) hcwd path
  have hparent := nameiparent_spec hb hb.holding (by simp) hcwd path
  rw [walk, ← startOf, elements, elements_go _ (le_refl _)] at hnamei hparent
  refine ⟨fun r t h => ?_, fun r t h => ?_, ?_⟩
  · rw [(wp_of_ok hnamei h).1, walkLoop_namei]
  · rw [(wp_of_ok hparent h).1, walkLoop_nameiparent]
  · rintro e (h | h)
    · exact (wp_of_error hnamei h).resolve_right fun he => he.2 hclosed
    · exact (wp_of_error hparent h).resolve_right fun he => he.2 hclosed

/-- An image with one file. -/
def fileImage : Image := ⟨[['f']], by decide, by decide⟩

theorem fileImage_closed (refusals : List Bool) : Closed (fileImage.boot refusals).tree.inodes := by
  intro z d hz hd hne
  obtain rfl := Image.dir_iff.mp hz
  have hall : ∀ d ∈ fileImage.rootDirents, d.inum ≠ 0 → (fileImage.inodes d.inum).type ≠ .free := by
    decide
  exact hall d hd hne

theorem path_resolution_file :
    ∃ t, namei rootino ['/', '/', 'f', '/'] (fileImage.boot []).tree = .ok (some 2, t) ∧
      some 2 = resolve fileImage.inodes rootino (components ['/', '/', 'f', '/']) :=
  ⟨_, rfl, (path_resolution _ (fileImage.boot_ok []).tree.toSound (fileImage_closed []) rootino
    (by decide) ['/', '/', 'f', '/']).1 _ _ rfl⟩

/-- The components but the last one lead to the file, but `nameiparent` does not return it. -/
theorem file_is_no_parent :
    components ['/', 'f', '/', 'x'] = [['f'], ['x']] ∧
      resolve fileImage.inodes rootino [['f']] = some 2 ∧
      ∃ t, nameiparent rootino ['/', 'f', '/', 'x'] (fileImage.boot []).tree = .ok (none, t) :=
  ⟨rfl, rfl, _, rfl⟩

end Resolve

section Failure

/-- A call that fails, at whatever point, leaves every inode and every reference count as it
was. -/
theorem failed_calls_change_nothing (b : Tree) (hb : b.Ok) (cwd : Nat) (hcwd : 0 < b.ref cwd) :
    (∀ path type t, type ≠ .free → create cwd path type b = .ok (none, t) →
      t.inodes = b.inodes ∧ t.ref = b.ref) ∧
    (∀ old new t, link cwd old new b = .ok (false, t) → t.inodes = b.inodes ∧ t.ref = b.ref) ∧
    ∀ path t, unlink cwd path b = .ok (false, t) → t.inodes = b.inodes ∧ t.ref = b.ref := by
  have hback : ∀ t, Holding b [] [] t → t.inodes = b.inodes ∧ t.ref = b.ref := fun t h =>
    ⟨h.inodes, funext h.ref⟩
  -- The effects of a call that succeeds do not matter here.
  refine ⟨fun path type t htype h => ?_, fun old new t h => ?_, fun path t h => ?_⟩
  · have hspec := @create_spec (fun _ _ => True) b cwd type hb hcwd path htype
      fun _ _ _ _ => trivial
    have hdone := wp_of_ok hspec h
    exact hback t hdone
  · have hspec := @link_spec (fun _ _ => True) b cwd hb hcwd old new fun _ _ _ _ => trivial
    have hdone := wp_of_ok hspec h
    exact hback t hdone
  · have hspec := @unlink_spec (fun _ _ => True) b cwd hb hcwd path (fun _ _ => trivial)
      fun _ _ _ _ _ _ => trivial
    have hdone := wp_of_ok hspec h
    exact hback t hdone

/-- The link count of `f` has been raised when the new place turns out not to exist. -/
theorem failed_calls_change_nothing_link :
    ∃ t, link rootino ['f'] ['d', '/', 'g'] (fileImage.boot []).tree = .ok (false, t) ∧
      t.inodes = fileImage.inodes ∧ t.ref = (fileImage.boot []).tree.ref :=
  ⟨_, rfl, (failed_calls_change_nothing _ (fileImage.boot_ok []).tree rootino (by decide)).2.1
    ['f'] ['d', '/', 'g'] _ rfl⟩

end Failure

end FogOS.Dir
