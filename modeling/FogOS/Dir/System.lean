import FogOS.Dir.Create
import FogOS.Dir.Link

/-!
# References across system calls

The references to an inode are the current directories and the open files; the
references to an open file are the descriptors. Every call keeps both exact, and
changes the inodes only by effects of the link graph.
-/

namespace FogOS.Dir

open Function Library List Finset Sys

section Counts

/-- The descriptors of a process slot that refer to a file. -/
def descriptors (pr : Option Proc) (f : Fin nfile) : Nat :=
  match pr with
  | none => 0
  | some pr => ∑ fd, if pr.ofile fd = some f then 1 else 0

/-- One if the current directory of a process slot is `i`. -/
def cwdAt (pr : Option Proc) (i : Nat) : Nat :=
  match pr with
  | none => 0
  | some pr => if pr.cwd = i then 1 else 0

/-- One if an open file refers to inode `i`. -/
def fileAt (x : File) (i : Nat) : Nat := if 0 < x.ref ∧ x.ip = some i then 1 else 0

/-- The current directories and open files that refer to inode `i`. -/
def holders (procs : Fin nproc → Option Proc) (files : Fin nfile → File) (i : Nat) : Nat :=
  ∑ p, cwdAt (procs p) i + ∑ f, fileAt (files f) i

/-- The descriptors of all processes that refer to a file. -/
def uses (procs : Fin nproc → Option Proc) (f : Fin nfile) : Nat :=
  ∑ p, descriptors (procs p) f

end Counts

/-- The state in the middle of a call that started with the inodes `ino`: the call holds the
references `X` to inodes and `F` to files beyond those of processes and descriptors. -/
structure Mid (G : (Nat → Inode) → Effect → Prop) (ino : Nat → Inode) (X : List Nat)
    (F : List (Fin nfile)) (s : Sys) : Prop where
  tree : s.tree.Ok
  refs : ∀ i, s.tree.ref i = holders s.procs s.files i + X.count i
  uses : ∀ f, (s.files f).ref = uses s.procs f + F.count f
  closed : ∀ f, (s.files f).ref = 0 → (s.files f).ip = none
  evolves : Evolves G ino s.tree.inodes

/-- The invariant between calls. -/
structure Sys.Ok (s : Sys) : Prop where
  tree : s.tree.Ok
  refs : ∀ i, s.tree.ref i = holders s.procs s.files i
  uses : ∀ f, (s.files f).ref = uses s.procs f
  closed : ∀ f, (s.files f).ref = 0 → (s.files f).ip = none

section Frames

variable {G : (Nat → Inode) → Effect → Prop} {ino : Nat → Inode} {X Y : List Nat}
  {F H : List (Fin nfile)} {s : Sys} {p : Fin nproc} {pr : Proc} {f : Fin nfile} {i : Nat}
  {E : DirPanic → Prop} {α : Type} {m : Op α} {Q : α → Sys → Prop}

theorem Sys.Ok.mid (h : s.Ok) : Mid G s.tree.inodes [] [] s :=
  ⟨h.tree, by simpa using h.refs, by simpa using h.uses, h.closed, Evolves.refl⟩

theorem Mid.ok (h : Mid G ino [] [] s) : s.Ok :=
  ⟨h.tree, by simpa using h.refs, by simpa using h.uses, h.closed⟩

theorem wp_onTree : wp (onTree m) Q E s ↔
    wp m (fun a t => Q a { s with tree := t }) E s.tree := by
  unfold wp onTree
  cases m s.tree with
  | ok r => exact Iff.rfl
  | error e => exact Iff.rfl

theorem holders_pos_of_cwd (h : s.procs p = some pr) : 0 < holders s.procs s.files pr.cwd := by
  have hone : cwdAt (s.procs p) pr.cwd = 1 := by simp [h, cwdAt]
  have hle : cwdAt (s.procs p) pr.cwd ≤ ∑ q, cwdAt (s.procs q) pr.cwd :=
    single_le_sum (f := fun q => cwdAt (s.procs q) pr.cwd) (fun _ _ => zero_le)
      (mem_univ p)
  unfold holders
  omega

theorem Mid.cwd_pos (h : Mid G ino X F s) (hp : s.procs p = some pr) : 0 < s.tree.ref pr.cwd := by
  have := holders_pos_of_cwd hp
  rw [h.refs]
  omega

/-- Replacing a process moves references between it and the call. -/
theorem Mid.setProc (h : Mid G ino X F s) {x : Option Proc}
    (hcwd : ∀ i, cwdAt x i + Y.count i = cwdAt (s.procs p) i + X.count i)
    (hfd : ∀ f, descriptors x f + H.count f = descriptors (s.procs p) f + F.count f) :
    Mid G ino Y H { s with procs := update s.procs p x } := by
  refine ⟨h.tree, ?_, ?_, h.closed, h.evolves⟩
  · intro i
    have hsum := sum_change (s := univ) (f := fun q => cwdAt (s.procs q) i)
      (g := fun q => cwdAt (update s.procs p x q) i) (mem_univ p)
      (fun q hq => by simp [hq])
    have hrefs := h.refs i
    have hi := hcwd i
    simp only [update_self] at hsum
    unfold holders at hrefs ⊢
    simp only
    omega
  · intro f
    have hsum := sum_change (s := univ) (f := fun q => descriptors (s.procs q) f)
      (g := fun q => descriptors (update s.procs p x q) f) (mem_univ p)
      (fun q hq => by simp [hq])
    have huses := h.uses f
    have hf := hfd f
    simp only [update_self] at hsum
    unfold Dir.uses at huses ⊢
    simp only
    omega

/-- Replacing a file moves references between it and the call. -/
theorem Mid.setFile (h : Mid G ino X F s) {x : File}
    (hip : ∀ i, fileAt x i + Y.count i = fileAt (s.files f) i + X.count i)
    (href : x.ref + F.count f = (s.files f).ref + H.count f)
    (hrest : ∀ g, g ≠ f → H.count g = F.count g) (hclosed : x.ref = 0 → x.ip = none) :
    Mid G ino Y H { s with files := update s.files f x } := by
  refine ⟨h.tree, ?_, ?_, ?_, h.evolves⟩
  · intro i
    have hsum := sum_change (s := univ) (f := fun g => fileAt (s.files g) i)
      (g := fun g => fileAt (update s.files f x g) i) (mem_univ f)
      (fun g hg => by simp [hg])
    have hrefs := h.refs i
    have hi := hip i
    simp only [update_self] at hsum
    unfold holders at hrefs ⊢
    simp only
    omega
  · intro g
    have huses := h.uses g
    by_cases hg : g = f
    · subst hg
      simp only [update_self]
      omega
    · simp only [update_of_ne hg]
      have hcount := hrest g hg
      omega
  · intro g
    by_cases hg : g = f
    · subst hg
      simpa using hclosed
    · simpa [hg] using h.closed g

/-- Giving back a reference that the call holds. -/
theorem Mid.iput (h : Mid G ino (i :: X) F s) (hfree : ∀ ino i, G ino (.free i)) :
    wp (onTree (iput i)) (fun _ s' => Mid G ino X F s' ∧ s'.procs = s.procs) E s := by
  have hpos : 0 < s.tree.ref i := by
    rw [h.refs, count_cons_self]
    omega
  obtain ⟨hok, hev⟩ := h.tree.put hpos (G := G) fun ino => hfree ino i
  rw [wp_onTree, wp_iput]
  refine ⟨⟨hok, ?_, h.uses, h.closed, h.evolves.trans hev⟩, rfl⟩
  intro j
  have hj := h.refs j
  simp only [Tree.put_ref]
  by_cases hji : j = i
  · subst hji
    rw [count_cons_self] at hj
    rw [update_self]
    omega
  · rw [count_cons_of_ne (Ne.symm hji)] at hj
    rw [update_of_ne hji]
    exact hj

/-- The state after a call of the directory layer. -/
theorem After.mid {t : Tree} {V : List Nat} (h : s.Ok) (ht : After G s.tree X V t) :
    Mid G s.tree.inodes X [] { s with tree := t } := by
  obtain ⟨b', hb', href, hev, hhold⟩ := ht
  refine ⟨hhold.ok hb', ?_, by simpa using h.uses, h.closed, ?_⟩
  · intro i
    rw [hhold.ref i, href, h.refs i]
  · simp only [hhold.inodes]
    exact hev

end Frames

section Files

variable {G : (Nat → Inode) → Effect → Prop} {ino : Nat → Inode} {X : List Nat}
  {F : List (Fin nfile)} {s : Sys} {p : Fin nproc} {pr : Proc} {f : Fin nfile} {fd : Fin nofile}
  {i : Nat} {E : DirPanic → Prop} {x : Option Proc}

theorem fileAt_zero (ip : Option Nat) (i : Nat) : fileAt ⟨0, ip⟩ i = 0 := by
  simp [fileAt]

/-- Closing a file gives back one reference to it, and the last one gives back its inode. -/
theorem Mid.fileclose (h : Mid G ino X (f :: F) s) (hfree : ∀ ino i, G ino (.free i))
    (hE : E .fileclose) :
    wp (fileclose f) (fun _ s' => Mid G ino X F s' ∧ s'.procs = s.procs) E s := by
  unfold Sys.fileclose Sys.setFile
  simp only [wp_bind, wp_get, wp_ite, wp_throw, wp_modify]
  refine ⟨fun _ => hE, fun _ => ⟨fun hmany => ⟨?_, trivial⟩, fun hone => ?_⟩⟩
  · apply h.setFile
    · intro i
      have hsame : fileAt { s.files f with ref := (s.files f).ref - 1 } i = fileAt (s.files f) i := by
        unfold fileAt
        simp only [show 0 < (s.files f).ref - 1 ↔ 0 < (s.files f).ref by omega]
      rw [hsame]
    · rw [count_cons_self]
      simp only
      omega
    · intro g hg
      rw [count_cons_of_ne (Ne.symm hg)]
    · simp only
      omega
  · have href : (s.files f).ref = 1 := by omega
    cases hip : (s.files f).ip with
    | none =>
      refine ⟨h.setFile ?_ ?_ ?_ fun _ => rfl, rfl⟩
      · simp [fileAt, hip]
      · rw [count_cons_self, href]
        simp only
        omega
      · intro g hg
        rw [count_cons_of_ne (Ne.symm hg)]
    | some ip =>
      have hmid : Mid G ino (ip :: X) F { s with files := update s.files f ⟨0, none⟩ } := by
        apply h.setFile
        · intro i
          by_cases hi : ip = i
          · subst hi
            simp [fileAt, hip, href]
            omega
          · simp [fileAt, hip, hi]
        · rw [count_cons_self, href]
          simp only
          omega
        · intro g hg
          rw [count_cons_of_ne (Ne.symm hg)]
        · exact fun _ => rfl
      exact hmid.iput hfree

/-- The order of an operation on the tree and of a change to a process does not matter. -/
theorem wp_onTree_setProc {m : Op Unit} {Q : Unit → Sys → Prop}
    (h : wp (do setProc p x; onTree m) Q E s) :
    wp (do onTree m; setProc p x) Q E s := by
  simp only [wp_bind, wp_onTree, wp_modify] at h ⊢
  exact h

/-- The order of closing a file and of a change to a process does not matter. -/
theorem wp_fileclose_setProc {Q : Unit → Sys → Prop}
    (h : wp (do setProc p x; fileclose f) Q E s) :
    wp (do fileclose f; setProc p x) Q E s := by
  unfold fileclose setProc setFile at h ⊢
  simp only [wp_bind, wp_get, wp_ite, wp_throw, wp_modify] at h ⊢
  refine ⟨h.1, fun hlt => ⟨(h.2 hlt).1, fun hone => ?_⟩⟩
  have hlast := (h.2 hlt).2 hone
  cases hip : (s.files f).ip with
  | none =>
    rw [hip] at hlast
    exact hlast
  | some ip =>
    rw [hip] at hlast
    exact hlast

/-- A descriptor that is given away or taken back. -/
theorem descriptors_update (hfd : pr.ofile fd = none) (f g : Fin nfile) :
    descriptors (some { pr with ofile := update pr.ofile fd (some f) }) g =
      descriptors (some pr) g + [f].count g := by
  have hsum := sum_change (s := univ) (f := fun d => if pr.ofile d = some g then 1 else 0)
    (g := fun d => if update pr.ofile fd (some f) d = some g then 1 else 0)
    (mem_univ fd) (fun d hd => by simp [hd])
  simp only [update_self, hfd, Option.some.injEq, reduceCtorEq, if_false, add_zero] at hsum
  simp only [descriptors, hsum]
  by_cases hfg : f = g
  · simp [hfg]
  · simp [hfg]

theorem descriptors_clear (hfd : pr.ofile fd = some f) (g : Fin nfile) :
    descriptors (some { pr with ofile := update pr.ofile fd none }) g + [f].count g =
      descriptors (some pr) g := by
  have hback := @descriptors_update { pr with ofile := update pr.ofile fd none } fd (by simp) f g
  simp only [update_idem] at hback
  rw [← hfd, update_eq_self] at hback
  exact hback.symm

/-- Closing a descriptor. -/
theorem Mid.closeFd (h : Mid G ino X F s) (hfree : ∀ ino i, G ino (.free i))
    (hE : E .fileclose) (hp : s.procs p = some pr) (hfd : pr.ofile fd = some f) :
    wp (do
        Sys.setProc p (some { pr with ofile := update pr.ofile fd none })
        Sys.fileclose f)
      (fun _ s' => Mid G ino X F s' ∧
        s'.procs p = some { pr with ofile := update pr.ofile fd none }) E s := by
  have hmid : Mid G ino X (f :: F) { s with
        procs := update s.procs p (some { pr with ofile := update pr.ofile fd none }) } := by
    apply h.setProc
    · intro i
      rw [hp]
      rfl
    · intro g
      have hclear := descriptors_clear hfd g
      rw [hp, count_cons]
      rw [count_singleton] at hclear
      omega
  apply wp_mono (hmid.fileclose hfree hE) ?_ fun _ he => he
  rintro - s' ⟨h', hprocs⟩
  refine ⟨h', ?_⟩
  rw [hprocs]
  exact update_self _ _ _

end Files

section Calls

variable {G : (Nat → Inode) → Effect → Prop} {s : Sys} {p : Fin nproc} {pr : Proc} {i : Nat}
  {E : DirPanic → Prop} {ino : Nat → Inode}

/-- The end of `open` keeps the reference to the inode in the new file, or gives it back. -/
theorem openInode_spec (h : Mid G ino [i] [] s) (hfree : ∀ ino i, G ino (.free i))
    (hE : E .fileclose) (hp : s.procs p = some pr) :
    wp (openInode p pr i) (fun _ s' => Mid G ino [] [] s') E s := by
  have hput : ∀ s', Mid G ino [i] [] s' →
      wp (do onTree (iput i); pure none) (fun (_ : Option (Fin nofile)) s' => Mid G ino [] [] s')
        E s' := by
    intro s' h'
    apply wp_seq (h'.iput hfree)
    intro _ s'' h''
    exact h''.1
  unfold openInode
  rw [wp_bind, wp_get]
  rw [wp_ite]
  refine ⟨fun _ => hput s h, fun _ => ?_⟩
  unfold filealloc
  simp only [wp_bind, wp_get]
  cases hfind : (List.finRange nfile).find? fun f => (s.files f).ref = 0 with
  | none => exact hput s h
  | some f =>
    have hzero : (s.files f).ref = 0 := by simpa using find?_some hfind
    have hnone := h.closed f hzero
    have hmid : Mid G ino [i] [f]
        { s with files := update s.files f { s.files f with ref := 1 } } := by
      apply h.setFile
      · simp [fileAt, hnone, hzero]
      · simp [hzero]
      · intro g hg
        simp [Ne.symm hg]
      · simp
    unfold setFile
    simp only [wp_bind, wp_modify, wp_pure]
    unfold fdalloc
    cases hfd : (List.finRange nofile).find? fun fd => pr.ofile fd = none with
    | none =>
      apply wp_seq (hmid.fileclose hfree hE)
      rintro - s' ⟨h', -⟩
      exact hput s' h'
    | some fd =>
      have hofile : pr.ofile fd = none := by simpa using find?_some hfd
      unfold setProc
      simp only [wp_bind, wp_modify, wp_pure]
      have hmid' : Mid G ino [i] [] { s with
            files := update s.files f { s.files f with ref := 1 }
            procs := update s.procs p
              (some { pr with ofile := update pr.ofile fd (some f) }) } := by
        apply hmid.setProc
        · intro j
          simp only [hp]
          rfl
        · intro g
          simp only [hp, descriptors_update hofile, count_nil, add_zero]
      have hdone := hmid'.setFile (f := f) (x := ⟨1, some i⟩) (Y := []) (H := []) (by
          intro j
          by_cases hij : i = j
          · simp [fileAt, hnone, hij]
          · simp [fileAt, hnone, hij])
      simpa using hdone

/-- The panics of a system call: those of the directory layer, of the file table and of `exit`. -/
def SysPanic (b : Tree) (e : DirPanic) : Prop :=
  NoType b e ∨ e = .filedup ∨ e = .fileclose ∨ e = .initExiting

theorem onTree_seq {α β : Type} {b : Tree} {m : Op α} {R : α → Tree → Prop} {f : α → SysOp β}
    {Q : β → Sys → Prop} (h : wp m R (NoType b) s.tree)
    (hf : ∀ a t, R a t → wp (f a) Q (SysPanic b) { s with tree := t }) :
    wp (onTree m >>= f) Q (SysPanic b) s := by
  rw [wp_bind, wp_onTree]
  exact wp_mono h hf fun _ => Or.inl

section

variable (h : s.Ok) (hfree : ∀ ino i, G ino (.free i)) (hp : s.procs p = some pr)

include h hfree hp

theorem sysOpen_spec
    (path : List Char) (omode : Nat)
    (hG : omode &&& oCreate ≠ 0 → ∀ dp name i,
      walk s.tree.inodes pr.cwd path true = some (dp, name) →
      G s.tree.inodes (.create dp i name .file)) :
    wp (sysOpen p pr path omode) (fun _ s' => Mid G s.tree.inodes [] [] s')
      (SysPanic s.tree) s := by
  have hE : SysPanic s.tree .fileclose := by simp [SysPanic]
  have hcwd : 0 < s.tree.ref pr.cwd := (h.mid (G := G)).cwd_pos hp
  unfold sysOpen
  rw [wp_ite]
  refine ⟨fun _ => ?_, fun _ => h.mid⟩
  rw [wp_ite]
  constructor
  · intro hcreate
    apply onTree_seq (create_spec h.tree hcwd path (by decide) (hG hcreate))
    rintro (_ | i) t ht
    · exact (Holding.after h.tree ht).mid h
    · exact openInode_spec (ht.mid h) hfree hE hp
  · intro _
    apply onTree_seq (namei_spec h.tree.toSound h.tree.holding (by simp) hcwd path)
    rintro (_ | i) t ⟨-, ht⟩
    · exact (ht.after h.tree).mid h
    · apply onTree_seq (s := { s with tree := t }) (ilock_got ht.1 ht.2)
      intro _ t' ht'
      have hmid : Mid G s.tree.inodes [i] [] { s with tree := t' } := (ht'.after h.tree).mid h
      rw [wp_bind, wp_get, wp_ite]
      refine ⟨fun _ => ?_, fun _ => openInode_spec hmid hfree hE hp⟩
      apply wp_seq (hmid.iput hfree)
      intro _ s' h'
      exact h'.1

theorem sysMake_spec
    (path : List Char) {type : InodeType} (htype : type ≠ .free)
    (hG : ∀ dp name i, walk s.tree.inodes pr.cwd path true = some (dp, name) →
      G s.tree.inodes (.create dp i name type)) :
    wp (sysMake pr path type) (fun _ s' => Mid G s.tree.inodes [] [] s')
      (SysPanic s.tree) s := by
  have hcwd : 0 < s.tree.ref pr.cwd := (h.mid (G := G)).cwd_pos hp
  unfold sysMake
  rw [wp_ite]
  refine ⟨fun _ => ?_, fun _ => h.mid⟩
  apply onTree_seq (create_spec h.tree hcwd path htype hG)
  rintro (_ | i) t ht
  · exact (Holding.after h.tree ht).mid h
  · have hmid : Mid G s.tree.inodes [i] [] { s with tree := t } := ht.mid h
    exact wp_mono (hmid.iput hfree) (fun _ _ h' => h'.1) fun _ he => he

theorem sysChdir_spec (path : List Char) :
    wp (sysChdir p pr path) (fun _ s' => Mid G s.tree.inodes [] [] s') (SysPanic s.tree) s := by
  have hcwd : 0 < s.tree.ref pr.cwd := (h.mid (G := G)).cwd_pos hp
  unfold sysChdir
  rw [wp_ite]
  refine ⟨fun _ => ?_, fun _ => h.mid⟩
  apply onTree_seq (namei_spec h.tree.toSound h.tree.holding (by simp) hcwd path)
  rintro (_ | i) t ⟨-, ht⟩
  · exact (ht.after h.tree).mid h
  · apply onTree_seq (s := { s with tree := t }) (ilock_got ht.1 ht.2)
    intro _ t' ht'
    have hmid : Mid G s.tree.inodes [i] [] { s with tree := t' } := (ht'.after h.tree).mid h
    rw [wp_bind, wp_get, wp_ite]
    refine ⟨fun _ => ?_, fun _ => ?_⟩
    · exact wp_mono (hmid.iput hfree) (fun _ _ h' => h'.1) fun _ he => he
    · apply wp_onTree_setProc
      unfold setProc
      rw [wp_bind, wp_modify]
      have hmid' : Mid G s.tree.inodes [pr.cwd] [] { s with
            tree := t'
            procs := update s.procs p (some { pr with cwd := i }) } := by
        apply hmid.setProc
        · simp only [hp, cwdAt, count_singleton, beq_iff_eq]
          omega
        · intro f
          simp only [hp]
          rfl
      exact wp_mono (hmid'.iput hfree) (fun _ _ h' => h'.1) fun _ he => he

theorem sysClose_spec (fd : Fin nofile) (hE : E .fileclose) :
    wp (sysClose p pr fd) (fun _ s' => Mid G s.tree.inodes [] [] s') E s := by
  unfold sysClose
  cases hfd : pr.ofile fd with
  | none => exact h.mid
  | some f =>
    exact wp_mono (h.mid.closeFd hfree hE hp hfd) (fun _ _ h' => h'.1) fun _ he => he

omit h hfree hp in
/-- The loop of `exit` closes the given descriptors. -/
theorem closeAll_spec (hfree : ∀ ino i, G ino (.free i)) (hE : E .fileclose)
    (fds : List (Fin nofile)) (h : Mid G ino [] [] s) (hp : s.procs p = some pr) :
    wp (closeAll p fds pr) (fun pr' s' => Mid G ino [] [] s' ∧ s'.procs p = some pr' ∧
      pr'.cwd = pr.cwd ∧ ∀ fd, fd ∈ fds ∨ pr.ofile fd = none → pr'.ofile fd = none) E s := by
  induction fds generalizing s pr with
  | nil => exact ⟨h, hp, rfl, by simp⟩
  | cons fd fds ih =>
    unfold closeAll
    cases hfd : pr.ofile fd with
    | none =>
      apply wp_mono (ih h hp) ?_ fun _ he => he
      rintro pr' s' ⟨h', hp', hcwd, hnone⟩
      refine ⟨h', hp', hcwd, fun fd' hfd' => hnone fd' ?_⟩
      rcases hfd' with hmem | hfd'
      · rcases mem_cons.mp hmem with rfl | hmem
        · exact Or.inr hfd
        · exact Or.inl hmem
      · exact Or.inr hfd'
    | some f =>
      apply wp_seq_two (wp_fileclose_setProc (h.closeFd hfree hE hp hfd))
      rintro - s₁ ⟨h₁, hp₁⟩
      apply wp_mono (ih h₁ hp₁) ?_ fun _ he => he
      rintro pr' s' ⟨h', hp', hcwd, hnone⟩
      refine ⟨h', hp', hcwd, fun fd' hfd' => hnone fd' ?_⟩
      by_cases heq : fd' = fd
      · subst heq
        exact Or.inr (by simp)
      · rcases hfd' with hmem | hfd'
        · exact Or.inl ((mem_cons.mp hmem).resolve_left heq)
        · exact Or.inr (by simpa [heq] using hfd')

theorem exit_spec (hE : E .fileclose) (hE' : E .initExiting) :
    wp (exit p pr) (fun _ s' => Mid G s.tree.inodes [] [] s') E s := by
  unfold exit
  rw [wp_ite]
  refine ⟨fun _ => hE', fun _ => ?_⟩
  apply wp_seq (closeAll_spec hfree hE (List.finRange nofile) h.mid hp)
  rintro pr' s₁ ⟨h₁, hp₁, -, hnone⟩
  apply wp_onTree_setProc
  unfold setProc
  rw [wp_bind, wp_modify]
  have hmid : Mid G s.tree.inodes [pr'.cwd] [] { s₁ with procs := update s₁.procs p none } := by
    apply h₁.setProc
    · simp only [hp₁, cwdAt, count_singleton, beq_iff_eq, count_nil]
      omega
    · intro f
      have hzero : descriptors (some pr') f = 0 := by
        simp [descriptors, hnone _ (Or.inl (mem_finRange _))]
      simp only [hp₁, hzero]
      rfl
  exact wp_mono (hmid.iput hfree) (fun _ _ h' => h'.1) fun _ he => he

end

/-- The loop of `fork` takes a reference for each descriptor that the child gets. -/
theorem shareAll_spec {F : List (Fin nfile)} {child : Proc} (hE : E .filedup)
    (fds : List (Fin nofile)) (hnodup : fds.Nodup) (h : Mid G ino [] F s)
    (hfresh : ∀ fd, fd ∈ fds → child.ofile fd = none)
    (hcount : ∀ f, descriptors (some child) f = F.count f) :
    wp (shareAll pr fds child) (fun child' s' => ∃ F', Mid G ino [] F' s' ∧
      s'.procs = s.procs ∧ child'.cwd = child.cwd ∧
      ∀ f, descriptors (some child') f = F'.count f) E s := by
  induction fds generalizing s child F with
  | nil => exact ⟨F, h, rfl, rfl, hcount⟩
  | cons fd fds ih =>
    obtain ⟨hnot, hnodup⟩ := nodup_cons.mp hnodup
    unfold shareAll
    cases hfd : pr.ofile fd with
    | none => exact ih hnodup h (fun d hd => hfresh d (mem_cons_of_mem fd hd)) hcount
    | some f =>
      unfold filedup setFile
      simp only [wp_bind, wp_get, wp_ite, wp_throw, wp_modify]
      refine ⟨fun _ => hE, fun hpos => ?_⟩
      have hmid : Mid G ino [] (f :: F) { s with
            files := update s.files f { s.files f with ref := (s.files f).ref + 1 } } := by
        apply h.setFile
        · intro i
          have hsame : fileAt { s.files f with ref := (s.files f).ref + 1 } i =
              fileAt (s.files f) i := by
            unfold fileAt
            simp only [show 0 < (s.files f).ref + 1 ↔ 0 < (s.files f).ref by omega]
          rw [hsame]
        · rw [count_cons_self]
          simp only
          omega
        · intro g hg
          rw [count_cons_of_ne (Ne.symm hg)]
        · simp
      have hrest : ∀ d, d ∈ fds → update child.ofile fd (some f) d = none := by
        intro d hd
        have hne : d ≠ fd := by
          rintro rfl
          exact hnot hd
        rw [update_of_ne hne]
        exact hfresh d (mem_cons_of_mem fd hd)
      apply wp_mono (ih hnodup hmid hrest ?_) (fun _ _ h' => h') fun _ he => he
      intro g
      rw [descriptors_update (hfresh fd mem_cons_self), hcount g, count_singleton, count_cons]

theorem fork_spec (h : s.Ok) (hp : s.procs p = some pr) (hE : E .filedup) :
    wp (fork pr) (fun _ s' => Mid G s.tree.inodes [] [] s') E s := by
  unfold fork
  rw [wp_bind, wp_get]
  cases hfind : (List.finRange nproc).find? fun np => (s.procs np).isNone with
  | none => exact h.mid
  | some np =>
    have hnone : s.procs np = none := by simpa using find?_some hfind
    have hshare := @shareAll_spec G s pr E s.tree.inodes [] ⟨pr.cwd, fun _ => none⟩ hE
      (List.finRange nofile) (nodup_finRange nofile) h.mid (fun _ _ => rfl)
      (by simp [descriptors])
    apply wp_seq hshare
    rintro child s₁ ⟨F, h₁, hprocs, hcwd, hcount⟩
    have hpos : 0 < s₁.tree.ref pr.cwd := h₁.cwd_pos (by rw [hprocs]; exact hp)
    have hdup := (h₁.tree.holding.dup hpos).ok h₁.tree
    have hmid : Mid G s.tree.inodes [pr.cwd] F
        { s₁ with tree := s₁.tree.setRef pr.cwd (s₁.tree.ref pr.cwd + 1) } := by
      refine ⟨hdup, ?_, h₁.uses, h₁.closed, h₁.evolves⟩
      intro j
      have hj := h₁.refs j
      by_cases hji : j = pr.cwd
      · subst hji
        simp only [Tree.setRef, update_self, count_singleton_self]
        simp only [count_nil, add_zero] at hj
        omega
      · simp only [Tree.setRef, update_of_ne hji, count_singleton, beq_iff_eq,
          Ne.symm hji, if_false]
        exact hj
    apply hmid.setProc
    · simp only [hprocs, hnone, cwdAt, hcwd, count_singleton, beq_iff_eq, count_nil]
      omega
    · intro f
      simp only [hprocs, hnone, hcount f]
      simp [descriptors]

end Calls

section Step

variable {G : (Nat → Inode) → Effect → Prop} {s : Sys} {p : Fin nproc} {pr : Proc}

/-- The effects that the call can have meet `G`, and `link` does not exceed the largest
`short`. -/
def Call.Meets (G : (Nat → Inode) → Effect → Prop) (ino : Nat → Inode) (cwd : Nat) : Call → Prop
  | .open path omode => omode &&& Sys.oCreate ≠ 0 → ∀ dp name i,
      walk ino cwd path true = some (dp, name) → G ino (.create dp i name .file)
  | .mkdir path => ∀ dp name i,
      walk ino cwd path true = some (dp, name) → G ino (.create dp i name .dir)
  | .mknod path major minor => ∀ dp name i,
      walk ino cwd path true = some (dp, name) →
      G ino (.create dp i name (.device (short major) (short minor)))
  | .link old new =>
    (∀ i name, walk ino cwd old false = some (i, name) → (ino i).nlink < 32767) ∧
    ∀ dp name i, walk ino cwd new true = some (dp, name) → G ino (.link dp i name)
  | .unlink path => ∀ dp name i k, walk ino cwd path true = some (dp, name) →
      findName name (ino dp).dirents = some (i, k) → G ino (.unlink dp i k)
  | .chdir _ => True
  | .close _ => True
  | .exit => True
  | .fork => True

section

variable (h : s.Ok) (hfree : ∀ ino i, G ino (.free i))

include h hfree

/-- Every call keeps the invariant and changes the inodes by effects that meet `G`; it panics
in `ilock` only if some directory has an entry for a free inode. -/
theorem call_spec (hp : s.procs p = some pr) (c : Call) (hc : c.Meets G s.tree.inodes pr.cwd) :
    wp (call p pr c) (fun _ s' => Mid G s.tree.inodes [] [] s') (SysPanic s.tree) s := by
  have hcwd : 0 < s.tree.ref pr.cwd := (h.mid (G := G)).cwd_pos hp
  cases c with
  | «open» path omode =>
    apply wp_seq (sysOpen_spec h hfree hp path omode hc)
    intro _ s' h'
    exact h'
  | mkdir path => exact sysMake_spec h hfree hp path (by decide) hc
  | mknod path major minor => exact sysMake_spec h hfree hp path (by simp) hc
  | link old new =>
    apply onTree_seq (link_spec h.tree hcwd old new hc.2)
    intro _ t ht
    exact (ht.after h.tree hc.1).mid h
  | unlink path =>
    apply onTree_seq (unlink_spec h.tree hcwd path hfree hc)
    intro _ t ht
    exact (ht.after h.tree trivial).mid h
  | chdir path => exact sysChdir_spec h hfree hp path
  | close fd => exact sysClose_spec h hfree hp fd (by simp [SysPanic])
  | exit => exact exit_spec h hfree hp (by simp [SysPanic]) (by simp [SysPanic])
  | fork => exact fork_spec h hp (by simp [SysPanic])

/-- The path of the inode that a call links to. -/
def Call.linked : Call → Option (List Char)
  | .link old _ => some old
  | _ => none

/-- The inode at the end of a path has fewer links than a `short` can count. -/
def LinkFits (s : Sys) (pr : Proc) (c : Call) : Prop :=
  ∀ old ∈ c.linked, ∀ r ∈ walk s.tree.inodes pr.cwd old false, (s.tree.inodes r.1).nlink < 32767

instance (s : Sys) (pr : Proc) (c : Call) : Decidable (LinkFits s pr c) :=
  inferInstanceAs (Decidable (∀ _ ∈ _, _))

/-- The call of a process slot meets `G`. -/
def StepMeets (G : (Nat → Inode) → Effect → Prop) (s : Sys) : Fin nproc × Call → Prop
  | (p, c) => ∀ pr, s.procs p = some pr → c.Meets G s.tree.inodes pr.cwd

variable {a : Fin nproc × Call}

theorem step_ok {s' : Sys} (ha : StepMeets G s a) (hstep : s.step a = .ok s') :
    s'.Ok ∧ Evolves G s.tree.inodes s'.tree.inodes := by
  obtain ⟨p, c⟩ := a
  unfold step at hstep
  simp only at hstep
  cases hp : s.procs p with
  | none =>
    rw [hp] at hstep
    cases hstep
    exact ⟨h, Evolves.refl⟩
  | some pr =>
    rw [hp] at hstep
    simp only at hstep
    have hwp := call_spec h hfree hp c (ha pr hp)
    cases hcall : call p pr c s with
    | error e =>
      rw [hcall] at hstep
      cases hstep
    | ok r =>
      rw [hcall] at hstep
      cases hstep
      have hmid := wp_of_ok hwp hcall
      exact ⟨hmid.ok, hmid.evolves⟩

theorem step_error {e : DirPanic} (ha : StepMeets G s a) (hstep : s.step a = .error e) :
    SysPanic s.tree e := by
  obtain ⟨p, c⟩ := a
  unfold step at hstep
  simp only at hstep
  cases hp : s.procs p with
  | none =>
    rw [hp] at hstep
    cases hstep
  | some pr =>
    rw [hp] at hstep
    simp only at hstep
    have hwp := call_spec h hfree hp c (ha pr hp)
    cases hcall : call p pr c s with
    | error e =>
      rw [hcall] at hstep
      cases hstep
      exact wp_of_error hwp hcall
    | ok r =>
      rw [hcall] at hstep
      cases hstep

theorem step_noType (ha : StepMeets G s a) (hclosed : Closed s.tree.inodes) :
    s.step a ≠ .error .ilockNoType := by
  intro hstep
  have he := step_error h hfree ha hstep
  simp [SysPanic, NoType, hclosed] at he

end

end Step

end FogOS.Dir
