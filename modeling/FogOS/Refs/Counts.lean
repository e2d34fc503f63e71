import FogOS.Refs.Exact

/-!
# Counts of descriptors, open files and calls

The counts of the tables in terms of `ofile[]`, `cwd` and the open files. A descriptor that `dup`
has filled before `filedup`, a descriptor that `exit` is closing and a `cwd` that `exit` or `chdir`
has given up are not counted.
-/

namespace FogOS.Refs

open Library Dialogue Protocol Multiset

namespace State

variable (s : State)

/-- The descriptors that have a reference to `f`. -/
def descriptors (f : FileSlot) : Finset (ProcSlot × Fd) :=
  Finset.univ.filter fun x =>
    (s.procs x.1).ofile x.2 = some f ∧ (s.records x.1).bare ≠ some x.2

/-- The references of calls in progress. -/
def inCalls (t : Token) : Nat := ∑ p, (s.records p).held.count t

/-- The open files that refer to `x`. -/
def openFiles (x : Contents) : Finset FileSlot :=
  Finset.univ.filter fun f => (s.files f).contents = x

/-- The processes whose `cwd` has a reference to `k`. -/
def cwds (k : InodeSlot) : Finset ProcSlot :=
  Finset.univ.filter fun p => (s.procs p).cwd = some k ∧ (s.records p).bareCwd = false

/-- Reference counts, in terms of what refers to an object. -/
structure Counted (s : State) : Prop where
  file : ∀ f, (s.files f).ref = (s.descriptors f).card + s.inCalls (.file f)
  closed : ∀ f, (s.files f).ref = 0 → (s.files f).type = .none
  unused : ∀ p, (s.procs p).state = .unused → ∀ fd, (s.procs p).ofile fd = none
  inode : ∀ k, (s.inodes k).ref =
    (s.openFiles (.inode k)).card + (s.cwds k).card + s.inCalls (.inode k)
  readopen : ∀ pi, (s.pipes pi).readopen.toNat =
    (s.openFiles (.pipe pi false)).card + s.inCalls (.pipe pi false)
  writeopen : ∀ pi, (s.pipes pi).writeopen.toNat =
    (s.openFiles (.pipe pi true)).card + s.inCalls (.pipe pi true)
  page : ∀ pi, (s.pipes pi).live = ((s.pipes pi).readopen || (s.pipes pi).writeopen)
  outside : ∀ p a, (s.procs p).state = .runnable → s.thread p = .ret a →
    (s.records p).held = 0 ∧ (s.records p).bare = none ∧ (s.records p).bareCwd = false
  window : ∀ p, (s.records p).Window

variable {s}

theorem count_fdTokens_file (ofile : Fd → Option FileSlot) (bare : Option Fd) (f : FileSlot) :
    (fdTokens ofile bare).count (.file f) =
      (Finset.univ.filter fun fd => ofile fd = some f ∧ bare ≠ some fd).card := by
  rw [fdTokens, count_sum', Finset.card_filter]
  refine Finset.sum_congr rfl fun fd _ => ?_
  by_cases hbare : bare = some fd
  · simp [hbare]
  · cases hfd : ofile fd with
    | none => simp [hbare, fileTokens]
    | some g => simp [hbare, fileTokens, count_singleton, eq_comm]

theorem count_fdTokens_of_ne (ofile : Fd → Option FileSlot) (bare : Option Fd) {t : Token}
    (ht : ∀ f, t ≠ .file f) : (fdTokens ofile bare).count t = 0 := by
  rw [fdTokens, count_sum']
  refine Finset.sum_eq_zero fun fd _ => ?_
  split_ifs
  · rfl
  · cases hfd : ofile fd with
    | none => rfl
    | some g => exact (count_singleton _ _).trans (if_neg (ht g))

theorem count_cwdTokens_inode (cwd : Option InodeSlot) (bareCwd : Bool) (k : InodeSlot) :
    (cwdTokens cwd bareCwd).count (.inode k) =
      if cwd = some k ∧ bareCwd = false then 1 else 0 := by
  cases bareCwd with
  | true => simp [cwdTokens]
  | false =>
    cases cwd with
    | none => simp [cwdTokens, inodeTokens]
    | some j => simp [cwdTokens, inodeTokens, count_singleton, eq_comm]

theorem count_cwdTokens_of_ne (cwd : Option InodeSlot) (bareCwd : Bool) {t : Token}
    (ht : ∀ k, t ≠ .inode k) : (cwdTokens cwd bareCwd).count t = 0 := by
  cases bareCwd with
  | true => rfl
  | false =>
    cases cwd with
    | none => rfl
    | some j => exact (count_singleton _ _).trans (if_neg (ht j))

theorem count_stored {t : Token} {x : Contents}
    (h : ∀ y : Contents, y.tokens.count t = if y = x then 1 else 0) :
    s.stored.count t = (s.openFiles x).card := by
  rw [stored, count_sum', openFiles, Finset.card_filter]
  exact Finset.sum_congr rfl fun f _ => h _

theorem count_tokens_inode (k : InodeSlot) (y : Contents) :
    y.tokens.count (.inode k) = if y = .inode k then 1 else 0 := by
  cases y with
  | none => rfl
  | pipe pi w => simp [Contents.tokens]
  | inode j => simp [Contents.tokens, count_singleton, eq_comm]

theorem count_tokens_pipe (pi : Nat) (w : Bool) (y : Contents) :
    y.tokens.count (.pipe pi w) = if y = .pipe pi w then 1 else 0 := by
  cases y with
  | none => rfl
  | pipe j u => simp [Contents.tokens, count_singleton, eq_comm]
  | inode j => simp [Contents.tokens]

/-- A `struct file` does not refer to a `struct file`. -/
theorem count_stored_file (f : FileSlot) : s.stored.count (.file f) = 0 := by
  rw [stored, count_sum']
  refine Finset.sum_eq_zero fun g _ => ?_
  cases (s.files g).contents with
  | none => rfl
  | pipe pi w => simp [Contents.tokens]
  | inode j => simp [Contents.tokens]

theorem count_total (t : Token) : s.total.count t = s.inCalls t +
    (∑ p, (fdTokens (s.procs p).ofile (s.records p).bare).count t) +
    (∑ p, (cwdTokens (s.procs p).cwd (s.records p).bareCwd).count t) + s.stored.count t := by
  have howned (p : ProcSlot) : (s.view p).owned.count t = (s.records p).held.count t +
      (fdTokens (s.procs p).ofile (s.records p).bare).count t +
      (cwdTokens (s.procs p).cwd (s.records p).bareCwd).count t := by
    rw [View.owned, count_add, count_add, view]
  rw [total, count_add, count_sum', inCalls]
  simp only [howned, Finset.sum_add_distrib]

theorem Inv.pipe_count (hi : Inv s) (pi : Nat) (w : Bool) :
    s.refs (.pipe pi w) = (s.openFiles (.pipe pi w)).card + s.inCalls (.pipe pi w) := by
  rw [hi.exact, count_total, count_stored (count_tokens_pipe pi w),
    Finset.sum_eq_zero fun p _ => count_fdTokens_of_ne (t := .pipe pi w) _ _ fun _ => nofun,
    Finset.sum_eq_zero fun p _ => count_cwdTokens_of_ne (t := .pipe pi w) _ _ fun _ => nofun]
  omega

theorem Inv.counted (hi : Inv s) : Counted s where
  file f := by
    have hexact := hi.exact (.file f)
    rw [count_total, count_stored_file,
      Finset.sum_eq_zero fun p _ => count_cwdTokens_of_ne (t := .file f) _ _ fun _ => by simp] at hexact
    simp only [count_fdTokens_file, Finset.card_filter] at hexact
    have hpairs : (s.descriptors f).card = ∑ p, ∑ fd,
        if (s.procs p).ofile fd = some f ∧ (s.records p).bare ≠ some fd then 1 else 0 := by
      rw [descriptors, Finset.card_filter, Fintype.sum_prod_type]
    simp only [refs] at hexact
    omega
  closed := hi.closed
  unused p h := (hi.gone p (.inl h)).1
  inode k := by
    have hexact := hi.exact (.inode k)
    rw [count_total, count_stored (count_tokens_inode k),
      Finset.sum_eq_zero fun p _ => count_fdTokens_of_ne (t := .inode k) _ _ fun _ => by simp] at hexact
    simp only [count_cwdTokens_inode, refs] at hexact
    rw [cwds, Finset.card_filter]
    omega
  readopen pi := hi.pipe_count pi false
  writeopen pi := hi.pipe_count pi true
  page := hi.live
  outside p a hrun hthread := by
    have hsafe := hi.safe p hrun
    rw [hthread] at hsafe
    exact ⟨hsafe.held, hsafe.bare, hsafe.bareCwd⟩
  window := hi.window

end State

/-- In every reachable state the counts are exact, and no step panics in `filedup` or `fileclose`
or uses an inode or a pipe that has been released. -/
theorem reference_counts_exact (as : List Act) (s : State) (h : run step boot as = .ok s) :
    s.Counted ∧ ∀ a e, step s a = .error e → e ≠ .filedup ∧ e ≠ .fileclose ∧ e ≠ .released :=
  ⟨(State.inv_of_run h).counted, fun _ _ he => (State.inv_of_run h).step_error he⟩

def no : Choice := ⟨false, 0, 0⟩

def yes (n : Nat) : Choice := ⟨true, n, 0⟩

/-- `open` of an existing file by the first process. -/
def opens : List Act :=
  .call initproc (.open ⟨true, 1⟩ 0) ::
    (List.replicate 3 no ++ yes 5 :: List.replicate 13 no).map (.go initproc)

/-- `open`, then `dup` of the new descriptor. -/
def opensDups : List Act :=
  opens ++ .call initproc (.dup 0) :: (List.replicate 3 no).map (.go initproc)

theorem opensDups_ends :
    Ends (fun s => (s.files 0).ref = 2 ∧ (s.procs initproc).ofile 1 = some 0)
      (run step boot opensDups) := by
  decide +kernel

theorem reference_counts_exact_dup :
    ∃ s, run step boot opensDups = .ok s ∧ (s.files 0).ref = 2 ∧ s.Counted ∧
      ∀ a e, step s a = .error e → e ≠ .filedup ∧ e ≠ .fileclose ∧ e ≠ .released := by
  obtain ⟨s, hrun, href, -⟩ := opensDups_ends.exists
  exact ⟨s, hrun, href, reference_counts_exact opensDups s hrun⟩

/-- `dup` before `filedup`: two descriptors hold a file whose count is one, and the call has no
reference of its own. -/
theorem dup_before_filedup :
    ∃ as s, run step boot as = .ok s ∧ (s.files 0).ref ≠
      (Finset.univ.filter fun x : ProcSlot × Fd => (s.procs x.1).ofile x.2 = some 0).card +
        s.inCalls (.file 0) := by
  have hends : Ends (fun s : State => (s.files 0).ref ≠
      (Finset.univ.filter fun x : ProcSlot × Fd => (s.procs x.1).ofile x.2 = some 0).card +
        s.inCalls (.file 0))
      (run step boot (opens ++ .call initproc (.dup 0) ::
        (List.replicate 2 no).map (.go initproc))) := by
    decide +kernel
  obtain ⟨s, hrun, hne⟩ := hends.exists
  exact ⟨_, s, hrun, hne⟩

end FogOS.Refs
