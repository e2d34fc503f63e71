import FogOS.Refs.Model
import FogOS.Shell.Grammar

/-!
# Descriptors of the processes that run a command

`runcmd` of `sh.c` over descriptor tables, with the rule of the kernel that a new descriptor is the
lowest free one. A process of the command is named by its place in the tree, with the innermost step
first, and a pipe by the place of its node. A program that is run has the descriptors that the shell
has, and the ends of pipes that its place gives it.
-/

namespace FogOS.Shell

open Function List Option

open Refs (Fd nofile)

/-- The way from a node of the tree to one below it. -/
inductive Step
  | redir (fd : Nat)
  | pipeLeft
  | pipeRight
  | listLeft
  | listRight
  | back
  deriving DecidableEq

abbrev Place : Type := List Step

/-- What a descriptor refers to: what the shell had, an end of the pipe of a node, or the file that
a redirection has opened. -/
inductive File
  | inherited (fd : Fd)
  | pipeRead (p : Place)
  | pipeWrite (p : Place)
  | opened (p : Place)
  deriving DecidableEq

abbrev Fds : Type := Fd → Option File

namespace Fds

/-- The scan of `fdalloc`. -/
def free (t : Fds) : Option Fd := (List.finRange nofile).find? fun fd => decide (t fd = none)

def fdalloc (t : Fds) (f : File) : Option (Fd × Fds) :=
  t.free.map fun fd => (fd, update t fd (some f))

def close (t : Fds) (fd : Fd) : Option Fds :=
  (t fd).map fun _ => update t fd none

def dup (t : Fds) (fd : Fd) : Option (Fd × Fds) :=
  match t fd with
  | some f => t.fdalloc f
  | none => none

/-- `pipe`: the descriptors `p[0]` and `p[1]`. -/
def pipe (t : Fds) (p : Place) : Option (Fd × Fd × Fds) := do
  let (p0, t) ← t.fdalloc (.pipeRead p)
  let (p1, t) ← t.fdalloc (.pipeWrite p)
  return (p0, p1, t)

/-- The descriptor with a number. -/
def fd? (n : Nat) : Option Fd := if h : n < nofile then some ⟨n, h⟩ else none

/-- `close` and `open` of a redirection. -/
def redirect (t : Fds) (p : Place) (fd : Nat) : Option Fds := do
  let t ← t.close (← fd? fd)
  let (_, t) ← t.fdalloc (.opened p)
  return t

/-- `close(fd)`, `dup(end)`, `close(p[0])` and `close(p[1])` of a child of a pipe. -/
def connect (t : Fds) (fd source p0 p1 : Fd) : Option Fds := do
  let t ← t.close fd
  let (_, t) ← t.dup source
  let t ← t.close p0
  t.close p1

/-- `close(p[0])` and `close(p[1])` of the parent. -/
def closePipe (t : Fds) (p0 p1 : Fd) : Option Fds := do
  let t ← t.close p0
  t.close p1

end Fds

/-- A process of the command: a program that is run at a leaf, or a shell at its calls of `wait`. -/
inductive Event
  | program (p : Place) (t : Fds)
  | waits (p : Place) (t : Fds)

namespace Event

def place : Event → Place
  | program p _ => p
  | waits p _ => p

def fds : Event → Fds
  | program _ t => t
  | waits _ t => t

/-- The place of a program. -/
def leaf : Event → Option Place
  | program p _ => some p
  | waits _ _ => none

end Event

/-- The processes that `runcmd` gives rise to, if no system call fails. -/
def runcmd {W : Type} : Cmd W → Place → Fds → Option (List Event)
  | .exec argv, p, t => if argv.isEmpty then some [] else some [.program p t]
  | .redir cmd r, p, t => do
      let t ← t.redirect p r.fd
      runcmd cmd (.redir r.fd :: p) t
  | .list left right, p, t => do
      let child ← runcmd left (.listLeft :: p) t
      let rest ← runcmd right (.listRight :: p) t
      return child ++ .waits p t :: rest
  | .pipe left right, p, t => do
      let (p0, p1, t) ← t.pipe p
      let child1 ← runcmd left (.pipeLeft :: p) (← t.connect 1 p1 p0 p1)
      let child2 ← runcmd right (.pipeRight :: p) (← t.connect 0 p0 p0 p1)
      let t ← t.closePipe p0 p1
      return child1 ++ child2 ++ [.waits p t]
  | .back cmd, p, t => runcmd cmd (.back :: p) t

/-- The trees of the shell: `redircmd` is called with descriptor 0 or 1 only. -/
inductive Cmd.Parsed {W : Type} : Cmd W → Prop
  | exec (argv : List W) : Parsed (.exec argv)
  | redir {cmd : Cmd W} (h : Parsed cmd) (r : Redir W) (hfd : r.fd = 0 ∨ r.fd = 1) :
      Parsed (.redir cmd r)
  | pipe {left right : Cmd W} (hl : Parsed left) (hr : Parsed right) : Parsed (.pipe left right)
  | list {left right : Cmd W} (hl : Parsed left) (hr : Parsed right) : Parsed (.list left right)
  | back {cmd : Cmd W} (h : Parsed cmd) : Parsed (.back cmd)

/-- The places of the leaves that run a program. -/
def Cmd.leaves {W : Type} : Cmd W → Place → List Place
  | .exec argv, p => if argv.isEmpty then [] else [p]
  | .redir cmd r, p => cmd.leaves (.redir r.fd :: p)
  | .pipe left right, p => left.leaves (.pipeLeft :: p) ++ right.leaves (.pipeRight :: p)
  | .list left right, p => left.leaves (.listLeft :: p) ++ right.leaves (.listRight :: p)
  | .back cmd, p => cmd.leaves (.back :: p)

/-- The table of the shell: descriptors 0, 1 and 2 and the set `X`. -/
def shellFds (X : Finset Fd) : Fds := fun fd =>
  if fd = 0 ∨ fd = 1 ∨ fd = 2 ∨ fd ∈ X then some (.inherited fd) else none

/-- Descriptor 1 of a process: the innermost pipe that has it on the left, or the innermost
redirection. -/
def stdout : Place → File
  | [] => .inherited 1
  | .redir fd :: p => if fd = 1 then .opened p else stdout p
  | .pipeLeft :: p => .pipeWrite p
  | _ :: p => stdout p

/-- Descriptor 0 of a process: the innermost pipe that has it on the right, or the innermost
redirection. -/
def stdin : Place → File
  | [] => .inherited 0
  | .redir fd :: p => if fd = 0 then .opened p else stdin p
  | .pipeRight :: p => .pipeRead p
  | _ :: p => stdin p

/-- The table of a process at a place. -/
def tableAt (X : Finset Fd) (p : Place) : Fds := fun fd =>
  if fd = 0 then some (stdin p) else if fd = 1 then some (stdout p) else shellFds X fd

section Tables

variable {X : Finset Fd} {p : Place} {t : Fds}

theorem shellFds_eq (X : Finset Fd) : shellFds X = tableAt X [] := by
  funext fd
  by_cases h0 : fd = 0
  · subst h0
    rfl
  · by_cases h1 : fd = 1
    · subst h1
      rfl
    · simp only [tableAt, h0, h1, if_false]

theorem free_eq_zero (h0 : t 0 = none) : t.free = some 0 := by
  rw [Fds.free, finRange_succ]
  simp only [find?_cons, h0, decide_true]

theorem free_eq_one (h0 : t 0 ≠ none) (h1 : t 1 = none) : t.free = some 1 := by
  have h1' : t (Fin.succ 0) = none := h1
  rw [Fds.free, finRange_succ, finRange_succ, map_cons]
  simp only [find?_cons, h0, h1', decide_true, decide_false]
  rfl

theorem eq_none_of_free {fd : Fd} (h : t.free = some fd) : t fd = none := by
  simpa using find?_some h

theorem tableAt_zero (X : Finset Fd) (p : Place) : tableAt X p 0 = some (stdin p) := rfl

theorem tableAt_one (X : Finset Fd) (p : Place) : tableAt X p 1 = some (stdout p) := rfl

/-- A step that gives a process a new descriptor 0. -/
theorem update_zero (st : Step) (hout : stdout (st :: p) = stdout p) :
    update (tableAt X p) 0 (some (stdin (st :: p))) = tableAt X (st :: p) := by
  funext fd
  by_cases h0 : fd = 0
  · subst h0
    rw [update_self, tableAt_zero]
  · rw [update_of_ne h0]
    simp only [tableAt, h0, if_false, hout]

/-- A step that gives a process a new descriptor 1. -/
theorem update_one (st : Step) (hin : stdin (st :: p) = stdin p) :
    update (tableAt X p) 1 (some (stdout (st :: p))) = tableAt X (st :: p) := by
  funext fd
  by_cases h1 : fd = 1
  · subst h1
    rw [update_self, tableAt_one]
  · rw [update_of_ne h1]
    simp only [tableAt, h1, if_false, hin]

theorem redirect_zero : (tableAt X p).redirect p 0 = some (tableAt X (.redir 0 :: p)) := by
  have hclose : (tableAt X p).close 0 = some (update (tableAt X p) 0 none) := rfl
  have halloc : Fds.fdalloc (update (tableAt X p) 0 none) (.opened p) =
      some (0, tableAt X (.redir 0 :: p)) := by
    rw [Fds.fdalloc, free_eq_zero (update_self _ _ _), map_some, update_idem]
    exact congrArg (fun t => some (0, t)) (update_zero (.redir 0) rfl)
  have hfd : Fds.fd? 0 = some 0 := rfl
  simp only [Fds.redirect, hfd, bind, bind_some, hclose, halloc, pure]

theorem redirect_one : (tableAt X p).redirect p 1 = some (tableAt X (.redir 1 :: p)) := by
  have hclose : (tableAt X p).close 1 = some (update (tableAt X p) 1 none) := rfl
  have halloc : Fds.fdalloc (update (tableAt X p) 1 none) (.opened p) =
      some (1, tableAt X (.redir 1 :: p)) := by
    have h0 : update (tableAt X p) 1 none 0 ≠ none := nofun
    rw [Fds.fdalloc, free_eq_one h0 (update_self _ _ _), map_some, update_idem]
    exact congrArg (fun t => some (1, t)) (update_one (.redir 1) rfl)
  have hfd : Fds.fd? 1 = some 1 := rfl
  simp only [Fds.redirect, hfd, bind, bind_some, hclose, halloc, pure]

theorem close_eq {fd : Fd} (h : t fd ≠ none) : t.close fd = some (update t fd none) := by
  obtain ⟨f, hf⟩ := ne_none_iff_exists'.1 h
  rw [Fds.close, hf, map_some]

/-- A table with the two ends of a new pipe. -/
def withPipe (t : Fds) (p : Place) (p0 p1 : Fd) : Fds :=
  update (update t p0 (some (.pipeRead p))) p1 (some (.pipeWrite p))

/-- The descriptors of a new pipe. -/
theorem pipe_spec {p0 p1 : Fd} {t' : Fds} (h : t.pipe p = some (p0, p1, t')) :
    t p0 = none ∧ t p1 = none ∧ p0 ≠ p1 ∧ t' = withPipe t p p0 p1 := by
  simp only [Fds.pipe, Fds.fdalloc, bind, pure, bind_eq_some_iff, map_eq_some_iff,
    Prod.exists, Prod.mk.injEq] at h
  obtain ⟨q0, t₁, ⟨_, hfree, rfl, rfl⟩, q1, t₂, ⟨_, hfree', rfl, rfl⟩, heq⟩ := h
  cases heq
  have hnone := eq_none_of_free hfree'
  have hne : p1 ≠ p0 := by
    rintro rfl
    rw [update_self] at hnone
    cases hnone
  rw [update_of_ne hne] at hnone
  exact ⟨eq_none_of_free hfree, hnone, hne.symm, rfl⟩

section Ends

variable {p0 p1 fd : Fd}

theorem withPipe_left (hne : p0 ≠ p1) : withPipe t p p0 p1 p0 = some (.pipeRead p) := by
  rw [withPipe, update_of_ne hne, update_self]

theorem withPipe_right : withPipe t p p0 p1 p1 = some (.pipeWrite p) := update_self _ _ _

theorem withPipe_other (h0 : fd ≠ p0) (h1 : fd ≠ p1) : withPipe t p p0 p1 fd = t fd := by
  rw [withPipe, update_of_ne h1, update_of_ne h0]

/-- The ends that are closed again. -/
theorem closePipe_eq {u : Fds} (hne : p0 ≠ p1) (h0 : u p0 ≠ none) (h1 : u p1 ≠ none)
    (ht0 : t p0 = none) (ht1 : t p1 = none) (hu : ∀ fd, fd ≠ p0 → fd ≠ p1 → u fd = t fd) :
    u.closePipe p0 p1 = some t := by
  have h1' : update u p0 none p1 ≠ none := by rwa [update_of_ne hne.symm]
  simp only [Fds.closePipe, close_eq h0, bind, bind_some, close_eq h1']
  refine congrArg some (funext fun fd => ?_)
  by_cases hfd1 : fd = p1
  · rw [hfd1, update_self, ht1]
  · by_cases hfd0 : fd = p0
    · rw [update_of_ne hfd1, hfd0, update_self, ht0]
    · rw [update_of_ne hfd1, update_of_ne hfd0, hu fd hfd0 hfd1]

/-- A child of a pipe makes an end of it its descriptor `fd`. -/
theorem connect_eq {source : Fd} {f : File} (hne : p0 ≠ p1) (ht0 : t p0 = none) (ht1 : t p1 = none)
    (hfd : t fd ≠ none) (hsource : withPipe t p p0 p1 source = some f)
    (hmem : source = p0 ∨ source = p1)
    (hfree : Fds.free (update (withPipe t p p0 p1) fd none) = some fd) :
    (withPipe t p p0 p1).connect fd source p0 p1 = some (update t fd (some f)) := by
  have hfd0 : fd ≠ p0 := fun h => hfd (h ▸ ht0)
  have hfd1 : fd ≠ p1 := fun h => hfd (h ▸ ht1)
  have hfds : source ≠ fd := by
    rcases hmem with rfl | rfl
    · exact hfd0.symm
    · exact hfd1.symm
  have hopen : withPipe t p p0 p1 fd ≠ none := by rwa [withPipe_other hfd0 hfd1]
  have hdup : Fds.dup (update (withPipe t p p0 p1) fd none) source =
      some (fd, update (withPipe t p p0 p1) fd (some f)) := by
    simp only [Fds.dup, update_of_ne hfds, hsource, Fds.fdalloc, hfree, map_some, update_idem]
  have hclose : Fds.closePipe (update (withPipe t p p0 p1) fd (some f)) p0 p1 =
      some (update t fd (some f)) := by
    refine closePipe_eq hne ?_ ?_ ?_ ?_ fun x h0 h1 => ?_
    · rw [update_of_ne hfd0.symm, withPipe_left hne]
      nofun
    · rw [update_of_ne hfd1.symm, withPipe_right]
      nofun
    · rw [update_of_ne hfd0.symm, ht0]
    · rw [update_of_ne hfd1.symm, ht1]
    · by_cases hx : x = fd
      · rw [hx, update_self, update_self]
      · rw [update_of_ne hx, update_of_ne hx, withPipe_other h0 h1]
  simp only [Fds.connect, close_eq hopen, bind, bind_some, hdup]
  exact hclose

end Ends

end Tables

section Run

variable {W : Type} {X : Finset Fd}

/-- Every process of a command has the table of its place, and every leaf runs its program. -/
theorem runcmd_spec {cmd : Cmd W} (h : cmd.Parsed) {p : Place} {es : List Event}
    (hrun : runcmd cmd p (tableAt X p) = some es) :
    (∀ e ∈ es, e.fds = tableAt X e.place) ∧ es.filterMap Event.leaf = cmd.leaves p := by
  induction h generalizing p es with
  | exec argv =>
    rw [runcmd] at hrun
    split_ifs at hrun with hargv
    · cases hrun
      exact ⟨nofun, by rw [Cmd.leaves, if_pos hargv]; rfl⟩
    · cases hrun
      refine ⟨fun e he => ?_, by rw [Cmd.leaves, if_neg hargv]; rfl⟩
      obtain rfl := mem_singleton.1 he
      rfl
  | redir h r hfd ih =>
    have hredirect : (tableAt X p).redirect p r.fd = some (tableAt X (.redir r.fd :: p)) := by
      rcases hfd with hfd | hfd
      · rw [hfd, redirect_zero]
      · rw [hfd, redirect_one]
    rw [runcmd, hredirect] at hrun
    exact ih hrun
  | @pipe left right hl hr ihl ihr =>
    simp only [runcmd, bind, bind_eq_some_iff, Prod.exists, pure] at hrun
    obtain ⟨p0, p1, t, hpipe, t₁, hleft, es₁, hrun₁, t₂, hright, es₂, hrun₂, t₃, hclose, hes⟩ :=
      hrun
    obtain ⟨h0, h1, hne, rfl⟩ := pipe_spec hpipe
    have hopen (fd : Fd) (hfd : fd = 0 ∨ fd = 1) : tableAt X p fd ≠ none ∧ fd ≠ p0 ∧ fd ≠ p1 := by
      have hsome : tableAt X p fd ≠ none := by rcases hfd with rfl | rfl <;> nofun
      exact ⟨hsome, fun h => hsome (h ▸ h0), fun h => hsome (h ▸ h1)⟩
    obtain ⟨hzero, hz0, hz1⟩ := hopen 0 (.inl rfl)
    obtain ⟨hone, ho0, ho1⟩ := hopen 1 (.inr rfl)
    have hleft' : t₁ = tableAt X (.pipeLeft :: p) := by
      rw [connect_eq hne h0 h1 hone withPipe_right (.inr rfl)] at hleft
      · rw [← Option.some.inj hleft]
        exact update_one .pipeLeft rfl
      · refine free_eq_one ?_ (update_self _ _ _)
        rwa [update_of_ne (by decide), withPipe_other hz0 hz1]
    have hright' : t₂ = tableAt X (.pipeRight :: p) := by
      rw [connect_eq hne h0 h1 hzero (withPipe_left hne) (.inl rfl)
        (free_eq_zero (update_self _ _ _))] at hright
      rw [← Option.some.inj hright]
      exact update_zero .pipeRight rfl
    have hclose' : t₃ = tableAt X p := by
      rw [closePipe_eq hne (by rw [withPipe_left hne]; nofun) (by rw [withPipe_right]; nofun) h0 h1
        fun fd h0 h1 => withPipe_other h0 h1] at hclose
      exact (Option.some.inj hclose).symm
    subst hleft' hright' hclose'
    cases hes
    obtain ⟨htables₁, hleaves₁⟩ := ihl hrun₁
    obtain ⟨htables₂, hleaves₂⟩ := ihr hrun₂
    constructor
    · intro e he
      rcases mem_append.1 he with he | he
      · rcases mem_append.1 he with he | he
        · exact htables₁ e he
        · exact htables₂ e he
      · obtain rfl := mem_singleton.1 he
        rfl
    · rw [filterMap_append, filterMap_append, hleaves₁, hleaves₂, Cmd.leaves]
      exact append_nil _
  | @list left right hl hr ihl ihr =>
    have hleft : tableAt X (.listLeft :: p) = tableAt X p := rfl
    have hright : tableAt X (.listRight :: p) = tableAt X p := rfl
    simp only [runcmd, bind, bind_eq_some_iff, pure] at hrun
    obtain ⟨es₁, hrun₁, es₂, hrun₂, hes⟩ := hrun
    cases hes
    obtain ⟨htables₁, hleaves₁⟩ := ihl (hleft ▸ hrun₁)
    obtain ⟨htables₂, hleaves₂⟩ := ihr (hright ▸ hrun₂)
    constructor
    · intro e he
      rcases mem_append.1 he with he | he
      · exact htables₁ e he
      · rcases mem_cons.1 he with rfl | he
        · rfl
        · exact htables₂ e he
    · rw [filterMap_append, hleaves₁, filterMap_cons_none rfl, hleaves₂, Cmd.leaves]
  | back h ih =>
    have hback : tableAt X (.back :: p) = tableAt X p := rfl
    exact ih (hback ▸ hrun)

/-- A process whose descriptor 1 is the write end of a pipe is on the left of that pipe. -/
theorem left_of_stdout {p q : Place} (h : stdout p = .pipeWrite q) : .pipeLeft :: q <:+ p := by
  induction p with
  | nil => cases h
  | cons st p ih =>
    cases st with
    | redir fd =>
      rw [stdout] at h
      split_ifs at h
      exact (ih h).trans (suffix_cons _ _)
    | pipeLeft =>
      cases h
      exact suffix_refl _
    | pipeRight | listLeft | listRight | back => exact (ih h).trans (suffix_cons _ _)

theorem stdin_ne_pipeWrite (p q : Place) : stdin p ≠ .pipeWrite q := by
  induction p with
  | nil => nofun
  | cons st p ih =>
    cases st with
    | redir fd =>
      rw [stdin]
      split_ifs
      · nofun
      · exact ih
    | pipeRight => nofun
    | pipeLeft | listLeft | listRight | back => exact ih

theorem left_of_tableAt {p q : Place} {fd : Fd} (h : tableAt X p fd = some (.pipeWrite q)) :
    .pipeLeft :: q <:+ p := by
  simp only [tableAt, shellFds] at h
  split_ifs at h
  · exact absurd (Option.some.inj h) (stdin_ne_pipeWrite p q)
  · exact left_of_stdout (Option.some.inj h)
  · cases h

theorem tableAt_ne_none (p : Place) (fd : Fd) :
    tableAt X p fd ≠ none ↔ fd = 0 ∨ fd = 1 ∨ fd = 2 ∨ fd ∈ X := by
  simp only [tableAt, shellFds]
  split_ifs with h0 h1 h
  · simp [h0]
  · simp [h1]
  · simp [h]
  · simp [h]

end Run

/-- Every leaf runs its program, with the descriptors 0, 1, 2 and those of the shell, and with the
pipes of its place; and a process that has a write end is on the left of its pipe. -/
theorem runcmd_leaks_no_pipe_end {W : Type} (cmd : Cmd W) (hcmd : cmd.Parsed) (X : Finset Fd)
    (es : List Event) (hrun : runcmd cmd [] (shellFds X) = some es) :
    es.filterMap Event.leaf = cmd.leaves [] ∧
    (∀ p t, .program p t ∈ es → (∀ fd, t fd ≠ none ↔ fd = 0 ∨ fd = 1 ∨ fd = 2 ∨ fd ∈ X) ∧
        t 0 = some (stdin p) ∧ t 1 = some (stdout p)) ∧
    ∀ e ∈ es, ∀ fd q, e.fds fd = some (.pipeWrite q) → .pipeLeft :: q <:+ e.place := by
  rw [shellFds_eq] at hrun
  obtain ⟨htables, hleaves⟩ := runcmd_spec hcmd hrun
  refine ⟨hleaves, fun p t he => ?_, fun e he fd q h => ?_⟩
  · obtain rfl : t = tableAt X p := htables _ he
    exact ⟨tableAt_ne_none p, rfl, rfl⟩
  · rw [htables e he] at h
    exact left_of_tableAt h

/-- A pipeline of two programs, the second with its output in a file, in a shell that also has
descriptor 4. -/
theorem runcmd_leaks_no_pipe_end_two :
    ∃ es, runcmd (.pipe (.exec [0]) (.redir (.exec [1]) (RedirOp.output.redir 2))) []
        (shellFds {4}) = some es ∧
      es.filterMap Event.leaf = [[.pipeLeft], [.redir 1, .pipeRight]] ∧
      ∀ e ∈ es, ∀ fd q, e.fds fd = some (.pipeWrite q) → .pipeLeft :: q <:+ e.place := by
  have hparsed : (Cmd.pipe (.exec [0]) (.redir (.exec [1]) (RedirOp.output.redir 2))).Parsed :=
    .pipe (.exec _) (.redir (.exec _) _ (.inr rfl))
  obtain ⟨es, hrun⟩ := isSome_iff_exists.1 (by decide :
    (runcmd (.pipe (.exec [0]) (.redir (.exec [1]) (RedirOp.output.redir 2))) []
      (shellFds {4})).isSome)
  have h := runcmd_leaks_no_pipe_end _ hparsed {4} es hrun
  exact ⟨es, hrun, h.1, h.2.2⟩

end FogOS.Shell
