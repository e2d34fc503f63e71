import FogOS.Refs.Calls

/-!
# What a system call may do with references

A system call may drop a reference that it has, may share or use an object to which the process has
a reference, and may initialize a `struct file` that it has allocated. A process outside a call has
one reference for each descriptor and one for `cwd`.
-/

namespace FogOS.Refs

open Function Library Dialogue Multiset

def fileTokens : Option FileSlot → Multiset Token
  | some f => {.file f}
  | none => 0

def inodeTokens : Option InodeSlot → Multiset Token
  | some k => {.inode k}
  | none => 0

/-- The references of the descriptors. -/
def fdTokens (ofile : Fd → Option FileSlot) (bare : Option Fd) : Multiset Token :=
  ∑ fd, if bare = some fd then 0 else fileTokens (ofile fd)

/-- The reference of `cwd`. -/
def cwdTokens (cwd : Option InodeSlot) (bareCwd : Bool) : Multiset Token :=
  if bareCwd then 0 else inodeTokens cwd

namespace View

variable (v : View)

/-- All references of the process. -/
def owned : Multiset Token :=
  v.record.held + fdTokens v.self.ofile v.record.bare + cwdTokens v.self.cwd v.record.bareCwd

/-- The process between two calls. -/
structure Outside (v : View) : Prop where
  held : v.record.held = 0
  bare : v.record.bare = none
  bareCwd : v.record.bareCwd = false
  child : v.record.child = none
  cwd : v.self.cwd ≠ none

/-- The `struct proc` after an operation. -/
def self' : (o : Op) → o.Reply → Proc
  | .clearFd fd, _ => { v.self with ofile := update v.self.ofile fd none }
  | .fdalloc f, r =>
    match r with
    | some fd => { v.self with ofile := update v.self.ofile fd (some f) }
    | none => v.self
  | .setCwd k, _ => { v.self with cwd := k }
  | .zombie, _ => { v.self with state := .zombie }
  | _, _ => v.self

/-- The `struct proc` of the child after an operation. -/
def kid' : (o : Op) → o.Reply → Proc
  | .allocproc, r =>
    match r with
    | some _ => ⟨.used, fun _ => none, none⟩
    | none => v.kid
  | .freeproc _, _ => .zero
  | .childFd _ fd f, _ => { v.kid with ofile := update v.kid.ofile fd (some f) }
  | .childCwd _ k, _ => { v.kid with cwd := some k }
  | .setRunnable _, _ => .zero
  | _, _ => v.kid

def allowed : Op → Prop
  | .takeFd _ => v.record.bare = none ∧ v.record.kind = .exit
  | .fdalloc f => v.record.bare = none ∧ (.file f ∈ v.record.held ∨ v.record.kind = .dup)
  | .filedup f => .file f ∈ v.owned ∧ v.record.known f ≠ some .none
  | .fileclose f => .file f ∈ v.record.held
  | .setInode f _ k _ _ => v.record.known f = some .none ∧ .inode k ∈ v.record.held
  | .setPipe f0 f1 pi => v.record.known f0 = some .none ∧ v.record.known f1 = some .none ∧
      f0 ≠ f1 ∧ .pipe pi false ∈ v.record.held ∧ .pipe pi true ∈ v.record.held
  | .pipeclose pi writable => .pipe pi writable ∈ v.record.held
  | .takeCwd => v.record.bareCwd = false ∧ (v.record.kind = .exit ∨ v.record.kind = .chdir)
  | .setCwd r => v.record.bareCwd = true ∧ ∀ k, r = some k → .inode k ∈ v.record.held
  | .dirent dp => .inode dp ∈ v.owned
  | .idup k => .inode k ∈ v.owned
  | .put k => .inode k ∈ v.record.held
  | .use k => .inode k ∈ v.owned ∨
      ∃ f, .file f ∈ v.owned ∧ v.record.known f = some (.inode k)
  | .useFile f => .file f ∈ v.owned
  | .allocproc => v.record.child = none
  | .freeproc np => v.record.child = some np ∧ (∀ fd, v.kid.ofile fd = none) ∧ v.kid.cwd = none
  | .childFd np fd f => v.record.child = some np ∧ v.kid.ofile fd = none ∧
      .file f ∈ v.record.held ∧ v.record.known f = none
  | .childCwd np k => v.record.child = some np ∧ v.kid.cwd = none ∧ .inode k ∈ v.record.held
  | .setRunnable np => v.record.child = some np ∧ v.kid.cwd ≠ none
  | .zombie => (∀ fd, v.self.ofile fd = none) ∧ v.self.cwd = none ∧ v.record.held = 0 ∧
      v.record.bare = none ∧ v.record.bareCwd = false ∧ v.record.child = none
  | _ => True

/-- The replies that the tables can give. A process does not return from `zombie`. -/
def replies : (o : Op) → o.Reply → Prop
  | .ofile fd, r => r = v.self.ofile fd
  | .takeFd fd, r => r = v.self.ofile fd
  | .fdalloc _, r => ∀ fd, r = some fd → v.self.ofile fd = none
  | .filealloc, r => ∀ f, r = some f → .file f ∉ v.owned
  | .cwd, r => r = v.self.cwd
  | .takeCwd, r => r = v.self.cwd
  | .zombie, _ => False
  | _, _ => True

end View

/-- The rules of the reference counts. -/
def counting : Protocol Op Op.Reply View where
  allowed := View.allowed
  reply := View.replies
  next v o r := ⟨v.self' o r, v.record' o r, v.kid' o r⟩

namespace View

/-- The call has one more reference. -/
def plus (v : View) (t : Token) : View := { v with record := v.hold (t ::ₘ v.record.held) }

/-- The call has a reference to the inode that it has found. -/
def got (v : View) : Option InodeSlot → View
  | some k => v.plus (.inode k)
  | none => v

theorem plus_comm (v : View) (t u : Token) : (v.plus t).plus u = (v.plus u).plus t := by
  simp only [plus, hold, cons_swap]

/-- A reference that the call drops. -/
theorem hold_erase (v : View) (t : Token) :
    ({ v.plus t with record := (v.plus t).hold ((v.plus t).record.held.erase t) } : View) = v := by
  simp only [plus, hold, erase_cons_head]

theorem owned_plus (v : View) (t : Token) : (v.plus t).owned = t ::ₘ v.owned := by
  simp only [owned, plus, hold, cons_add]

theorem mem_owned_plus (v : View) (t : Token) : t ∈ (v.plus t).owned := by
  rw [owned_plus]
  exact mem_cons_self t v.owned

theorem mem_owned_of_plus {v : View} {t : Token} (u : Token) (h : t ∈ v.owned) :
    t ∈ (v.plus u).owned := by
  rw [owned_plus]
  exact mem_cons_of_mem h

theorem mem_owned_of_held {v : View} {t : Token} (h : t ∈ v.record.held) : t ∈ v.owned :=
  mem_add.2 (.inl (mem_add.2 (.inl h)))

theorem mem_owned_of_fd {v : View} {fd : Fd} {f : FileSlot} (h : v.self.ofile fd = some f)
    (hbare : v.record.bare ≠ some fd) : .file f ∈ v.owned := by
  refine mem_add.2 (.inl (mem_add.2 (.inr ?_)))
  refine mem_sum.2 ⟨fd, Finset.mem_univ fd, ?_⟩
  rw [if_neg hbare, h]
  exact mem_singleton_self _

theorem mem_owned_of_cwd {v : View} {k : InodeSlot} (h : v.self.cwd = some k)
    (hbare : v.record.bareCwd = false) : .inode k ∈ v.owned := by
  refine mem_add.2 (.inr ?_)
  rw [cwdTokens, hbare, h]
  exact mem_singleton_self _

end View

end FogOS.Refs
