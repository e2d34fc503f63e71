import FogOS.Library.Count
import FogOS.Refs.Processes

/-!
# References gained and lost by an operation

What an operation adds to the references of its process comes from a count that it raises or from a
`struct file` that it takes apart, and what it takes away goes to a count that it lowers, to a
`struct file` or to the child. The descriptors and `cwd` only move references.
-/

namespace FogOS.Refs

open Function Library Dialogue Protocol Multiset Token

namespace Op

/-- References by which the operation raises a count. -/
def adds : (o : Op) → o.Reply → Multiset Token
  | .filealloc, r => fileTokens r
  | .filedup f, _ => {.file f}
  | .kalloc, r =>
    match r with
    | some pi => {.pipe pi true, .pipe pi false}
    | none => 0
  | .iget _ _, k => {.inode k}
  | .idup k, _ => {.inode k}
  | _, _ => 0

/-- References by which the operation lowers a count. -/
def drops : Op → Multiset Token
  | .fileclose f => {.file f}
  | .pipeclose pi w => {.pipe pi w}
  | .put k => {.inode k}
  | _ => 0

/-- References that go to a `struct file`. -/
def stores : Op → Multiset Token
  | .setInode _ _ k _ _ => {.inode k}
  | .setPipe _ _ pi => {.pipe pi true, .pipe pi false}
  | _ => 0

/-- References that come from a `struct file`. -/
def unstores : (o : Op) → o.Reply → Multiset Token
  | .fileclose _, r =>
    match r with
    | some ff => ff.contents.tokens
    | none => 0
  | _, _ => 0

/-- References that go to the child. -/
def hands : Op → Multiset Token
  | .childFd _ _ f => {.file f}
  | .childCwd _ k => {.inode k}
  | _ => 0

end Op

section Descriptors

variable (ofile : Fd → Option FileSlot) (bare : Option Fd) (fd : Fd)

theorem fdTokens_update (r : Option FileSlot) (h : bare ≠ some fd) :
    fdTokens (update ofile fd r) bare + fileTokens (ofile fd) =
      fdTokens ofile bare + fileTokens r := by
  have hsum := sum_change (s := Finset.univ) (x := fd)
    (f := fun x => if bare = some x then 0 else fileTokens (ofile x))
    (g := fun x => if bare = some x then 0 else fileTokens (update ofile fd r x))
    (Finset.mem_univ fd) fun x hx => by simp only [update_of_ne hx]
  simp only [if_neg h, update_self] at hsum
  exact hsum

/-- The descriptor without a reference can hold anything. -/
theorem fdTokens_update_bare (r : Option FileSlot) :
    fdTokens (update ofile fd r) (some fd) = fdTokens ofile (some fd) := by
  refine Finset.sum_congr rfl fun x _ => ?_
  by_cases hx : x = fd
  · simp [hx]
  · rw [update_of_ne hx]

theorem fdTokens_bare : fdTokens ofile (some fd) + fileTokens (ofile fd) = fdTokens ofile none := by
  have hsum := sum_change (s := Finset.univ) (x := fd)
    (f := fun x => if (none : Option Fd) = some x then 0 else fileTokens (ofile x))
    (g := fun x => if some fd = some x then 0 else fileTokens (ofile x))
    (Finset.mem_univ fd) fun x hx => by simp [Ne.symm hx]
  rw [if_pos rfl, add_zero, if_neg nofun] at hsum
  exact hsum

end Descriptors

namespace View

variable {v : View}

/-- A descriptor is taken from a process that goes to close its file. -/
theorem owned_takeFd {fd : Fd} (hbare : v.record.bare = none) :
    (counting.next v (.takeFd fd) (v.self.ofile fd)).owned = v.owned := by
  cases hf : v.self.ofile fd with
  | none => rfl
  | some f =>
    have hfd := fdTokens_bare v.self.ofile fd
    rw [hf, ← hbare] at hfd
    show (file f ::ₘ v.record.held) + fdTokens v.self.ofile (some fd) + _ = v.owned
    rw [owned, ← hfd, ← singleton_add]
    simp only [fileTokens]
    abel

theorem owned_clearFd {fd : Fd} : (counting.next v (.clearFd fd) ()).owned = v.owned := by
  by_cases hbare : v.record.bare = some fd
  · have hrecord : v.record' (.clearFd fd) () = { v.record with bare := none } := by
      simp only [record', hbare, if_true]
    have hfd := fdTokens_bare (update v.self.ofile fd none) fd
    rw [update_self, fdTokens_update_bare, ← hbare] at hfd
    show (v.record' (.clearFd fd) ()).held +
      fdTokens (update v.self.ofile fd none) (v.record' (.clearFd fd) ()).bare +
      cwdTokens v.self.cwd (v.record' (.clearFd fd) ()).bareCwd = v.owned
    rw [hrecord]
    rw [← hfd]
    exact congrArg (v.record.held + · + _) (add_zero _)
  · have hfd := fdTokens_update v.self.ofile v.record.bare fd none hbare
    have hrecord : v.record' (.clearFd fd) () =
        v.hold (fileTokens (v.self.ofile fd) + v.record.held) := by
      simp only [record', hbare, if_false]
      cases v.self.ofile fd with
      | none => exact congrArg v.hold (zero_add _).symm
      | some f => exact congrArg v.hold (singleton_add _ _).symm
    show (v.record' (.clearFd fd) ()).held + fdTokens _ (v.record' (.clearFd fd) ()).bare +
      cwdTokens v.self.cwd (v.record' (.clearFd fd) ()).bareCwd = v.owned
    rw [hrecord]
    calc fileTokens (v.self.ofile fd) + v.record.held +
          fdTokens (update v.self.ofile fd none) v.record.bare +
          cwdTokens v.self.cwd v.record.bareCwd
        = v.record.held + (fdTokens (update v.self.ofile fd none) v.record.bare +
            fileTokens (v.self.ofile fd)) + cwdTokens v.self.cwd v.record.bareCwd := by abel
      _ = v.owned := by
          rw [hfd]
          exact congrArg (v.record.held + · + _) (add_zero _)

theorem owned_fdalloc {f : FileSlot} {r : Option Fd} (h : v.allowed (.fdalloc f))
    (hr : v.replies (.fdalloc f) r) : (counting.next v (.fdalloc f) r).owned = v.owned := by
  cases r with
  | none => rfl
  | some fd =>
    obtain ⟨hbare, -⟩ := h
    have hnone : v.self.ofile fd = none := hr fd rfl
    show (v.record' (.fdalloc f) (some fd)).held +
      fdTokens (update v.self.ofile fd (some f)) (v.record' (.fdalloc f) (some fd)).bare +
      cwdTokens v.self.cwd (v.record' (.fdalloc f) (some fd)).bareCwd = v.owned
    simp only [record']
    split_ifs with hheld
    · have hfd := fdTokens_update v.self.ofile v.record.bare fd (some f) (by rw [hbare]; simp)
      rw [hnone] at hfd
      calc v.record.held.erase (.file f) +
            fdTokens (update v.self.ofile fd (some f)) v.record.bare +
            cwdTokens v.self.cwd v.record.bareCwd
          = v.record.held.erase (.file f) + (fdTokens v.self.ofile v.record.bare + {.file f}) +
              cwdTokens v.self.cwd v.record.bareCwd :=
            congrArg (_ + · + _) ((add_zero _).symm.trans hfd)
        _ = {.file f} + v.record.held.erase (.file f) + fdTokens v.self.ofile v.record.bare +
              cwdTokens v.self.cwd v.record.bareCwd := by abel
        _ = v.owned := by rw [singleton_add, cons_erase hheld]; rfl
    · have hfd := fdTokens_bare v.self.ofile fd
      rw [hnone, ← hbare] at hfd
      rw [fdTokens_update_bare, owned, ← hfd]
      exact congrArg (_ + · + _) (add_zero _).symm

/-- `filedup` adds a reference, to the call or to the descriptor without one. -/
theorem owned_filedup {f : FileSlot} :
    (counting.next v (.filedup f) ()).owned = v.owned + {.file f} := by
  show (v.record' (.filedup f) ()).held + fdTokens v.self.ofile (v.record' (.filedup f) ()).bare +
    cwdTokens v.self.cwd (v.record' (.filedup f) ()).bareCwd = _
  simp only [record']
  split_ifs with hany
  · obtain ⟨fd, hbare, hf⟩ := (Option.any_eq_true _ _).1 hany
    have hfd := fdTokens_bare v.self.ofile fd
    rw [of_decide_eq_true hf, ← hbare] at hfd
    rw [← hfd, owned]
    simp only [fileTokens]
    abel
  · show (file f ::ₘ v.record.held) + _ + _ = _
    rw [owned, ← singleton_add]
    abel

theorem owned_takeCwd (hbare : v.record.bareCwd = false) :
    (counting.next v .takeCwd v.self.cwd).owned = v.owned := by
  cases hk : v.self.cwd with
  | none => rfl
  | some k =>
    show (inode k ::ₘ v.record.held) + fdTokens _ _ + 0 = v.owned
    rw [owned, cwdTokens, hbare, hk, ← singleton_add]
    simp only [inodeTokens, Bool.false_eq_true, if_false]
    abel

theorem owned_setCwd {r : Option InodeSlot} (h : v.allowed (.setCwd r)) :
    (counting.next v (.setCwd r) ()).owned = v.owned := by
  obtain ⟨hbare, hheld⟩ := h
  cases r with
  | none =>
    show v.record.held + fdTokens _ _ + 0 = v.owned
    rw [owned, cwdTokens, hbare]
    rfl
  | some k =>
    show v.record.held.erase (.inode k) + fdTokens v.self.ofile v.record.bare + {.inode k} = v.owned
    rw [owned, cwdTokens, hbare, ← cons_erase (hheld k rfl), erase_cons_head, ← singleton_add]
    abel

/-- The call drops references that it has. -/
theorem owned_of_held_erase {H : Multiset Token} {w : View} (hself : w.self = v.self)
    (hheld : w.record.held + H = v.record.held) (hbare : w.record.bare = v.record.bare)
    (hcwd : w.record.bareCwd = v.record.bareCwd) : w.owned + H = v.owned := by
  rw [owned, owned, hself, hbare, hcwd, ← hheld]
  abel

/-- The call gets references. -/
theorem owned_of_held_add {H : Multiset Token} {w : View} (hself : w.self = v.self)
    (hheld : w.record.held = v.record.held + H) (hbare : w.record.bare = v.record.bare)
    (hcwd : w.record.bareCwd = v.record.bareCwd) : w.owned = v.owned + H := by
  rw [owned, owned, hself, hbare, hcwd, hheld]
  abel

theorem erase_add_singleton {t : Token} {H : Multiset Token} (h : t ∈ H) : H.erase t + {t} = H := by
  rw [add_comm, singleton_add, cons_erase h]

theorem cons_eq_add_singleton (t : Token) (H : Multiset Token) : t ::ₘ H = H + {t} := by
  rw [← singleton_add, add_comm]

theorem owned_fileclose {f : FileSlot} {r : Option File} (h : .file f ∈ v.record.held) :
    (counting.next v (.fileclose f) r).owned + {.file f} =
      v.owned + Op.unstores (.fileclose f) r := by
  cases r with
  | none =>
    have hdrop : (counting.next v (.fileclose f) none).owned + {.file f} = v.owned :=
      owned_of_held_erase rfl (erase_add_singleton h) rfl rfl
    rw [hdrop]
    exact (add_zero _).symm
  | some ff =>
    have hfirst : (⟨v.self, v.hold (v.record.held.erase (.file f)), v.kid⟩ : View).owned +
        {.file f} = v.owned := owned_of_held_erase rfl (erase_add_singleton h) rfl rfl
    have hsecond : (counting.next v (.fileclose f) (some ff)).owned =
        (⟨v.self, v.hold (v.record.held.erase (.file f)), v.kid⟩ : View).owned +
          ff.contents.tokens := owned_of_held_add rfl (add_comm _ _) rfl rfl
    rw [hsecond, ← hfirst]
    simp only [Op.unstores]
    abel

theorem owned_setPipe {f0 f1 : FileSlot} {pi : Nat} (h0 : .pipe pi false ∈ v.record.held)
    (h1 : .pipe pi true ∈ v.record.held) :
    (counting.next v (.setPipe f0 f1 pi) ()).owned + {.pipe pi true, .pipe pi false} = v.owned := by
  refine owned_of_held_erase rfl ?_ rfl rfl
  have hmem : pipe pi true ∈ v.record.held.erase (.pipe pi false) :=
    (mem_erase_of_ne (by simp)).2 h1
  show (v.record.held.erase (.pipe pi false)).erase (.pipe pi true) +
    (pipe pi true ::ₘ {pipe pi false}) = _
  rw [← singleton_add, ← add_assoc, erase_add_singleton hmem, erase_add_singleton h0]

/-- The references of the process after an operation. -/
theorem owned_next {o : Op} {r : o.Reply} (h : v.allowed o) (hr : v.replies o r) :
    (counting.next v o r).owned + (o.drops + o.stores + o.hands) =
      v.owned + (o.adds r + o.unstores r) := by
  cases o <;>
    try simp only [Op.drops, Op.stores, Op.hands, Op.adds, Op.unstores, add_zero, zero_add]
  case takeFd fd =>
    obtain rfl : r = v.self.ofile fd := hr
    exact owned_takeFd h.1
  case clearFd fd => exact owned_clearFd
  case fdalloc f => exact owned_fdalloc h hr
  case filealloc =>
    cases r with
    | none => exact (add_zero _).symm
    | some f =>
      exact owned_of_held_add rfl (cons_eq_add_singleton _ _) rfl rfl
  case filedup f => exact owned_filedup
  case fileclose f => exact owned_fileclose h
  case setInode f device k readable writable =>
    exact owned_of_held_erase rfl (erase_add_singleton h.2) rfl rfl
  case setPipe f0 f1 pi => exact owned_setPipe h.2.2.2.1 h.2.2.2.2
  case kalloc =>
    cases r with
    | none => exact (add_zero _).symm
    | some pi =>
      refine owned_of_held_add rfl ?_ rfl rfl
      show pipe pi true ::ₘ pipe pi false ::ₘ v.record.held =
        v.record.held + (pipe pi true ::ₘ {pipe pi false})
      rw [add_cons, ← cons_eq_add_singleton]
  case pipeclose pi w => exact owned_of_held_erase rfl (erase_add_singleton h) rfl rfl
  case takeCwd =>
    obtain rfl : r = v.self.cwd := hr
    exact owned_takeCwd h.1
  case setCwd k => exact owned_setCwd h
  case iget dev inum => exact owned_of_held_add rfl (cons_eq_add_singleton _ _) rfl rfl
  case idup k => exact owned_of_held_add rfl (cons_eq_add_singleton _ _) rfl rfl
  case put k => exact owned_of_held_erase rfl (erase_add_singleton h) rfl rfl
  case childFd np fd f => exact owned_of_held_erase rfl (erase_add_singleton h.2.2.1) rfl rfl
  case childCwd np k => exact owned_of_held_erase rfl (erase_add_singleton h.2.2) rfl rfl
  case zombie => exact hr.elim
  case allocproc => cases r <;> rfl
  all_goals rfl

end View

end FogOS.Refs
