import FogOS.Fs.Table

/-!
# The inode table and concurrent callers

`itable`, the on-disk inodes and the processes that call `iget`, `idup`, `ilock`, `iunlock`,
`ialloc`, `iupdate` and `iput`. A step is one critical section under `itable.lock`, under the lock
of an inode block, or under the sleep-lock of an inode; `ialloc`, `ilock` and `iput` are split
where they release or take one of these. The inode blocks are read and written through the buffer
cache, so the disk here is their latest content.
-/

namespace FogOS.Itable

open Function Library Fs

abbrev Slot : Type := Fin ninode

/-- `struct inode`; `lock` is the holder of its sleep-lock. -/
structure Entry (P : Type) where
  dev : Nat
  inum : Nat
  ref : Nat
  valid : Bool
  ip : Dinode
  lock : Option P

/-- Where a process is in a call: in the loop of `ialloc` at an inode number, in `ialloc` before
`iget`, in `ilock` after `acquiresleep`, and in the branch of `iput` that frees the inode, before
`itrunc`, before `ip->type = 0`, before `ip->valid = 0` and before the last `ref--`. -/
inductive Phase
  | idle
  | ialloc (dev : Nat) (type : UInt16) (inum : Nat)
  | alloced (dev inum : Nat)
  | ilock (k : Slot)
  | itrunc (k : Slot)
  | untype (k : Slot)
  | invalidate (k : Slot)
  | drop (k : Slot)
  deriving DecidableEq

/-- The table, the disk and the processes. The last three fields are records of the run: the
references that a process has, the entries changed since their last `iupdate`, and the process to
which `ialloc` has given an inode that no `ilock` has read yet. -/
structure State (P : Type) where
  table : Slot → Entry P
  disk : Nat → Nat → Dinode
  phase : P → Phase
  held : P → Slot → Nat
  dirty : Slot → Bool
  unread : Nat → Nat → Option P

inductive Op
  | iget (dev inum : Nat)
  | idup (k : Slot)
  | ilock (k : Slot)
  | modify (k : Slot) (ip : Dinode)
  | iupdate (k : Slot)
  | iunlock (k : Slot)
  | ialloc (dev : Nat) (type : UInt16)
  | iput (k : Slot)
  | go

/-- Why a step is not made: it waits, or the kernel panics. `iputBlocks` is an `acquiresleep` that
waits with `itable.lock` held. -/
inductive Stop
  | wait
  | igetNoInodes
  | ilock
  | ilockNoType
  | iunlock
  | iputBlocks
  deriving DecidableEq

variable {P : Type} [DecidableEq P]

namespace State

variable (s : State P)

def setEntry (k : Slot) (e : Entry P) : State P := { s with table := update s.table k e }

def setPhase (p : P) (x : Phase) : State P := { s with phase := update s.phase p x }

/-- The on-disk inode is written. -/
def setDisk (dev inum : Nat) (ip : Dinode) : State P :=
  { s with disk := update s.disk dev (update (s.disk dev) inum ip) }

def setUnread (dev inum : Nat) (x : Option P) : State P :=
  { s with unread := update s.unread dev (update (s.unread dev) inum x) }

def setDirty (k : Slot) (x : Bool) : State P := { s with dirty := update s.dirty k x }

def setHeld (p : P) (k : Slot) (n : Nat) : State P :=
  { s with held := update s.held p (update (s.held p) k n) }

section Fields

variable (k : Slot) (p : P) (d i n : Nat) (v : Dinode) (o : Option P)

omit [DecidableEq P] in
theorem setDisk_apply (d' i' : Nat) :
    (s.setDisk d i v).disk d' i' = if d' = d ∧ i' = i then v else s.disk d' i' := by
  by_cases hd : d' = d <;> by_cases hi : i' = i <;> simp [setDisk, hd, hi]

omit [DecidableEq P] in
theorem setUnread_apply (d' i' : Nat) :
    (s.setUnread d i o).unread d' i' = if d' = d ∧ i' = i then o else s.unread d' i' := by
  by_cases hd : d' = d <;> by_cases hi : i' = i <;> simp [setUnread, hd, hi]

theorem setHeld_apply (q : P) (j : Slot) :
    (s.setHeld p k n).held q j = if q = p ∧ j = k then n else s.held q j := by
  by_cases hq : q = p <;> by_cases hj : j = k <;> simp [setHeld, hq, hj]

end Fields

/-- The on-disk copy of an entry. -/
def dinode (k : Slot) : Dinode := s.disk (s.table k).dev (s.table k).inum

/-- `ip->ref++`, and the process has one more pointer. -/
def share (p : P) (k : Slot) : State P :=
  (s.setEntry k { s.table k with ref := (s.table k).ref + 1 }).setHeld p k (s.held p k + 1)

/-- `ip->ref--`, and the process has one pointer less. -/
def unshare (p : P) (k : Slot) : State P :=
  (s.setEntry k { s.table k with ref := (s.table k).ref - 1 }).setHeld p k (s.held p k - 1)

/-- The entry in use for an inode. -/
def find (dev inum : Nat) : Option Slot :=
  (List.finRange ninode).find? fun k =>
    decide (0 < (s.table k).ref) && decide ((s.table k).dev = dev) &&
      decide ((s.table k).inum = inum)

/-- The first entry that is not in use. -/
def empty : Option Slot := (List.finRange ninode).find? fun k => decide ((s.table k).ref = 0)

def iget (p : P) (dev inum : Nat) : Except Stop (State P) :=
  match s.find dev inum with
  | some k => .ok (s.share p k)
  | none =>
    match s.empty with
    | some k =>
      .ok ((s.setEntry k { s.table k with dev := dev, inum := inum, ref := 1, valid := false }).setHeld
        p k (s.held p k + 1))
    | none => .error .igetNoInodes

/-- `ilock` before and after `acquiresleep` returns. -/
def ilock (p : P) (k : Slot) : Except Stop (State P) :=
  if (s.table k).ref < 1 then .error .ilock
  else if (s.table k).lock ≠ none then .error .wait
  else .ok ((s.setEntry k { s.table k with lock := some p }).setPhase p (.ilock k))

def ilockRead (p : P) (k : Slot) : Except Stop (State P) :=
  if (s.table k).valid = true then .ok (s.setPhase p .idle)
  else if (s.dinode k).type = 0 then .error .ilockNoType
  else .ok (((s.setEntry k { s.table k with ip := s.dinode k, valid := true }).setUnread
    (s.table k).dev (s.table k).inum none).setPhase p .idle)

/-- The holder of the sleep-lock changes fields; only `ilock` and `iput` change the type. -/
def modify (k : Slot) (ip : Dinode) : State P :=
  (s.setEntry k { s.table k with ip := { ip with type := (s.table k).ip.type } }).setDirty k true

def iupdate (k : Slot) : State P :=
  (s.setDisk (s.table k).dev (s.table k).inum (s.table k).ip).setDirty k false

def iunlock (p : P) (k : Slot) : Except Stop (State P) :=
  if (s.table k).lock ≠ some p ∨ (s.table k).ref < 1 then .error .iunlock
  else .ok (s.setEntry k { s.table k with lock := none })

/-- One round of the loop of `ialloc`. -/
def iallocLoop (ninodes : Nat) (p : P) (dev : Nat) (type : UInt16) (inum : Nat) : State P :=
  if inum < ninodes then
    if (s.disk dev inum).type = 0 then
      ((s.setDisk dev inum { Dinode.zero with type := type }).setUnread dev inum (some p)).setPhase p
        (.alloced dev inum)
    else s.setPhase p (.ialloc dev type (inum + 1))
  else s.setPhase p .idle

/-- `iput` up to its first `release`. -/
def iput (p : P) (k : Slot) : Except Stop (State P) :=
  if (s.table k).ref = 1 ∧ (s.table k).valid = true ∧ (s.table k).ip.nlink = 0 then
    if (s.table k).lock ≠ none then .error .iputBlocks
    else .ok ((s.setEntry k { s.table k with lock := some p }).setPhase p (.itrunc k))
  else .ok (s.unshare p k)

/-- `itrunc`, which ends with `iupdate`. -/
def itrunc (p : P) (k : Slot) : State P :=
  ((s.setEntry k { s.table k with
      ip := { (s.table k).ip with size := 0, addrs := fun _ => 0 } }).iupdate k).setPhase p (.untype k)

/-- `ip->type = 0; iupdate(ip)`. -/
def untype (p : P) (k : Slot) : State P :=
  ((s.setEntry k { s.table k with ip := { (s.table k).ip with type := 0 } }).iupdate k).setPhase p
    (.invalidate k)

/-- `ip->valid = 0; releasesleep(&ip->lock)`. -/
def invalidate (p : P) (k : Slot) : State P :=
  (s.setEntry k { s.table k with valid := false, lock := none }).setPhase p (.drop k)

/-- A process outside these calls makes one. -/
def call (p : P) : Op → Except Stop (State P)
  | .iget dev inum => s.iget p dev inum
  | .idup k => .ok (s.share p k)
  | .ilock k => s.ilock p k
  | .modify k ip => .ok (s.modify k ip)
  | .iupdate k => .ok (s.iupdate k)
  | .iunlock k => s.iunlock p k
  | .ialloc dev type => .ok (s.setPhase p (.ialloc dev type 1))
  | .iput k => s.iput p k
  | .go => .error .wait

/-- A process goes on with a call. -/
def next (ninodes : Nat) (p : P) : Except Stop (State P) :=
  match s.phase p with
  | .idle => .error .wait
  | .ialloc dev type inum => .ok (s.iallocLoop ninodes p dev type inum)
  | .alloced dev inum =>
    match s.iget p dev inum with
    | .ok t => .ok (t.setPhase p .idle)
    | .error e => .error e
  | .ilock k => s.ilockRead p k
  | .itrunc k => .ok (s.itrunc p k)
  | .untype k => .ok (s.untype p k)
  | .invalidate k => .ok (s.invalidate p k)
  | .drop k => .ok ((s.unshare p k).setPhase p .idle)

end State

/-- One step of process `a.1`; `ninodes` is `sb.ninodes`. -/
def step (ninodes : Nat) (s : State P) (a : P × Op) : Except Stop (State P) :=
  match s.phase a.1 with
  | .idle => s.call a.1 a.2
  | _ => s.next ninodes a.1

/-- A process uses the entries to which it has a pointer, with one reference for each pointer: it
changes fields with the sleep-lock held, calls `iupdate` after each change, and keeps its
reference as long as it has the sleep-lock. -/
def Uses (s : State P) (a : P × Op) : Prop :=
  s.phase a.1 = .idle →
    match a.2 with
    | .idup k => 0 < s.held a.1 k
    | .ilock k => 0 < s.held a.1 k
    | .modify k _ => (s.table k).lock = some a.1
    | .iupdate k => (s.table k).lock = some a.1
    | .iunlock k => s.dirty k = false
    | .ialloc _ type => type ≠ 0
    | .iput k => (if (s.table k).lock = some a.1 then 1 else 0) < s.held a.1 k
    | _ => True

instance : ∀ (s : State P) (a : P × Op), Decidable (Uses s a)
  | s, (p, .idup k) | s, (p, .ilock k) =>
    inferInstanceAs (Decidable (s.phase p = .idle → 0 < s.held p k))
  | s, (p, .modify k _) | s, (p, .iupdate k) =>
    inferInstanceAs (Decidable (s.phase p = .idle → (s.table k).lock = some p))
  | s, (p, .iunlock k) => inferInstanceAs (Decidable (s.phase p = .idle → s.dirty k = false))
  | s, (p, .ialloc _ type) => inferInstanceAs (Decidable (s.phase p = .idle → type ≠ 0))
  | s, (p, .iput k) => inferInstanceAs (Decidable
      (s.phase p = .idle → (if (s.table k).lock = some p then 1 else 0) < s.held p k))
  | s, (p, .iget _ _) | s, (p, .go) => inferInstanceAs (Decidable (s.phase p = .idle → True))

/-- After `iinit`, with an empty table. -/
def boot (disk : Nat → Nat → Dinode) : State P where
  table _ := ⟨0, 0, 0, false, .zero, none⟩
  disk := disk
  phase _ := .idle
  held _ _ := 0
  dirty _ := false
  unread _ _ := none

end FogOS.Itable
