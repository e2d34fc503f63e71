import FogOS.Bio.Clients
import FogOS.Library.Count
import FogOS.Log.Invariant

/-!
# Coherence of the cache, the log and the disk

The invariant of the buffer cache with its clients, in four parts: what the buffers and the disk
contain, how often each buffer is referenced, what a process in `bread` relies on, and who may
run `commit`. A fifth part says what each statement of `commit` relies on.
-/

namespace FogOS.Bio

open Library Log

/-- The process has passed `bget` and waits for the buffer, or is about to drop its reference. -/
def Point.Uses (b : BufId) (x : Point) : Prop :=
  match x with
  | .waiting _ _ c => c = b
  | .leaving c => c = b
  | _ => False

instance (b : BufId) : ∀ x : Point, Decidable (x.Uses b)
  | .waiting _ _ c => inferInstanceAs (Decidable (c = b))
  | .leaving c => inferInstanceAs (Decidable (c = b))
  | .idle | .filling _ _ _ => .isFalse id

/-- The process is in `bread` of block `n`. -/
def Point.Reads (n : Nat) (x : Point) : Prop :=
  match x with
  | .waiting _ m _ => m = n
  | .filling _ m _ => m = n
  | _ => False

namespace System

variable {L : LogArea} {s s' : System} {p q : Pid} {b c : BufId} {dev n : Nat}

/-- The entries of the header that are still pinned. -/
def pending (s : System) : List Nat := s.lh.drop s.unpinned

/-- The processes that wait for a buffer or are about to drop their reference. -/
def waiters (s : System) (b : BufId) : Nat :=
  (Finset.univ.filter fun p => (s.point p).Uses b).card

/-- The calls between the `bget` of a buffer and its `brelse`. -/
def users (s : System) (b : BufId) : Nat :=
  s.waiters b + if (s.buf b).lock = none then 0 else 1

/-- The log holds a reference to the buffer. -/
def Pinned (s : System) (b : BufId) : Prop :=
  (s.buf b).dev = rootdev ∧ (s.buf b).blockno ∈ s.pending

instance (s : System) (b : BufId) : Decidable (s.Pinned b) := inferInstanceAs (Decidable (_ ∧ _))

/-- A buffer whose changes have been written holds the latest data of its block; unwritten
changes are in a locked buffer. -/
def CleanBuf (latest : Disk) (v : Buf) (dirty : Bool) : Prop :=
  (v.dev = rootdev → v.valid = true → dirty = false → v.data = latest v.blockno) ∧
    (dirty = true → v.lock ≠ none ∧ v.valid = true)

/-- The contents of the buffers and of the disk. -/
structure Content (s : System) : Prop where
  clean : ∀ b, CleanBuf s.latest (s.buf b) (s.dirty b)
  stored : ∀ n, n ∉ s.pending → s.disk n = s.latest n
  cached : ∀ n ∈ s.pending, ∃ b, (s.buf b).dev = rootdev ∧ (s.buf b).blockno = n ∧
    (s.buf b).valid = true

/-- The reference counts. -/
structure Refs (s : System) : Prop where
  count : ∀ b, (s.buf b).refcnt.toNat = s.users b + if s.Pinned b then 1 else 0
  device : ∀ b, s.users b ≠ 0 → (s.buf b).dev = rootdev

/-- What a process in `bread` relies on. -/
structure Points (s : System) : Prop where
  waiting : ∀ p dev n b, s.point p = .waiting dev n b → (s.buf b).dev = dev ∧ (s.buf b).blockno = n
  filling : ∀ p dev n b, s.point p = .filling dev n b →
    s.Holds p b ∧ (s.buf b).dev = dev ∧ (s.buf b).blockno = n ∧ (s.buf b).valid = false
  filled : ∀ p b, s.Holds p b → (s.buf b).valid = true ∨ ∃ dev n, s.point p = .filling dev n b
  owner : ∀ b x, (s.buf b).lock = some x → ∃ p, s.Holds p b

/-- The log header and the processes that use it. -/
structure Control (L : LogArea) (s : System) : Prop where
  nodup : s.lh.Nodup
  home : ∀ n ∈ s.lh, L.Home n
  fits : s.lh.length ≤ L.size - 1
  ops : s.outstanding = (Finset.univ.filter fun p => s.inOp p = true).card
  opFree : ∀ p, s.inOp p = true → s.pc p = .user ∧ s.committing = false
  committer : ∀ p, s.pc p ≠ .user → s.committing = true
  single : ∀ p q, s.pc p ≠ .user → s.pc q ≠ .user → p = q
  unpinned : s.committing = false → s.unpinned = 0

/-- The log blocks of the first `k` entries hold the data of their home blocks. -/
def Logged (L : LogArea) (s : System) (k : Nat) : Prop :=
  ∀ i n, i < k → s.lh[i]? = some n → s.latest (L.start + i + 1) = s.latest n

/-- A process has locked the buffer of block `n` of the log's device. -/
structure Has (s : System) (p : Pid) (b : BufId) (n : Nat) : Prop where
  holds : s.Holds p b
  dev : (s.buf b).dev = rootdev
  blockno : (s.buf b).blockno = n
  valid : (s.buf b).valid = true

/-- A locked buffer without unwritten changes. -/
structure HasClean (s : System) (p : Pid) (b : BufId) (n : Nat) : Prop extends s.Has p b n where
  clean : s.dirty b = false

/-- The progress of the two loops of `commit`: what is logged and how much is unpinned. -/
def Progress (L : LogArea) (s : System) : Pass → Nat → Prop
  | .log, tail => s.unpinned = 0 ∧ s.Logged L tail
  | .install, tail => s.unpinned = tail ∧ s.Logged L s.lh.length

/-- What the two calls of `write_head` rely on. -/
def HeadTime (L : LogArea) (s : System) : Bool → Prop
  | false => s.unpinned = 0 ∧ s.Logged L s.lh.length
  | true => s.unpinned = 0 ∧ s.lh = []

/-- What the next statement of a process in `commit` relies on. -/
def AtPc (L : LogArea) (s : System) (p : Pid) : Pc → Prop
  | .user => True
  | .start => s.unpinned = 0
  | .loop pass tail => tail ≤ s.lh.length ∧ s.Progress L pass tail
  | .home pass tail l =>
    tail < s.lh.length ∧ s.Progress L pass tail ∧ s.HasClean p l (L.start + tail + 1)
  | .copy pass tail l d => s.Progress L pass tail ∧ s.HasClean p l (L.start + tail + 1) ∧
      ∃ n, s.lh[tail]? = some n ∧ s.HasClean p d n
  | .write .log tail l d => s.Progress L .log tail ∧ s.Has p l (L.start + tail + 1) ∧
      ∃ n, s.lh[tail]? = some n ∧ s.HasClean p d n ∧ (s.buf l).data = s.latest n
  | .write .install tail l d => s.Progress L .install tail ∧
      s.HasClean p l (L.start + tail + 1) ∧
      ∃ n, s.lh[tail]? = some n ∧ s.Has p d n ∧ (s.buf d).data = s.latest n
  | .unpin tail l d => s.Progress L .install tail ∧ s.HasClean p l (L.start + tail + 1) ∧
      ∃ n, s.lh[tail]? = some n ∧ s.HasClean p d n ∧ s.disk n = s.latest n
  | .release pass tail l d => s.Progress L pass (tail + 1) ∧
      s.HasClean p l (L.start + tail + 1) ∧ ∃ n, s.lh[tail]? = some n ∧ s.HasClean p d n
  | .releaseLast pass tail b => tail < s.lh.length ∧ s.Progress L pass (tail + 1) ∧
      ∃ n, s.HasClean p b n
  | .head erase => s.HeadTime L erase
  | .fillHead erase b => s.HeadTime L erase ∧ s.HasClean p b L.start
  | .writeHead erase b => s.HeadTime L erase ∧ s.Has p b L.start
  | .releaseHead erase b => s.HeadTime L erase ∧ s.HasClean p b L.start
  | .clear => s.unpinned = s.lh.length
  | .finish => s.unpinned = 0 ∧ s.lh = []

/-- The invariant of the whole system. -/
structure Inv (L : LogArea) (s : System) : Prop where
  lru : ∃ order, s.cache.Lru order
  content : s.Content
  refs : s.Refs
  points : s.Points
  control : s.Control L
  commit : ∀ p, s.AtPc L p (s.pc p)
  reading : ∀ p n, s.pc p ≠ .user → (s.point p).Reads n → (s.pc p).reads L s.lh = some n

end System

end FogOS.Bio
