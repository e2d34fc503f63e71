import FogOS.Param
import FogOS.Library.Linked
import FogOS.Library.Transition

/-!
# The buffer cache

The model of `bio.c`: the `NBUF` buffers and the circular list through `bcache.head` that orders
them by last use. A step is what a call does between two changes of lock: `bget` and `brelse` are
each a section under `bcache.lock` and an operation on the buffer's sleep-lock. Each `brelse` that
leaves a buffer unreferenced is recorded with its number.
-/

namespace FogOS.Bio

open Function Library Linked

/-- `NBUF`: the size of the disk block cache. -/
def nbuf : Nat := maxOpBlocks * 3

instance : NeZero nbuf := ⟨by decide⟩

abbrev BufId : Type := Fin nbuf

/-- What a `next` or `prev` points to: `bcache.head` or a buffer. -/
inductive Node
  | head
  | buf (b : BufId)
  deriving DecidableEq

/-- The fields of `struct buf`, without the list pointers; `lock` is the holder of the
sleep-lock. -/
structure Buf where
  valid : Bool
  dev : Nat
  blockno : Nat
  lock : Option Nat
  refcnt : UInt32
  data : Block

structure Bcache where
  buf : BufId → Buf
  next : Node → Node
  prev : Node → Node
  /-- How often `brelse` has left a buffer unreferenced. -/
  releases : Nat
  /-- The number of the last such `brelse` of each buffer. -/
  released : BufId → Option Nat

inductive Stop
  | disabled
  | panicNoBuffers
  | panicBwrite
  | panicBrelse
  | panicTooBig
  | panicOutsideTrans
  | panicCommitting
  | diverges
  deriving DecidableEq

namespace Bcache

def setBuf (s : Bcache) (b : BufId) (v : Buf) : Bcache :=
  { s with buf := update s.buf b v }

def setNext (s : Bcache) (n v : Node) : Bcache :=
  { s with next := update s.next n v }

def setPrev (s : Bcache) (n v : Node) : Bcache :=
  { s with prev := update s.prev n v }

/-- `b->next->prev = b->prev; b->prev->next = b->next`. -/
def unlink (s : Bcache) (b : BufId) : Bcache :=
  let s := s.setPrev (s.next (.buf b)) (s.prev (.buf b))
  s.setNext (s.prev (.buf b)) (s.next (.buf b))

/-- `b->next = head.next; b->prev = &head; head.next->prev = b; head.next = b`. -/
def pushFront (s : Bcache) (b : BufId) : Bcache :=
  let s := s.setNext (.buf b) (s.next .head)
  let s := s.setPrev (.buf b) .head
  let s := s.setPrev (s.next .head) (.buf b)
  s.setNext .head (.buf b)

/-- The result of a test on a list node; the loops stop before they test the head. -/
def probe (s : Bcache) (test : Buf → Bool) : Node → Option BufId
  | .head => none
  | .buf b => if test (s.buf b) = true then some b else none

/-- `b->dev == dev && b->blockno == blockno`. -/
def caches (dev blockno : Nat) (v : Buf) : Bool := v.dev == dev && v.blockno == blockno

/-- `b->refcnt == 0`. -/
def unused (v : Buf) : Bool := v.refcnt == 0

/-- The first loop of `bget`. -/
def lookup (s : Bcache) (dev blockno : Nat) : Option (Option BufId) :=
  search s.next .head (s.probe (caches dev blockno)) (nbuf + 1) (s.next .head)

/-- The second loop of `bget`. -/
def victim (s : Bcache) : Option (Option BufId) :=
  search s.prev .head (s.probe unused) (nbuf + 1) (s.prev .head)

/-- A buffer taken over for another block. -/
def recycle (v : Buf) (dev blockno : Nat) : Buf :=
  { v with dev := dev, blockno := blockno, valid := false, refcnt := 1 }

def addRef (s : Bcache) (b : BufId) : Bcache :=
  s.setBuf b { s.buf b with refcnt := (s.buf b).refcnt + 1 }

def dropRef (s : Bcache) (b : BufId) : Bcache :=
  s.setBuf b { s.buf b with refcnt := (s.buf b).refcnt - 1 }

/-- `bget` up to the release of `bcache.lock`. -/
def bget (s : Bcache) (dev blockno : Nat) : Except Stop (BufId × Bcache) :=
  match s.lookup dev blockno with
  | none => .error .diverges
  | some (some b) => .ok (b, s.addRef b)
  | some none =>
    match s.victim with
    | none => .error .diverges
    | some (some b) => .ok (b, s.setBuf b (recycle (s.buf b) dev blockno))
    | some none => .error .panicNoBuffers

def acquiresleep (s : Bcache) (p : Nat) (b : BufId) : Except Stop Bcache :=
  if (s.buf b).lock = none then .ok (s.setBuf b { s.buf b with lock := some p })
  else .error .disabled

/-- `brelse` up to the release of the sleep-lock. -/
def unlock (s : Bcache) (p : Nat) (b : BufId) : Except Stop Bcache :=
  if (s.buf b).lock = some p then .ok (s.setBuf b { s.buf b with lock := none })
  else .error .panicBrelse

/-- The list part of a `brelse` that leaves `b` unreferenced. -/
def moveToFront (s : Bcache) (b : BufId) : Bcache :=
  { (s.unlink b).pushFront b with
    releases := s.releases + 1
    released := update s.released b (some s.releases) }

/-- `brelse` under `bcache.lock`. -/
def brelse (s : Bcache) (b : BufId) : Bcache :=
  if ((s.dropRef b).buf b).refcnt = 0 then (s.dropRef b).moveToFront b else s.dropRef b

def bpin (s : Bcache) (b : BufId) : Bcache := s.addRef b

def bunpin (s : Bcache) (b : BufId) : Bcache := s.dropRef b

end Bcache

open Bcache

inductive Act
  | bget (dev blockno : Nat)
  | acquiresleep (p : Nat) (b : BufId)
  | unlock (p : Nat) (b : BufId)
  | brelse (b : BufId)
  | bpin (b : BufId)
  | bunpin (b : BufId)
  deriving DecidableEq

def step (s : Bcache) : Act → Except Stop Bcache
  | .bget dev blockno =>
    match s.bget dev blockno with
    | .ok (_, s') => .ok s'
    | .error e => .error e
  | .acquiresleep p b => s.acquiresleep p b
  | .unlock p b => s.unlock p b
  | .brelse b => .ok (s.brelse b)
  | .bpin b => .ok (s.bpin b)
  | .bunpin b => .ok (s.bunpin b)

/-- The static data of the kernel is zero. -/
def zeroed (data : BufId → Block) : Bcache where
  buf b := { valid := false, dev := 0, blockno := 0, lock := none, refcnt := 0, data := data b }
  next _ := .head
  prev _ := .head
  releases := 0
  released _ := none

def binit (data : BufId → Block) : Bcache :=
  (List.finRange nbuf).foldl pushFront (zeroed data)

end FogOS.Bio
