import FogOS.Bio.Lru
import FogOS.Log.Commit
import FogOS.Process.Table

/-!
# The buffer cache with its clients and the log

Processes use buffers through `bread`, `log_write`, `bwrite` and `brelse`, and the last one to
leave a group of operations runs `commit` of `log.c` on the same cache. A step is the part of a
call between two points where another process can intervene. `bget` may recycle any unused
buffer. `latest` records the data of the last `log_write` or `bwrite` of each block, where the
`bwrite` of `install_trans` does not count, and `unpinned` how many entries of the header
`install_trans` has unpinned.
-/

namespace FogOS.Bio

open Function Library Log

/-- `ROOTDEV`, which is also `log.dev`. -/
def rootdev : Nat := 1

abbrev Pid : Type := Fin Process.nproc

/-- Where a process is in `bread` or `brelse`: before `acquiresleep`, before it reads the disk, or
in `brelse` after it has released the sleep-lock. -/
inductive Point
  | idle
  | waiting (dev blockno : Nat) (b : BufId)
  | filling (dev blockno : Nat) (b : BufId)
  | leaving (b : BufId)
  deriving DecidableEq

/-- The two loops over `log.lh` in `commit`: `write_log` and `install_trans`. -/
inductive Pass
  | log
  | install
  deriving DecidableEq

/-- The next statement of a process in `commit`. Both loops read the log block into `l` and the
home block into `d`; `erase` tells the second `write_head` from the first. -/
inductive Pc
  | user
  | start
  | loop (pass : Pass) (tail : Nat)
  | home (pass : Pass) (tail : Nat) (l : BufId)
  | copy (pass : Pass) (tail : Nat) (l d : BufId)
  | write (pass : Pass) (tail : Nat) (l d : BufId)
  | unpin (tail : Nat) (l d : BufId)
  | release (pass : Pass) (tail : Nat) (l d : BufId)
  | releaseLast (pass : Pass) (tail : Nat) (b : BufId)
  | head (erase : Bool)
  | fillHead (erase : Bool) (b : BufId)
  | writeHead (erase : Bool) (b : BufId)
  | releaseHead (erase : Bool) (b : BufId)
  | clear
  | finish
  deriving DecidableEq

namespace Pc

/-- The statement after a loop. -/
def after : Pass → Pc
  | .log => head false
  | .install => clear

/-- The block that the next statement reads. -/
def reads (L : LogArea) (lh : List Nat) : Pc → Option Nat
  | loop _ tail => if tail < lh.length then some (L.start + tail + 1) else none
  | home _ tail _ => lh[tail]?
  | head _ => some L.start
  | _ => none

/-- The statement after a `bread` that returned `b`. -/
def resume (b : BufId) : Pc → Pc
  | loop pass tail => home pass tail b
  | home pass tail l => copy pass tail l b
  | head erase => fillHead erase b
  | pc => pc

/-- The buffer that the next statement writes, and the statement after it. -/
def writes : Pc → Option (BufId × Pc)
  | write .log tail l d => some (l, release .log tail l d)
  | write .install tail l d => some (d, unpin tail l d)
  | writeHead erase b => some (b, releaseHead erase b)
  | _ => none

/-- The buffer that the next statement releases, and the statement after it. -/
def releases : Pc → Option (BufId × Pc)
  | release .log tail l d => some (d, releaseLast .log tail l)
  | release .install tail l d => some (l, releaseLast .install tail d)
  | releaseLast pass tail b => some (b, loop pass (tail + 1))
  | releaseHead false b => some (b, loop .install 0)
  | releaseHead true b => some (b, finish)
  | _ => none

end Pc

structure System where
  cache : Bcache
  disk : Disk
  lh : List Nat
  outstanding : Nat
  committing : Bool
  point : Pid → Point
  pc : Pid → Pc
  /-- Between `begin_op` and `end_op`. -/
  inOp : Pid → Bool
  /-- Changed since the last `log_write` or `bwrite`. -/
  dirty : BufId → Bool
  latest : Disk
  unpinned : Nat

namespace System

def buf (s : System) (b : BufId) : Buf := s.cache.buf b

def setPoint (s : System) (p : Pid) (x : Point) : System :=
  { s with point := update s.point p x }

def setPc (s : System) (p : Pid) (x : Pc) : System :=
  { s with pc := update s.pc p x }

def setBuf (s : System) (b : BufId) (v : Buf) : System :=
  { s with cache := s.cache.setBuf b v }

def setDirty (s : System) (b : BufId) (x : Bool) : System :=
  { s with dirty := update s.dirty b x }

/-- A process holds the sleep-lock of a buffer. -/
def Holds (s : System) (p : Pid) (b : BufId) : Prop := (s.buf b).lock = some p.val

instance (s : System) (p : Pid) (b : BufId) : Decidable (s.Holds p b) :=
  inferInstanceAs (Decidable (_ = _))

/-- A process is between two calls, in a system call rather than in `commit`. -/
def Free (s : System) (p : Pid) : Prop := s.pc p = .user ∧ s.point p = .idle

instance (s : System) (p : Pid) : Decidable (s.Free p) := inferInstanceAs (Decidable (_ ∧ _))

def beginOp (s : System) (p : Pid) : Except Stop System :=
  if s.Free p ∧ s.inOp p = false ∧ s.committing = false ∧
      s.lh.length + (s.outstanding + 1) * maxOpBlocks ≤ logSize then
    .ok { s with outstanding := s.outstanding + 1, inOp := update s.inOp p true }
  else .error .disabled

def endOp (s : System) (p : Pid) : Except Stop System :=
  if s.Free p ∧ s.inOp p = true then
    if s.committing = true then .error .panicCommitting
    else
      let s := { s with
        outstanding := s.outstanding - 1
        inOp := update s.inOp p false }
      if s.outstanding = 0 then .ok ({ s with committing := true }.setPc p .start) else .ok s
  else .error .disabled

/-- No buffer holds the block. -/
def Absent (c : Bcache) (dev blockno : Nat) : Prop :=
  ∀ b, Bcache.caches dev blockno (c.buf b) = false

instance (c : Bcache) (dev blockno : Nat) : Decidable (Absent c dev blockno) :=
  inferInstanceAs (Decidable (∀ _, _))

/-- The section of `bget` under `bcache.lock` when it returns `b`. -/
def take (c : Bcache) (dev blockno : Nat) (b : BufId) : Except Stop Bcache :=
  if Bcache.caches dev blockno (c.buf b) = true then .ok (c.addRef b)
  else if Absent c dev blockno ∧ (c.buf b).refcnt = 0 then
    .ok (c.setBuf b (Bcache.recycle (c.buf b) dev blockno))
  else .error .disabled

/-- A process in `commit` reads the block that its next statement names, another process any
block. -/
def MayRead (L : LogArea) (s : System) (p : Pid) (dev blockno : Nat) : Prop :=
  s.point p = .idle ∧ (s.pc p = .user ∨ dev = rootdev ∧ (s.pc p).reads L s.lh = some blockno)

instance (L : LogArea) (s : System) (p : Pid) (dev blockno : Nat) :
    Decidable (MayRead L s p dev blockno) := inferInstanceAs (Decidable (_ ∧ (_ ∨ _)))

def bget (L : LogArea) (s : System) (p : Pid) (dev blockno : Nat) (b : BufId) :
    Except Stop System :=
  if MayRead L s p dev blockno then
    match take s.cache dev blockno b with
    | .ok c => .ok ({ s with cache := c }.setPoint p (.waiting dev blockno b))
    | .error e => .error e
  else .error .disabled

/-- `bread` returns `b`. -/
def returned (s : System) (p : Pid) (b : BufId) : System :=
  (s.setPoint p .idle).setPc p ((s.pc p).resume b)

/-- `acquiresleep` in `bget`, and the test of `b->valid` in `bread`. -/
def acquire (s : System) (p : Pid) : Except Stop System :=
  match s.point p with
  | .waiting dev blockno b =>
    if (s.buf b).lock = none then
      let t := s.setBuf b { s.buf b with lock := some p.val }
      if (s.buf b).valid = true then .ok (t.returned p b)
      else .ok (t.setPoint p (.filling dev blockno b))
    else .error .disabled
  | _ => .error .disabled

/-- `virtio_disk_rw(b, 0); b->valid = 1`. The driver does not look at `b->dev`. -/
def fill (s : System) (p : Pid) : Except Stop System :=
  match s.point p with
  | .filling _ _ b =>
    .ok ((s.setBuf b { s.buf b with data := s.disk (s.buf b).blockno, valid := true }).returned p b)
  | _ => .error .disabled

/-- A client changes the data of a buffer that it has locked. -/
def modify (s : System) (p : Pid) (b : BufId) (data : Block) : Except Stop System :=
  if s.Free p ∧ s.Holds p b then
    .ok ((s.setBuf b { s.buf b with data := data }).setDirty b true)
  else .error .disabled

/-- The data of `b` is now what a reader of its block has to see. -/
def publish (s : System) (b : BufId) : System :=
  { s.setDirty b false with
    latest := update s.latest (s.buf b).blockno (s.buf b).data }

/-- `log_write` after its tests. -/
def record (s : System) (b : BufId) : System :=
  let s := s.publish b
  if (s.buf b).blockno ∈ s.lh then s
  else { s with cache := s.cache.bpin b, lh := absorb s.lh (s.buf b).blockno }

def logWrite (L : LogArea) (s : System) (p : Pid) (b : BufId) : Except Stop System :=
  if s.Free p ∧ s.Holds p b ∧ s.inOp p = true then
    if logSize ≤ s.lh.length ∨ L.size - 1 ≤ s.lh.length then .error .panicTooBig
    else if s.outstanding < 1 then .error .panicOutsideTrans
    else .ok (s.record b)
  else .error .disabled

/-- `virtio_disk_rw(b, 1)`. -/
def flush (s : System) (b : BufId) : System :=
  { s.setDirty b false with
    disk := update s.disk (s.buf b).blockno (s.buf b).data }

/-- A `bwrite` of new data. -/
def store (s : System) (b : BufId) : System :=
  { s.publish b with disk := update s.disk (s.buf b).blockno (s.buf b).data }

/-- The `bwrite` at a statement of `commit`: the one of `install_trans` writes no new data. -/
def written (s : System) (b : BufId) : Pc → System
  | .write .install _ _ _ => s.flush b
  | _ => s.store b

/-- `bwrite`: a client's, or the one of the next statement of `commit`. -/
def bwrite (s : System) (p : Pid) (b : BufId) : Except Stop System :=
  if s.point p ≠ .idle then .error .disabled
  else if ¬s.Holds p b then .error .panicBwrite
  else if s.pc p = .user then .ok (s.store b)
  else
    match (s.pc p).writes with
    | some (b', next) =>
      if b = b' then .ok ((s.written b (s.pc p)).setPc p next) else .error .disabled
    | none => .error .disabled

/-- `brelse` up to the release of the sleep-lock. A client first writes what it has changed. -/
def unlock (s : System) (p : Pid) (b : BufId) : Except Stop System :=
  if s.point p ≠ .idle then .error .disabled
  else if ¬s.Holds p b then .error .panicBrelse
  else
    let t := (s.setBuf b { s.buf b with lock := none }).setPoint p (.leaving b)
    if s.pc p = .user then
      if s.dirty b = false then .ok t else .error .disabled
    else
      match (s.pc p).releases with
      | some (b', next) => if b = b' then .ok (t.setPc p next) else .error .disabled
      | none => .error .disabled

/-- `brelse` under `bcache.lock`. -/
def brelse (s : System) (p : Pid) : Except Stop System :=
  match s.point p with
  | .leaving b => .ok ({ s with cache := s.cache.brelse b }.setPoint p .idle)
  | _ => .error .disabled

/-- `memmove(dst->data, src->data, BSIZE)`. -/
def memmove (s : System) (dst src : BufId) : System :=
  (s.setBuf dst { s.buf dst with data := (s.buf src).data }).setDirty dst true

/-- The statements of `commit` and `end_op` that are not calls of `bread`, `bwrite` or `brelse`. -/
def commit (s : System) (p : Pid) : Except Stop System :=
  if s.point p ≠ .idle then .error .disabled
  else
    match s.pc p with
    | .start => .ok (s.setPc p (if 0 < s.lh.length then .loop .log 0 else .finish))
    | .loop pass tail =>
      if tail < s.lh.length then .error .disabled
      else .ok (s.setPc p (.after pass))
    | .copy .log tail l d => .ok ((s.memmove l d).setPc p (.write .log tail l d))
    | .copy .install tail l d => .ok ((s.memmove d l).setPc p (.write .install tail l d))
    | .unpin tail l d =>
      .ok ({ s with
        cache := s.cache.bunpin d
        unpinned := s.unpinned + 1 }.setPc p (.release .install tail l d))
    | .fillHead erase b =>
      .ok (((s.setBuf b { s.buf b with data := putHead (s.buf b).data s.lh }).setDirty b
        true).setPc p (.writeHead erase b))
    | .clear => .ok ({ s with lh := [], unpinned := 0 }.setPc p (.head true))
    | .finish => .ok ({ s with committing := false }.setPc p .user)
    | _ => .error .disabled

end System

namespace Clients

inductive Act
  | beginOp (p : Pid)
  | endOp (p : Pid)
  | bget (p : Pid) (dev blockno : Nat) (b : BufId)
  | acquire (p : Pid)
  | fill (p : Pid)
  | modify (p : Pid) (b : BufId) (data : Block)
  | logWrite (p : Pid) (b : BufId)
  | bwrite (p : Pid) (b : BufId)
  | unlock (p : Pid) (b : BufId)
  | brelse (p : Pid)
  | commit (p : Pid)

def step (L : LogArea) (s : System) : Act → Except Stop System
  | .beginOp p => s.beginOp p
  | .endOp p => s.endOp p
  | .bget p dev blockno b => s.bget L p dev blockno b
  | .acquire p => s.acquire p
  | .fill p => s.fill p
  | .modify p b data => s.modify p b data
  | .logWrite p b => s.logWrite L p b
  | .bwrite p b => s.bwrite p b
  | .unlock p b => s.unlock p b
  | .brelse p => s.brelse p
  | .commit p => s.commit p

/-- The system after `binit`. The recovery in `initlog` is a client that reads and writes blocks
before there is any other. -/
def boot (data : BufId → Block) (disk : Disk) : System where
  cache := binit data
  disk := disk
  lh := []
  outstanding := 0
  committing := false
  point _ := .idle
  pc _ := .user
  inOp _ := false
  dirty _ := false
  latest := disk
  unpinned := 0

end Clients

end FogOS.Bio
