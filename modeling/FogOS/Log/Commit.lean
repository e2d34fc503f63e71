import FogOS.Param
import FogOS.Library.Crash

/-!
# The redo log: commit and recovery

The model of `commit` and `recover_from_log` in `log.c`. A machine has the disk
and the contents that `bread` returns; a `bwrite` is the one atomic effect, so
a crash leaves the disk and forgets everything else. `committed` and `returned`
count the commits whose header reached the disk and those that came back.
-/

namespace FogOS.Log

open Function Library Bytes

/-- The log area `[start, start + size)`: one header block and `size - 1` data blocks. -/
structure LogArea where
  start : Nat
  size : Nat
  size_pos : 0 < size
  size_le : size ≤ logSize + 1

namespace LogArea

/-- A block outside the log area. -/
def Home (L : LogArea) (b : Nat) : Prop := b < L.start ∨ L.start + L.size ≤ b

instance (L : LogArea) (b : Nat) : Decidable (L.Home b) := inferInstanceAs (Decidable (_ ∨ _))

/-- The log area of the superblock that `mkfs` writes. -/
def mkfs : LogArea where
  start := mkfsSuperblock.logstart
  size := mkfsSuperblock.nlog
  size_pos := by decide
  size_le := by decide

end LogArea

/-- The block numbers in a header block. `n` is a C `int`, so a value with the top bit
set is negative and bounds an empty loop. -/
@[irreducible] def headBlocks (hb : Block) : List Nat :=
  let n := getLE hb 0 4
  (List.range (if n < 2 ^ 31 then n else 0)).map fun i => getLE hb (4 + 4 * i) 4

/-- The header block after `write_head` has filled in `n` and `block[0..n)`. -/
def putHead (hb : Block) (bs : List Nat) : Block :=
  setWords (setLE hb 0 4 bs.length) 4 bs

/-- The state of the kernel's log and of the disk below it. -/
structure Machine where
  disk : Disk
  buf : Disk
  lh : List Nat
  committed : Nat
  returned : Nat

namespace Machine

/-- Change a cached block. -/
def setBuf (b : Nat) (v : Block) (m : Machine) : Machine :=
  { m with buf := update m.buf b v }

/-- The effect of one `bwrite`. -/
def store (b : Nat) (m : Machine) : Machine :=
  { m with disk := update m.disk b (m.buf b) }

@[simp] theorem setBuf_lh (b : Nat) (v : Block) (m : Machine) : (m.setBuf b v).lh = m.lh := rfl

@[simp] theorem store_lh (b : Nat) (m : Machine) : (m.store b).lh = m.lh := rfl

/-- A booting kernel has nothing but the disk. -/
def boot (d : Disk) : Machine :=
  { disk := d, buf := d, lh := [], committed := 0, returned := 0 }

end Machine

open Program

def bwrite (b : Nat) : Program Machine := atomic (Machine.store b)

/-- `memmove(dst->data, src->data, BSIZE); bwrite(dst)`. -/
def copyBlock (dst src : Nat) : Program Machine :=
  seq (modify fun m => m.setBuf dst (m.buf src)) (bwrite dst)

/-- Copy the committed blocks from the log to their home location. -/
def installTrans (L : LogArea) : Program Machine :=
  read fun m => forEach (fun e => copyBlock e.1 (L.start + e.2 + 1)) m.lh.zipIdx

/-- Read the log header from disk into the in-memory log header. -/
def readHead (L : LogArea) : Program Machine :=
  modify fun m => { m with lh := headBlocks (m.buf L.start) }

/-- Write the in-memory log header to disk. -/
def writeHead (L : LogArea) : Program Machine :=
  seq (modify fun m => m.setBuf L.start (putHead (m.buf L.start) m.lh)) (bwrite L.start)

def clearHead : Program Machine := modify fun m => { m with lh := [] }

def recoverFromLog (L : LogArea) : Program Machine :=
  seq (readHead L) (seq (installTrans L) (seq clearHead (writeHead L)))

/-- Copy the modified blocks from the cache to the log. -/
def writeLog (L : LogArea) : Program Machine :=
  read fun m => forEach (fun e => copyBlock (L.start + e.2 + 1) e.1) m.lh.zipIdx

def commit (L : LogArea) : Program Machine :=
  read fun m =>
    if 0 < m.lh.length then
      seq (writeLog L) <|
      seq (writeHead L) <|
      seq (modify fun m => { m with committed := m.committed + 1 }) <|
      seq (installTrans L) <|
      seq clearHead <|
      seq (writeHead L) <|
      modify fun m => { m with returned := m.returned + 1 }
    else skip

/-- The header entries after `log_write` of block `b`: a block that is already listed
is absorbed. -/
def absorb (bs : List Nat) (b : Nat) : List Nat :=
  if b ∈ bs then bs else bs ++ [b]

/-- A client changes the cached block and hands it to `log_write`. -/
def logWrite (w : Nat × Block) : Program Machine :=
  modify fun m => { m.setBuf w.1 w.2 with lh := absorb m.lh w.1 }

/-- What one group of operations writes: distinct home blocks that fit the log. A block
number is a C `uint`. -/
structure Transaction (L : LogArea) where
  writes : List (Nat × Block)
  nodup : (writes.map Prod.fst).Nodup
  home : ∀ b ∈ writes.map Prod.fst, L.Home b
  isUint : ∀ b ∈ writes.map Prod.fst, b < 2 ^ 32
  fits : writes.length ≤ L.size - 1

namespace Transaction

variable {L : LogArea}

/-- The block numbers of a transaction. -/
def blocks (tx : Transaction L) : List Nat := tx.writes.map Prod.fst

/-- The disk with all the blocks of the transaction in place. -/
def apply (tx : Transaction L) (d : Disk) : Disk :=
  tx.writes.foldl (fun d w => update d w.1 w.2) d

/-- The transactions applied in order. -/
def applyAll (txs : List (Transaction L)) (d : Disk) : Disk :=
  txs.foldl (fun d tx => tx.apply d) d

/-- A transaction with no blocks is skipped by `commit`: no header is written for it. -/
def logged (txs : List (Transaction L)) : List (Transaction L) :=
  txs.filter fun tx => !tx.writes.isEmpty

end Transaction

/-- The writes of one transaction and the commit that ends it. -/
def transact (L : LogArea) (tx : Transaction L) : Program Machine :=
  seq (forEach logWrite tx.writes) (commit L)

/-- A kernel that runs the transactions one after another. -/
def transactAll (L : LogArea) (txs : List (Transaction L)) : Program Machine :=
  forEach (transact L) txs

/-- The disk after a boot whose recovery may be cut. -/
def reboot (L : LogArea) (d : Disk) (n : Nat) : Disk :=
  (recoverFromLog L (Machine.boot d) n).state.disk

end FogOS.Log
