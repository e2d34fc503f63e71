import FogOS.Library.Bytes

/-!
# Kernel parameters and the on-disk layout

The constants of `param.h` and `fs.h`, and the superblock that `mkfs` writes.
-/

namespace FogOS

/-- `MAXOPBLOCKS`: the most blocks any file system operation writes. -/
def maxOpBlocks : Nat := 10

/-- `LOGSIZE`: the entries of the log header. -/
def logSize : Nat := maxOpBlocks * 3

/-- `FSSIZE`: the size of the file system in blocks. -/
def fssize : Nat := 2000

/-- `BSIZE`: the size of a block in bytes. -/
def bsize : Nat := 1024

/-- `NINODES` of `mkfs`. -/
def ninodes : Nat := 200

/-- Offsets from `bsize` on are never accessed. -/
abbrev Block : Type := Library.Bytes

/-- The disk as the kernel reads it through the buffer cache, or as it is stored. -/
abbrev Disk : Type := Nat → Block

/-- The fields of `struct superblock` that describe the layout. -/
structure Superblock where
  size : Nat
  nblocks : Nat
  ninodes : Nat
  nlog : Nat
  logstart : Nat
  inodestart : Nat
  bmapstart : Nat
  deriving DecidableEq

/-- `IPB`: inodes per block, at `sizeof(struct dinode) = 64`. -/
def ipb : Nat := bsize / 64

/-- `BPB`: bitmap bits per block. -/
def bpb : Nat := bsize * 8

/-- The superblock that `main` of `mkfs` computes. -/
def mkfsSuperblock : Superblock :=
  let nbitmap := fssize / (bsize * 8) + 1
  let ninodeblocks := FogOS.ninodes / ipb + 1
  let nlog := logSize
  let nmeta := 2 + nlog + ninodeblocks + nbitmap
  { size := fssize
    nblocks := fssize - nmeta
    ninodes := FogOS.ninodes
    nlog := nlog
    logstart := 2
    inodestart := 2 + nlog
    bmapstart := 2 + nlog + ninodeblocks }

end FogOS
