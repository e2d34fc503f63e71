import FogOS.Dirent.Model

/-!
# The image builder

`mkfs.c` writes a file system image sector by sector. Inodes and data blocks are
handed out in order by the counters `freeinode` and `freeblock`; the free map is
written once, at the end. Its own `iappend`, `winode` and `balloc` stand beside
the kernel's `writei`, `iupdate` and `balloc`.
-/

namespace FogOS.Mkfs

open Library Bytes Fs Dirent

/-- `FSMAGIC`. -/
def fsmagic : Nat := 0x10203040

/-- `T_FILE`. -/
def tFile : UInt16 := 2

/-- The superblock that `main` computes. -/
abbrev sb : Superblock := mkfsSuperblock

/-- `nmeta`: boot block, superblock, log, inode blocks and free map. -/
def nmeta : Nat := 2 + logSize + (ninodes / ipb + 1) + (fssize / (bsize * 8) + 1)

/-- The image and the counters of `mkfs`. -/
structure State where
  disk : Disk
  freeinode : Nat
  freeblock : Nat

/-- The assertions of `mkfs` that can fail, and a `read` that finds the end of the image. -/
inductive Assertion
  | root
  | slash
  | maxfile
  | read
  | bitmap
  deriving DecidableEq

/-- A file named on the command line: its argument, a C string, and what the successive calls of
`read` return for it, at most a buffer each, up to the end of the file. -/
structure HostFile where
  arg : List UInt8
  chunks : List (List UInt8)
  arg_ne_zero : (0 : UInt8) ∉ arg
  chunks_read : ∀ c ∈ chunks, 0 < c.length ∧ c.length ≤ bsize

/-- The bytes of the file. -/
def HostFile.bytes (f : HostFile) : List UInt8 := f.chunks.flatten

section Sectors

def wsect (sec : Nat) (buf : Block) (st : State) : State :=
  { st with disk := Function.update st.disk sec buf }

def rsect (sec : Nat) (st : State) : Block := st.disk sec

def winode (inum : Nat) (ip : Dinode) (st : State) : State :=
  wsect (iblock sb inum) (putDinode sb st.disk inum ip) st

def rinode (inum : Nat) (st : State) : Dinode := dinode sb st.disk inum

def ialloc (type : UInt16) (st : State) : Nat × State :=
  let inum := st.freeinode
  let st := { st with freeinode := st.freeinode + 1 }
  (inum, winode inum { Dinode.zero with type := type, nlink := 1, size := 0 } st)

/-- Write the free map with the first `used` blocks allocated. -/
def balloc (used : Nat) (st : State) : Except Assertion State :=
  if used < bsize * 8 then .ok (wsect sb.bmapstart (mkfsBitmap used) st) else .error .bitmap

end Sectors

section Append

/-- `freeblock++`. -/
def takeBlock (st : State) : Nat × State :=
  (st.freeblock, { st with freeblock := st.freeblock + 1 })

/-- The part of the loop of `iappend` that finds the block `x` of position `fbn`. -/
def iappendBlock (fbn : Nat) (din : Dinode) (st : State) : Nat × Dinode × State :=
  if fbn < ndirect then
    if din.addr fbn = 0 then
      let (b, st) := takeBlock st
      let din := din.setAddr fbn b
      (din.addr fbn, din, st)
    else (din.addr fbn, din, st)
  else
    let (din, st) :=
      if din.addr ndirect = 0 then
        let (b, st) := takeBlock st
        (din.setAddr ndirect b, st)
      else (din, st)
    let indirect := rsect (din.addr ndirect) st
    if entry indirect (fbn - ndirect) = 0 then
      let (b, st) := takeBlock st
      let indirect := setEntry indirect (fbn - ndirect) b
      (entry indirect (fbn - ndirect), din, wsect (din.addr ndirect) indirect st)
    else (entry indirect (fbn - ndirect), din, st)

/-- The bytes an iteration appends: `min(n, (fbn + 1) * BSIZE - off)`. -/
def piece (n off : Nat) : Nat := min n ((off / bsize + 1) * bsize - off)

theorem piece_pos {n off : Nat} (h : 0 < n) : 0 < piece n off := by
  have hdiv := Nat.div_add_mod off bsize
  have hmod : off % bsize < bsize := Nat.mod_lt _ (by decide)
  have hmul : (off / bsize + 1) * bsize = bsize * (off / bsize) + bsize := by
    rw [add_mul, mul_comm, one_mul]
  unfold piece
  omega

/-- The loop of `iappend`. -/
def iappendLoop (p : Bytes) (n off : Nat) (din : Dinode) (st : State) :
    Except Assertion (Nat × Dinode × State) :=
  if _h : 0 < n then
    let fbn := off / bsize
    if fbn < maxfile then
      let (x, din, st) := iappendBlock fbn din st
      -- `rsect` of the indirect block and of `x`
      if fssize ≤ x ∨ ndirect ≤ fbn ∧ fssize ≤ din.addr ndirect then .error .read
      else
        let n1 := piece n off
        let buf := blit (rsect x st) (off - fbn * bsize) n1 p
        iappendLoop (fun i => p (n1 + i)) (n - n1) (off + n1) din (wsect x buf st)
    else .error .maxfile
  else .ok (off, din, st)
termination_by n
decreasing_by
  have hpos := @piece_pos n off _h
  omega

/-- Append bytes to the file of an inode. -/
def iappend (inum : Nat) (xs : List UInt8) (st : State) : Except Assertion State := do
  let din := rinode inum st
  let (off, din, st) ← iappendLoop (ofList xs) xs.length din.size.toNat din st
  pure (winode inum { din with size := UInt32.ofNat off } st)

/-- The loop over the chunks that `read` returns. -/
def appendChunks (inum : Nat) : List (List UInt8) → State → Except Assertion State
  | [], st => .ok st
  | c :: cs, st => do
      let st ← iappend inum c st
      appendChunks inum cs st

end Append

section Main

def userSlash : List UInt8 := [117, 115, 101, 114, 47]

def slash : UInt8 := 47

def underscore : UInt8 := 95

def dot : List UInt8 := [46]

def dotdot : List UInt8 := [46, 46]

/-- The argument without `user/`. -/
def baseName (arg : List UInt8) : List UInt8 :=
  if strncmp (ofList arg) (ofList userSlash) 5 = 0 then arg.drop 5 else arg

/-- The name of the file in the image: one leading underscore is dropped as well. -/
def shortname (arg : List UInt8) : List UInt8 :=
  if (baseName arg).head? = some underscore then (baseName arg).drop 1 else baseName arg

def addFile (f : HostFile) (st : State) : Except Assertion State :=
  if slash ∈ baseName f.arg then .error .slash
  else do
    let (inum, st) := ialloc tFile st
    let st ← iappend Dir.rootino (record inum (ofList (shortname f.arg))) st
    appendChunks inum f.chunks st

def addFiles : List HostFile → State → Except Assertion State
  | [], st => .ok st
  | f :: fs, st => do
      let st ← addFile f st
      addFiles fs st

/-- The block of the superblock: the words of `struct superblock`. -/
def superblock : Block :=
  setWords (fun _ => 0) 0
    [fsmagic, sb.size, sb.nblocks, sb.ninodes, sb.nlog, sb.logstart, sb.inodestart, sb.bmapstart]

/-- All sectors are zero except the superblock. -/
def start : State :=
  wsect 1 superblock ⟨fun _ _ => 0, 1, nmeta⟩

/-- `main` up to the end of the loop over the files. -/
def build (files : List HostFile) : Except Assertion State := do
  let (rootino, st) := ialloc tDir start
  if rootino ≠ Dir.rootino then .error .root
  else
    let st ← iappend rootino (record rootino (ofList dot)) st
    let st ← iappend rootino (record rootino (ofList dotdot)) st
    addFiles files st

/-- Round the size of the root directory up beyond its last entry. -/
def fixRoot (st : State) : State :=
  let din := rinode Dir.rootino st
  let off := (din.size.toNat / bsize + 1) * bsize
  winode Dir.rootino { din with size := UInt32.ofNat off } st

/-- The image that `mkfs` writes. -/
def main (files : List HostFile) : Except Assertion Disk := do
  let st := fixRoot (← build files)
  let st ← balloc st.freeblock st
  pure st.disk

/-- `readsb` of the kernel: the magic number and the layout. -/
def readsb (d : Disk) : Nat × Superblock :=
  let word k := getLE (d 1) (4 * k) 4
  (word 0, ⟨word 1, word 2, word 3, word 4, word 5, word 6, word 7⟩)

end Main

end FogOS.Mkfs
