import FogOS.Fs.Inode

/-!
# Directories, paths and links

The directory layer of `fs.c` and the parts of `sysfile.c` that change links. A
directory is the list of its `struct dirent` slots; the contents of files play no
part here. An inode in memory is named by its number, because `iget` keeps one
table entry per inode, and its copy on disk is always up to date between calls.
Every call is one step, so the sleep locks are not represented.
-/

namespace FogOS.Dir

open Function Library

/-- `ROOTINO`. -/
def rootino : Nat := 1

/-- `DIRSIZ`. -/
def dirsiz : Nat := 14

/-- `NINODE`: the entries of the inode table. -/
def ninode : Nat := 50

/-- The slots of the largest directory, at `sizeof(struct dirent) = 16`. -/
def maxDirents : Nat := Fs.maxfile * bsize / 16

/-- A name of at most `DIRSIZ` characters. -/
abbrev Name : Type := List Char

def dot : Name := ['.']

def dotdot : Name := ['.', '.']

/-- A slot of a directory; `inum` is `0` in an empty slot. -/
structure Dirent where
  inum : Nat
  name : Name
  deriving DecidableEq

/-- The types of inodes; `free` is type `0`. The device numbers belong to devices only. -/
inductive InodeType
  | free
  | dir
  | file
  | device (major minor : Int)
  deriving DecidableEq

/-- An inode as the directory layer uses it. -/
structure Inode where
  type : InodeType
  nlink : Int
  dirents : List Dirent
  deriving DecidableEq

/-- An inode all of whose bytes are zero. -/
def Inode.zero : Inode := ⟨.free, 0, []⟩

/-- The value of a `short` after an assignment. -/
def short (n : Int) : Int := Int.bmod n (2 ^ 16)

/-- The inodes, the reference counts and `valid` flags of the inode table, and the answers
`balloc` is made to give when a directory needs a block. -/
structure Tree where
  inodes : Nat → Inode
  ref : Nat → Nat
  valid : Nat → Bool
  refusals : List Bool

/-- The panics that the calls of this layer can reach. -/
inductive DirPanic
  | igetNoInodes
  | ilock
  | ilockNoType
  | dirlookupNotDir
  | unlinkNlink
  | filedup
  | fileclose
  | initExiting
  deriving DecidableEq

/-- An operation on the tree. -/
abbrev Op : Type → Type := StateT Tree (Except DirPanic)

namespace Tree

/-- The table entries in use. -/
def inUse (t : Tree) : Nat := ((List.range ninodes).filter fun i => 0 < t.ref i).length

def setInode (t : Tree) (i : Nat) (ip : Inode) : Tree :=
  { t with inodes := update t.inodes i ip }

def setRef (t : Tree) (i n : Nat) : Tree := { t with ref := update t.ref i n }

def setValid (t : Tree) (i : Nat) (v : Bool) : Tree :=
  { t with valid := update t.valid i v }

end Tree

section Inodes

def iget (i : Nat) : Op Unit := do
  let t ← get
  if 0 < t.ref i then set (t.setRef i (t.ref i + 1))
  else if t.inUse < ninode then set ((t.setRef i 1).setValid i false)
  else throw .igetNoInodes

def idup (i : Nat) : Op Unit := modify fun t => t.setRef i (t.ref i + 1)

def ilock (i : Nat) : Op Unit := do
  let t ← get
  if t.ref i < 1 then throw .ilock
  else if t.valid i then pure ()
  else if (t.inodes i).type = .free then throw .ilockNoType
  else set (t.setValid i true)

/-- Drop a reference. The last one to an inode without links frees the inode, contents and
all. -/
def iput (i : Nat) : Op Unit := modify fun t =>
  let t :=
    if t.ref i = 1 ∧ t.valid i = true ∧ (t.inodes i).nlink = 0 then
      (t.setInode i { t.inodes i with type := .free, dirents := [] }).setValid i false
    else t
  t.setRef i (t.ref i - 1)

/-- `ip->nlink = n` and `iupdate(ip)`. -/
def setNlink (i : Nat) (n : Int) : Op Unit := modify fun t =>
  t.setInode i { t.inodes i with nlink := short n }

/-- `ip->nlink += d` and `iupdate(ip)`. -/
def addNlink (i : Nat) (d : Int) : Op Unit := modify fun t =>
  t.setInode i { t.inodes i with nlink := short ((t.inodes i).nlink + d) }

/-- Mark the first free inode as allocated and reference it. -/
def ialloc (type : InodeType) : Op (Option Nat) := do
  let t ← get
  match (List.range' 1 (ninodes - 1)).find? fun i => (t.inodes i).type = .free with
  | some i =>
    set (t.setInode i ⟨type, 0, []⟩)
    iget i
    pure (some i)
  | none => pure none

end Inodes

section Directories

/-- The first slot in use that has the name, with its index. -/
def findName (name : Name) (des : List Dirent) : Option (Nat × Nat) :=
  (des.findIdx? fun de => de.inum ≠ 0 ∧ de.name = name).map fun k =>
    (((des[k]?).map Dirent.inum).getD 0, k)

/-- Look up a name and reference its inode. Returns the inode number and the slot. -/
def dirlookup (dp : Nat) (name : Name) : Op (Option (Nat × Nat)) := do
  let t ← get
  if (t.inodes dp).type ≠ .dir then throw .dirlookupNotDir
  else
    match findName name (t.inodes dp).dirents with
    | some (i, off) =>
      iget i
      pure (some (i, off))
    | none => pure none

/-- Store a slot of the directory. -/
def setDirents (dp : Nat) (des : List Dirent) : Op Unit := modify fun t =>
  t.setInode dp { t.inodes dp with dirents := des }

/-- Write the entry to the first empty slot, or after the last one. Returns `false` if the name
is present, the directory has its largest size, or a new block is needed and refused. -/
def dirlink (dp : Nat) (name : Name) (inum : Nat) : Op Bool := do
  match ← dirlookup dp name with
  | some (i, _) =>
    iput i
    pure false
  | none =>
    let t ← get
    let des := (t.inodes dp).dirents
    match des.findIdx? fun de => de.inum = 0 with
    | some k =>
      setDirents dp (des.set k ⟨inum, name⟩)
      pure true
    | none =>
      if des.length = maxDirents then pure false
      else if des.length % (bsize / 16) = 0 then
        set { t with refusals := t.refusals.tail }
        if t.refusals.headD false then pure false
        else
          setDirents dp (des ++ [⟨inum, name⟩])
          pure true
      else
        setDirents dp (des ++ [⟨inum, name⟩])
        pure true

/-- Is the directory empty except for its first two slots? -/
def isdirempty (ip : Inode) : Bool := (ip.dirents.drop 2).all fun de => de.inum = 0

end Directories

section Paths

/-- The next path element, cut to `DIRSIZ` characters, and the path after it. -/
def skipelem (path : List Char) : Option (Name × List Char) :=
  match path.dropWhile (· = '/') with
  | [] => none
  | s => some ((s.takeWhile (· ≠ '/')).take dirsiz,
      (s.dropWhile (· ≠ '/')).dropWhile (· = '/'))

/-- The elements that repeated calls of `skipelem` return. -/
def elements (path : List Char) : List Name := go path.length path
where
  go : Nat → List Char → List Name
    | 0, _ => []
    | n + 1, path =>
      match skipelem path with
      | none => []
      | some (name, rest) => name :: go n rest

/-- The loop of `namex`, at inode `ip` with the given elements left. -/
def namexLoop (parent : Bool) : List Name → Name → Nat → Op (Option (Nat × Name))
  | [], name, ip => do
      if parent then
        iput ip
        pure none
      else pure (some (ip, name))
  | e :: es, _, ip => do
      ilock ip
      let t ← get
      if (t.inodes ip).type ≠ .dir then
        iput ip
        pure none
      else if parent && es.isEmpty then pure (some (ip, e))
      else
        match ← dirlookup ip e with
        | none =>
          iput ip
          pure none
        | some (next, _) =>
          iput ip
          namexLoop parent es e next

/-- Look up a path from the current directory `cwd`. Returns the referenced inode, or with
`parent` the inode of the parent directory and the last element. -/
def namex (cwd : Nat) (path : List Char) (parent : Bool) : Op (Option (Nat × Name)) := do
  if path.head? = some '/' then
    iget rootino
    namexLoop parent (elements path) [] rootino
  else
    idup cwd
    namexLoop parent (elements path) [] cwd

def namei (cwd : Nat) (path : List Char) : Op (Option Nat) := do
  match ← namex cwd path false with
  | some (ip, _) => pure (some ip)
  | none => pure none

def nameiparent (cwd : Nat) (path : List Char) : Op (Option (Nat × Name)) :=
  namex cwd path true

end Paths

section Links

/-- The part of `create` after the new inode has been allocated, up to the entry in the parent.
Returns whether everything could be written. -/
def createEntries (dp : Nat) (name : Name) (type : InodeType) (ip : Nat) : Op Bool := do
  if type = .dir then
    if ← dirlink ip dot ip then
      if ← dirlink ip dotdot dp then dirlink dp name ip else pure false
    else pure false
  else dirlink dp name ip

/-- The part of `create` after `ialloc`. -/
def createInode (dp : Nat) (name : Name) (type : InodeType) (ip : Nat) : Op (Option Nat) := do
  ilock ip
  setNlink ip 1
  if ← createEntries dp name type ip then
    if type = .dir then addNlink dp 1 else pure ()
    iput dp
    pure (some ip)
  else
    setNlink ip 0
    iput ip
    iput dp
    pure none

/-- Create an inode at the path, or find the file or device that is already there. Returns the
referenced inode. -/
def create (cwd : Nat) (path : List Char) (type : InodeType) : Op (Option Nat) := do
  match ← nameiparent cwd path with
  | none => pure none
  | some (dp, name) =>
    ilock dp
    match ← dirlookup dp name with
    | some (ip, _) =>
      iput dp
      ilock ip
      let t ← get
      match type, (t.inodes ip).type with
      | .file, .file => pure (some ip)
      | .file, .device _ _ => pure (some ip)
      | _, _ =>
        iput ip
        pure none
    | none =>
      match ← ialloc type with
      | none =>
        iput dp
        pure none
      | some ip => createInode dp name type ip

/-- `MAXPATH`: a longer path is refused by `argstr`. -/
def maxpath : Nat := 128

/-- Whether `argstr` accepts the path. -/
def argstr (path : List Char) : Bool := path.length < maxpath

/-- The failing end of `sys_link`. -/
def linkBad (ip : Nat) : Op Bool := do
  ilock ip
  addNlink ip (-1)
  iput ip
  pure false

/-- The part of `sys_link` after the link count has been raised. -/
def linkEntry (cwd : Nat) (new : List Char) (ip : Nat) : Op Bool := do
  match ← nameiparent cwd new with
  | none => linkBad ip
  | some (dp, name) =>
    ilock dp
    if ← dirlink dp name ip then
      iput dp
      iput ip
      pure true
    else
      iput dp
      linkBad ip

/-- `sys_link`; the result says whether it returned `0`. -/
def link (cwd : Nat) (old new : List Char) : Op Bool := do
  if argstr old && argstr new then
    match ← namei cwd old with
    | none => pure false
    | some ip =>
      ilock ip
      let t ← get
      if (t.inodes ip).type = .dir then
        iput ip
        pure false
      else
        addNlink ip 1
        linkEntry cwd new ip
  else pure false

/-- The part of `sys_unlink` that removes the entry at slot `off` of `dp`, which refers to `ip`.
The slot lies inside the directory, so writing it cannot fail. -/
def unlinkEntry (dp ip off : Nat) : Op Unit := do
  let t ← get
  setDirents dp ((t.inodes dp).dirents.set off ⟨0, []⟩)
  if (t.inodes ip).type = .dir then addNlink dp (-1) else pure ()
  iput dp
  addNlink ip (-1)
  iput ip

/-- `sys_unlink`; the result says whether it returned `0`. -/
def unlink (cwd : Nat) (path : List Char) : Op Bool := do
  if argstr path then
    match ← nameiparent cwd path with
    | none => pure false
    | some (dp, name) =>
      ilock dp
      if name = dot ∨ name = dotdot then
        iput dp
        pure false
      else
        match ← dirlookup dp name with
        | none =>
          iput dp
          pure false
        | some (ip, off) =>
          ilock ip
          let t ← get
          if (t.inodes ip).nlink < 1 then throw .unlinkNlink
          else if (t.inodes ip).type = .dir ∧ isdirempty (t.inodes ip) = false then
            iput ip
            iput dp
            pure false
          else
            unlinkEntry dp ip off
            pure true
  else pure false

end Links

end FogOS.Dir
