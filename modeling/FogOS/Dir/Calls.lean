import FogOS.Dir.Model

/-!
# Processes, open files and system calls

The system calls that create, remove or hold inodes, by any number of processes.
The state is the tree of inodes, the file table and, per process, its current
directory and open files.
-/

namespace FogOS.Dir

open Function Library List

/-- `NFILE`: open files per system. -/
def nfile : Nat := 100

/-- `NOFILE`: open files per process. -/
def nofile : Nat := 16

/-- `NPROC`. -/
def nproc : Nat := 64

/-- `NDEV`: the device numbers are below it. -/
def ndev : Nat := 10

/-- `struct file`: its reference count, and its inode unless the type is `FD_NONE`. -/
structure File where
  ref : Nat
  ip : Option Nat
  deriving DecidableEq

/-- The current directory and the descriptors of a process. -/
structure Proc where
  cwd : Nat
  ofile : Fin nofile → Option (Fin nfile)

/-- An unused process slot is `none`; so is the slot of a process that has exited. -/
structure Sys where
  tree : Tree
  files : Fin nfile → File
  procs : Fin nproc → Option Proc

/-- A system call, as an operation on the whole state. -/
abbrev SysOp : Type → Type := StateT Sys (Except DirPanic)

/-- The first process, whose exit is a panic. -/
def initproc : Fin nproc := ⟨0, by decide⟩

namespace Sys

/-- Run an operation of the directory layer. -/
def onTree {α : Type} (m : Op α) : SysOp α := fun s =>
  match m s.tree with
  | .ok (a, t) => .ok (a, { s with tree := t })
  | .error e => .error e

def setFile (f : Fin nfile) (x : File) : SysOp Unit := modify fun s =>
  { s with files := update s.files f x }

def setProc (p : Fin nproc) (x : Option Proc) : SysOp Unit := modify fun s =>
  { s with procs := update s.procs p x }

def filealloc : SysOp (Option (Fin nfile)) := do
  let s ← get
  match (List.finRange nfile).find? fun f => (s.files f).ref = 0 with
  | some f =>
    setFile f { s.files f with ref := 1 }
    pure (some f)
  | none => pure none

def filedup (f : Fin nfile) : SysOp Unit := do
  let s ← get
  if (s.files f).ref < 1 then throw .filedup
  else setFile f { s.files f with ref := (s.files f).ref + 1 }

def fileclose (f : Fin nfile) : SysOp Unit := do
  let s ← get
  if (s.files f).ref < 1 then throw .fileclose
  else if (s.files f).ref > 1 then
    setFile f { s.files f with ref := (s.files f).ref - 1 }
  else
    setFile f ⟨0, none⟩
    match (s.files f).ip with
    | some ip => onTree (iput ip)
    | none => pure ()

/-- Store a file in the first unused descriptor of the process. -/
def fdalloc (p : Fin nproc) (pr : Proc) (f : Fin nfile) : SysOp (Option (Fin nofile)) := do
  match (List.finRange nofile).find? fun fd => pr.ofile fd = none with
  | some fd =>
    setProc p (some { pr with ofile := update pr.ofile fd (some f) })
    pure (some fd)
  | none => pure none

/-- `O_WRONLY | O_RDWR | O_TRUNC` and so on are bits of the mode; `O_RDONLY` is `0`. -/
def oCreate : Nat := 0x200

/-- The end of `sys_open`, with the inode referenced. -/
def openInode (p : Fin nproc) (pr : Proc) (ip : Nat) : SysOp (Option (Fin nofile)) := do
  let s ← get
  let badDevice := match (s.tree.inodes ip).type with
    | .device major _ => decide (major < 0 ∨ major ≥ ndev)
    | _ => false
  if badDevice then
    onTree (iput ip)
    pure none
  else
    match ← filealloc with
    | none =>
      onTree (iput ip)
      pure none
    | some f =>
      match ← fdalloc p pr f with
      | none =>
        fileclose f
        onTree (iput ip)
        pure none
      | some fd =>
        setFile f ⟨1, some ip⟩
        pure (some fd)

def sysOpen (p : Fin nproc) (pr : Proc) (path : List Char) (omode : Nat) :
    SysOp (Option (Fin nofile)) := do
  if argstr path then
    if omode &&& oCreate ≠ 0 then
      match ← onTree (create pr.cwd path .file) with
      | none => pure none
      | some ip => openInode p pr ip
    else
      match ← onTree (namei pr.cwd path) with
      | none => pure none
      | some ip =>
        onTree (ilock ip)
        let s ← get
        if (s.tree.inodes ip).type = .dir ∧ omode ≠ 0 then
          onTree (iput ip)
          pure none
        else openInode p pr ip
  else pure none

/-- `sys_mkdir` and `sys_mknod`: create the inode and drop the reference. -/
def sysMake (pr : Proc) (path : List Char) (type : InodeType) : SysOp Unit := do
  if argstr path then
    match ← onTree (create pr.cwd path type) with
    | none => pure ()
    | some ip => onTree (iput ip)
  else pure ()

def sysChdir (p : Fin nproc) (pr : Proc) (path : List Char) : SysOp Unit := do
  if argstr path then
    match ← onTree (namei pr.cwd path) with
    | none => pure ()
    | some ip =>
      onTree (ilock ip)
      let s ← get
      if (s.tree.inodes ip).type ≠ .dir then onTree (iput ip)
      else
        onTree (iput pr.cwd)
        setProc p (some { pr with cwd := ip })
  else pure ()

def sysClose (p : Fin nproc) (pr : Proc) (fd : Fin nofile) : SysOp Unit := do
  match pr.ofile fd with
  | none => pure ()
  | some f =>
    setProc p (some { pr with ofile := update pr.ofile fd none })
    fileclose f

/-- The loop of `exit` over the given descriptors. Returns the process as it is afterwards. -/
def closeAll (p : Fin nproc) : List (Fin nofile) → Proc → SysOp Proc
  | [], pr => pure pr
  | fd :: fds, pr =>
    match pr.ofile fd with
    | none => closeAll p fds pr
    | some f => do
        fileclose f
        setProc p (some { pr with ofile := update pr.ofile fd none })
        closeAll p fds { pr with ofile := update pr.ofile fd none }

def exit (p : Fin nproc) (pr : Proc) : SysOp Unit := do
  if p = initproc then throw .initExiting
  else
    let pr ← closeAll p (List.finRange nofile) pr
    onTree (iput pr.cwd)
    setProc p none

/-- The loop of `fork` over the given descriptors: the child shares the parent's open files. -/
def shareAll (pr : Proc) : List (Fin nofile) → Proc → SysOp Proc
  | [], child => pure child
  | fd :: fds, child =>
    match pr.ofile fd with
    | none => shareAll pr fds child
    | some f => do
        filedup f
        shareAll pr fds { child with ofile := update child.ofile fd (some f) }

/-- `fork`, once the child has its memory; without a free process slot it does nothing. -/
def fork (pr : Proc) : SysOp Unit := do
  let s ← get
  match (List.finRange nproc).find? fun np => (s.procs np).isNone with
  | none => pure ()
  | some np =>
    let child ← shareAll pr (List.finRange nofile) ⟨pr.cwd, fun _ => none⟩
    onTree (idup pr.cwd)
    setProc np (some child)

end Sys

/-- The system calls, with their arguments. -/
inductive Call
  | open (path : List Char) (omode : Nat)
  | mkdir (path : List Char)
  | mknod (path : List Char) (major minor : Int)
  | link (old new : List Char)
  | unlink (path : List Char)
  | chdir (path : List Char)
  | close (fd : Fin nofile)
  | exit
  | fork

/-- The call of an existing process. -/
def Sys.call (p : Fin nproc) (pr : Proc) : Call → SysOp Unit
  | .open path omode => do
      let _ ← Sys.sysOpen p pr path omode
  | .mkdir path => Sys.sysMake pr path .dir
  | .mknod path major minor => Sys.sysMake pr path (.device (short major) (short minor))
  | .link old new => do
      let _ ← Sys.onTree (link pr.cwd old new)
  | .unlink path => do
      let _ ← Sys.onTree (unlink pr.cwd path)
  | .chdir path => Sys.sysChdir p pr path
  | .close fd => Sys.sysClose p pr fd
  | .exit => Sys.exit p pr
  | .fork => Sys.fork pr

/-- One call by one process; a slot without a process does nothing. -/
def Sys.step (s : Sys) : Fin nproc × Call → Except DirPanic Sys
  | (p, c) =>
    match s.procs p with
    | none => .ok s
    | some pr =>
      match Sys.call p pr c s with
      | .ok (_, s') => .ok s'
      | .error e => .error e

section Image

/-- What `mkfs` is given: the names of the files, none of which is `.` or `..`. -/
structure Image where
  names : List Name
  names_ok : ∀ n, n ∈ names → n.take dirsiz ≠ dot ∧ n.take dirsiz ≠ dotdot
  fits : names.length + 2 ≤ ninodes

/-- The root directory that `mkfs` builds: its entries, and empty slots up to the end of a
block. -/
def Image.rootDirents (im : Image) : List Dirent :=
  let des := ⟨rootino, dot⟩ :: ⟨rootino, dotdot⟩ ::
    im.names.zipIdx.map fun (n, k) => ⟨rootino + 1 + k, n.take dirsiz⟩
  let perBlock := bsize / 16
  des ++ List.replicate ((des.length / perBlock + 1) * perBlock - des.length) ⟨0, []⟩

/-- The inodes that `mkfs` builds. -/
def Image.inodes (im : Image) (i : Nat) : Inode :=
  if i = rootino then ⟨.dir, 1, im.rootDirents⟩
  else if rootino < i ∧ i < rootino + 1 + im.names.length then ⟨.file, 1, []⟩
  else Inode.zero

/-- The state when the first process runs: `userinit` has set its current directory. -/
def Image.boot (im : Image) (refusals : List Bool) : Sys where
  tree :=
    { inodes := im.inodes
      ref := update (fun _ => 0) rootino 1
      valid := fun _ => false
      refusals := refusals }
  files _ := ⟨0, none⟩
  procs := update (fun _ => none) initproc (some ⟨rootino, fun _ => none⟩)

end Image

end FogOS.Dir
