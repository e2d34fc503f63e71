import FogOS.Refs.Model

/-!
# The system calls

The calls of `sysfile.c`, `fork`, `exit` and `exec` as sequences of operations. What they read from
user memory, from directories and from inodes decides between their branches only, so it is left to
`choose` and `dirent`. A path is known by its start and its number of elements.
-/

namespace FogOS.Refs

open Library Dialogue

structure Path where
  absolute : Bool
  elements : Nat

abbrev choose : Call Bool := perform Op.choose

abbrev notInit : Call Unit := perform Op.notInit

abbrev ofile (fd : Fd) : Call (Option FileSlot) := perform (Op.ofile fd)

/-- `p->ofile[fd]` in `exit`, which closes the file before it clears the descriptor. -/
abbrev takeFd (fd : Fd) : Call (Option FileSlot) := perform (Op.takeFd fd)

/-- `p->ofile[fd] = 0`. -/
abbrev clearFd (fd : Fd) : Call Unit := perform (Op.clearFd fd)

abbrev fdalloc (f : FileSlot) : Call (Option Fd) := perform (Op.fdalloc f)

abbrev filealloc : Call (Option FileSlot) := perform Op.filealloc

abbrev filedup (f : FileSlot) : Call Unit := perform (Op.filedup f)

/-- The critical section of `fileclose`; it returns `ff` with the last reference. -/
abbrev closeFile (f : FileSlot) : Call (Option File) := perform (Op.fileclose f)

abbrev kalloc : Call (Option Nat) := perform Op.kalloc

abbrev pipeclose (pi : Nat) (writable : Bool) : Call Unit := perform (Op.pipeclose pi writable)

abbrev cwd : Call (Option InodeSlot) := perform Op.cwd

/-- `p->cwd` in `exit` and `sys_chdir`, which put the inode before they change `cwd`. -/
abbrev takeCwd : Call (Option InodeSlot) := perform Op.takeCwd

/-- `p->cwd = k`. -/
abbrev setCwd (k : Option InodeSlot) : Call Unit := perform (Op.setCwd k)

abbrev dirent (dp : InodeSlot) : Call (Option (Nat × Nat)) := perform (Op.dirent dp)

abbrev iget (dev inum : Nat) : Call InodeSlot := perform (Op.iget dev inum)

/-- `ref--`. -/
abbrev put (k : InodeSlot) : Call Unit := perform (Op.put k)

/-- `ilock`, `iunlock`, `readi`, `writei`, `iupdate` or `itrunc`. -/
abbrev use (k : InodeSlot) : Call Unit := perform (Op.use k)

/-- `fileread`, `filewrite` or `filestat`. -/
abbrev useFile (f : FileSlot) : Call Unit := perform (Op.useFile f)

abbrev allocproc : Call (Option ProcSlot) := perform Op.allocproc

abbrev freeproc (np : ProcSlot) : Call Unit := perform (Op.freeproc np)

/-- `np->ofile[fd] = f`. -/
abbrev childFd (np : ProcSlot) (fd : Fd) (f : FileSlot) : Call Unit :=
  perform (Op.childFd np fd f)

/-- `np->cwd = k`. -/
abbrev childCwd (np : ProcSlot) (k : InodeSlot) : Call Unit := perform (Op.childCwd np k)

/-- `np->state = RUNNABLE`. -/
abbrev setRunnable (np : ProcSlot) : Call Unit := perform (Op.setRunnable np)

/-- `p->state = ZOMBIE` and `sched`, which does not return. -/
abbrev zombie : Call Unit := perform Op.zombie

/-- `freeproc` of a child that has exited, in `wait`. -/
abbrev reap : Call Unit := perform Op.reap

/-- `iput`; its branch that frees the inode works on the inode before the reference goes. -/
def iput (k : InodeSlot) : Call Unit := do
  if ← choose then
    use k
    put k
  else
    put k

def iunlockput (k : InodeSlot) : Call Unit := do
  use k
  iput k

def idup (k : InodeSlot) : Call InodeSlot := do
  perform (Op.idup k)
  return k

def dirlookup (dp : InodeSlot) : Call (Option InodeSlot) := do
  match ← dirent dp with
  | some (dev, inum) =>
    let ip ← iget dev inum
    return some ip
  | none => return none

/-- `ialloc(dp->dev, type)`. -/
def ialloc (dp : InodeSlot) : Call (Option InodeSlot) := dirlookup dp

/-- Returns whether the entry was written. -/
def dirlink (dp : InodeSlot) : Call Bool := do
  match ← dirlookup dp with
  | some ip =>
    iput ip
    return false
  | none =>
    use dp
    choose

/-- The loop of `namex` with `n` elements left. -/
def namexLoop (nameiparent : Bool) : Nat → InodeSlot → Call (Option InodeSlot)
  | 0, ip =>
    if nameiparent then do
      iput ip
      return none
    else return some ip
  | n + 1, ip => do
      use ip
      if ← choose then
        -- `ip->type != T_DIR`
        iunlockput ip
        return none
      else if nameiparent && n == 0 then
        use ip
        return some ip
      else
        match ← dirlookup ip with
        | none =>
          iunlockput ip
          return none
        | some next =>
          iunlockput ip
          namexLoop nameiparent n next

/-- `ROOTDEV` and `ROOTINO`. -/
def rootdev : Nat := 1
def rootino : Nat := 1

def namex (path : Path) (nameiparent : Bool) : Call (Option InodeSlot) := do
  if path.absolute then
    let ip ← iget rootdev rootino
    namexLoop nameiparent path.elements ip
  else
    match ← cwd with
    | some cwd =>
      let ip ← idup cwd
      namexLoop nameiparent path.elements ip
    | none => return none

def namei (path : Path) : Call (Option InodeSlot) := namex path false

def nameiparent (path : Path) : Call (Option InodeSlot) := namex path true

/-- The end of `create` when an entry cannot be written. -/
def createFail (ip dp : InodeSlot) : Call (Option InodeSlot) := do
  use ip
  iunlockput ip
  iunlockput dp
  return none

/-- The end of `create` from `dirlink(dp, name, ip->inum)` on. -/
def createLink (dp ip : InodeSlot) : Call (Option InodeSlot) := do
  if ← dirlink dp then
    use dp
    iunlockput dp
    return some ip
  else createFail ip dp

def create (path : Path) (file dir : Bool) : Call (Option InodeSlot) := do
  match ← nameiparent path with
  | none => return none
  | some dp =>
    use dp
    match ← dirlookup dp with
    | some ip =>
      iunlockput dp
      use ip
      if file && (← choose) then return some ip
      else
        iunlockput ip
        return none
    | none =>
      match ← ialloc dp with
      | none =>
        iunlockput dp
        return none
      | some ip =>
        use ip
        if dir then
          if ← dirlink ip then
            if ← dirlink ip then createLink dp ip else createFail ip dp
          else createFail ip dp
        else createLink dp ip

/-- `fileclose` after its critical section has returned the last reference's `struct file`. -/
def closed (ff : File) : Call Unit :=
  match ff.contents with
  | .none => return ()
  | .pipe pi writable => pipeclose pi writable
  | .inode ip => iput ip

def fileclose (f : FileSlot) : Call Unit := do
  match ← closeFile f with
  | some ff => closed ff
  | none => return ()

/-- `argfd`. -/
def argfd (n : Int) : Call (Option (Fd × FileSlot)) := do
  if h : 0 ≤ n ∧ n < nofile then
    let fd : Fd := ⟨n.toNat, (Int.toNat_lt h.1).2 h.2⟩
    match ← ofile fd with
    | some f => return some (fd, f)
    | none => return none
  else return none

def sysDup (n : Int) : Call Int := do
  match ← argfd n with
  | none => return -1
  | some (_, f) =>
    match ← fdalloc f with
    | none => return -1
    | some fd =>
      filedup f
      return fd.val

/-- `sys_read`, `sys_write` and `sys_fstat`. -/
def sysUse (n : Int) : Call Int := do
  match ← argfd n with
  | none => return -1
  | some (_, f) =>
    useFile f
    return if ← choose then 0 else -1

def sysClose (n : Int) : Call Int := do
  match ← argfd n with
  | none => return -1
  | some (fd, f) =>
    clearFd fd
    fileclose f
    return 0

/-- The end of `sys_link` that takes the link count back. -/
def linkBad (ip : InodeSlot) : Call Int := do
  use ip
  iunlockput ip
  return -1

def sysLink (old new : Path) : Call Int := do
  match ← namei old with
  | none => return -1
  | some ip =>
    use ip
    if ← choose then
      -- `ip->type == T_DIR`
      iunlockput ip
      return -1
    else
      use ip
      match ← nameiparent new with
      | none => linkBad ip
      | some dp =>
        use dp
        -- `dp->dev != ip->dev`
        if ← choose then
          iunlockput dp
          linkBad ip
        else if ← dirlink dp then
          iunlockput dp
          iput ip
          return 0
        else
          iunlockput dp
          linkBad ip

def sysUnlink (path : Path) : Call Int := do
  match ← nameiparent path with
  | none => return -1
  | some dp =>
    use dp
    -- the name is `.` or `..`
    if ← choose then
      iunlockput dp
      return -1
    else
      match ← dirlookup dp with
      | none =>
        iunlockput dp
        return -1
      | some ip =>
        use ip
        -- a directory that is not empty
        if ← choose then
          iunlockput ip
          iunlockput dp
          return -1
        else
          use dp
          iunlockput dp
          use ip
          iunlockput ip
          return 0

/-- `O_WRONLY`, `O_RDWR`, `O_CREATE` and `O_TRUNC`. -/
def oWronly : Nat := 0x001
def oRdwr : Nat := 0x002
def oCreate : Nat := 0x200
def oTrunc : Nat := 0x400

/-- `sys_open` from `filealloc` on, with the inode locked. -/
def openFile (omode : Nat) (ip : InodeSlot) : Call Int := do
  match ← filealloc with
  | none =>
    iunlockput ip
    return -1
  | some f =>
    match ← fdalloc f with
    | none =>
      fileclose f
      iunlockput ip
      return -1
    | some fd =>
      let device ← choose
      perform (Op.setInode f device ip (omode &&& oWronly == 0)
        (omode &&& oWronly != 0 || omode &&& oRdwr != 0))
      if omode &&& oTrunc != 0 && (← choose) then
        use ip
        use ip
        return fd.val
      else
        use ip
        return fd.val

/-- `sys_open` from the test of the device number on. -/
def openInode (omode : Nat) (ip : InodeSlot) : Call Int := do
  if ← choose then
    iunlockput ip
    return -1
  else openFile omode ip

def sysOpen (path : Path) (omode : Nat) : Call Int := do
  if omode &&& oCreate != 0 then
    match ← create path true false with
    | none => return -1
    | some ip => openInode omode ip
  else
    match ← namei path with
    | none => return -1
    | some ip =>
      use ip
      -- `ip->type == T_DIR && omode != O_RDONLY`
      if omode != 0 && (← choose) then
        iunlockput ip
        return -1
      else openInode omode ip

/-- `sys_mkdir`, and `sys_mknod` for `dir` false. -/
def sysMake (path : Path) (dir : Bool) : Call Int := do
  match ← create path false dir with
  | none => return -1
  | some ip =>
    iunlockput ip
    return 0

def sysMkdir (path : Path) : Call Int := sysMake path true

def sysMknod (path : Path) : Call Int := sysMake path false

def sysChdir (path : Path) : Call Int := do
  match ← namei path with
  | none => return -1
  | some ip =>
    use ip
    if ← choose then
      -- `ip->type != T_DIR`
      iunlockput ip
      return -1
    else
      use ip
      match ← takeCwd with
      | some cwd =>
        iput cwd
        setCwd (some ip)
        return 0
      | none => return -1

/-- `exec`. The file named by a path is a script, whose interpreter is the next path, unless the
list ends with it. -/
def exec : Path → List Path → Call Int
  | path, interpreters => do
      match ← namei path with
      | none => return -1
      | some ip =>
        use ip
        match interpreters with
        | interpreter :: rest =>
          iunlockput ip
          exec interpreter rest
        | [] =>
          if ← choose then
            -- `bad` before the last use of the inode
            iunlockput ip
            return -1
          else
            iunlockput ip
            return if ← choose then 0 else -1

def sysExec (path : Path) (interpreters : List Path) : Call Int := exec path interpreters

/-- The end of `pipealloc` at `bad`; there is no pipe then. -/
def pipeBad (f0 f1 : Option FileSlot) : Call (Option (FileSlot × FileSlot)) := do
  match f0 with
  | some f0 =>
    fileclose f0
    match f1 with
    | some f1 =>
      fileclose f1
      return none
    | none => return none
  | none => return none

def pipealloc : Call (Option (FileSlot × FileSlot)) := do
  match ← filealloc with
  | none => pipeBad none none
  | some f0 =>
    match ← filealloc with
    | none => pipeBad (some f0) none
    | some f1 =>
      match ← kalloc with
      | none => pipeBad (some f0) (some f1)
      | some pi =>
        perform (Op.setPipe f0 f1 pi)
        return some (f0, f1)

def closeBoth (rf wf : FileSlot) : Call Int := do
  fileclose rf
  fileclose wf
  return -1

def sysPipe : Call Int := do
  match ← pipealloc with
  | none => return -1
  | some (rf, wf) =>
    match ← fdalloc rf with
    | none => closeBoth rf wf
    | some fd0 =>
      match ← fdalloc wf with
      | none =>
        clearFd fd0
        closeBoth rf wf
      | some fd1 =>
        if ← choose then return 0
        else
          -- `copyout` fails
          clearFd fd0
          clearFd fd1
          closeBoth rf wf

/-- The loop of `fork` over the descriptors. -/
def forkFiles (np : ProcSlot) : List Fd → Call Unit
  | [] => return ()
  | fd :: fds => do
      match ← ofile fd with
      | some f =>
        filedup f
        childFd np fd f
        forkFiles np fds
      | none => forkFiles np fds

def fork : Call Int := do
  match ← allocproc with
  | none => return -1
  | some np =>
    if ← choose then
      -- `uvmcopy` fails
      freeproc np
      return -1
    else
      forkFiles np (List.finRange nofile)
      match ← cwd with
      | some cwd =>
        let k ← idup cwd
        childCwd np k
        setRunnable np
        return np.val
      | none => return -1

/-- The loop of `exit` over the descriptors. -/
def exitFiles : List Fd → Call Unit
  | [] => return ()
  | fd :: fds => do
      match ← takeFd fd with
      | some f =>
        fileclose f
        clearFd fd
        exitFiles fds
      | none => exitFiles fds

def exit : Call Int := do
  notInit
  exitFiles (List.finRange nofile)
  match ← takeCwd with
  | some cwd =>
    iput cwd
    setCwd none
    zombie
    return 0
  | none => return -1

/-- `wait` finds a child that has exited, or returns -1. -/
def wait : Call Int := do
  if ← choose then
    reap
    return 1
  else return -1

inductive Syscall
  | dup (n : Int)
  | read (n : Int)
  | write (n : Int)
  | fstat (n : Int)
  | close (n : Int)
  | link (old new : Path)
  | unlink (path : Path)
  | open (path : Path) (omode : Nat)
  | mkdir (path : Path)
  | mknod (path : Path)
  | chdir (path : Path)
  | exec (path : Path) (interpreters : List Path)
  | pipe
  | fork
  | exit
  | wait

namespace Syscall

def body : Syscall → Call Int
  | dup n => sysDup n
  | read n => sysUse n
  | write n => sysUse n
  | fstat n => sysUse n
  | close n => sysClose n
  | link old new => sysLink old new
  | unlink path => sysUnlink path
  | «open» path omode => sysOpen path omode
  | mkdir path => sysMkdir path
  | mknod path => sysMknod path
  | chdir path => sysChdir path
  | exec path interpreters => sysExec path interpreters
  | pipe => sysPipe
  | fork => Refs.fork
  | exit => Refs.exit
  | wait => Refs.wait

def kind : Syscall → Kind
  | dup _ => .dup
  | exit => .exit
  | chdir _ => .chdir
  | _ => .other

end Syscall

inductive Act
  | call (p : ProcSlot) (c : Syscall)
  | go (p : ProcSlot) (c : Choice)

/-- A process makes a system call, or its call goes on with one operation. -/
def step (s : State) : Act → Except Stop State
  | .call p c =>
    if (s.procs p).state = .runnable then
      match s.thread p with
      | .ret _ => .ok ((s.setRecord p
          { s.records p with known := fun _ => none, kind := c.kind }).setThread p c.body)
      | .act _ _ => .error .wait
    else .error .wait
  | .go p c =>
    if (s.procs p).state = .runnable then
      match s.thread p with
      | .ret _ => .error .wait
      | .act o k =>
        match s.exec p c o with
        | .ok (s', r) => .ok ((s'.setRecord p ((s.view p).record' o r)).setThread p (k r))
        | .error e => .error e
    else .error .wait

/-- After `userinit`: one process, whose `cwd` is the root directory. -/
def boot : State where
  files _ := ⟨0, .none, false, false, 0, ⟨0, by decide⟩⟩
  inodes k := if k.val = 0 then ⟨rootdev, rootino, 1⟩ else ⟨0, 0, 0⟩
  pipes _ := ⟨false, false, false⟩
  procs p := if p = initproc then ⟨.runnable, fun _ => none, some ⟨0, by decide⟩⟩ else .zero
  records _ := .empty
  thread _ := .ret 0

end FogOS.Refs
