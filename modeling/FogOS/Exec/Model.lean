import FogOS.Fs.Content
import FogOS.Library.CString
import FogOS.Vm.Memory

/-!
# `exec`

`exec.c`: the files that start with `#!`, the loader of ELF files and the arguments on the user
stack. A call of `exec` on an interpreter is a call on the kernel stack; `frames` are the frames
that there is room for, with what the stack holds where the locals of each call will be. The
system of files stays as it is during a call.
-/

namespace FogOS.Exec

open Library Vm

def maxarg : Nat := 32

def maxpath : Nat := 128

/-- The contents of an inode; `ip->size` is a `uint`. -/
structure File where
  bytes : List UInt8
  small : bytes.length < 2 ^ 32

/-- What `readi` copies to a kernel buffer. -/
def readi (ip : File) (off n : UInt32) : List UInt8 :=
  if ip.bytes.length < off.toNat ∨ off + n < off then [] else (ip.bytes.drop off.toNat).take n.toNat

section Elf

/-- The fields of `struct elfhdr` that `exec` uses. -/
structure Elfhdr where
  magic : Nat
  entry : Nat
  phoff : Nat
  phnum : Nat

def Elfhdr.ofBytes (b : Bytes) : Elfhdr := ⟨b.getLE 0 4, b.getLE 24 8, b.getLE 32 8, b.getLE 56 2⟩

/-- `sizeof(struct elfhdr)`. -/
def elfhdrSize : Nat := 64

def elfMagic : Nat := 0x464C457F

/-- The fields of `struct proghdr` that `exec` uses. -/
structure Proghdr where
  type : Nat
  flags : Nat
  off : Nat
  vaddr : Nat
  filesz : Nat
  memsz : Nat

def Proghdr.ofBytes (b : Bytes) : Proghdr :=
  ⟨b.getLE 0 4, b.getLE 4 4, b.getLE 8 8, b.getLE 16 8, b.getLE 32 8, b.getLE 40 8⟩

/-- `sizeof(struct proghdr)`. -/
def proghdrSize : Nat := 56

def elfProgLoad : Nat := 1

def flags2perm (flags : Nat) : Nat :=
  let perm := if flags &&& 1 ≠ 0 then pteX else 0
  if flags &&& 2 ≠ 0 then perm ||| pteW else perm

end Elf

section Load

/-- The loop of `loadseg` over the pages from `i` on. There are not enough pages for `i` to
wrap. -/
def loadsegLoop (pagetable va : Nat) (ip : File) (offset : UInt32) (sz : Nat) : Nat → Nat → Op Int
  | 0, _ => pure 0
  | rounds + 1, i => do
      let pa ← walkaddr pagetable (word (va + i))
      if pa = 0 then throw .loadseg
      else do
        let n := if sz - i < pgsize then sz - i else pgsize
        let bytes := readi ip (offset + UInt32.ofNat i) (UInt32.ofNat n)
        memcpy pa bytes.length (Bytes.ofList bytes)
        if bytes.length ≠ n then pure (-1)
        else loadsegLoop pagetable va ip offset sz rounds (i + pgsize)

def loadseg (pagetable va : Nat) (ip : File) (offset sz : UInt32) : Op Int :=
  loadsegLoop pagetable va ip offset sz.toNat ((sz.toNat + (pgsize - 1)) / pgsize) 0

/-- The loop over the program headers. `off` is an `int` and becomes the `uint` that `readi` takes.
Returns `false` for `goto bad`, and `sz`. -/
def loadSegments (pagetable : Nat) (ip : File) : Nat → UInt32 → Nat → Op (Bool × Nat)
  | 0, _, sz => pure (true, sz)
  | i + 1, off, sz =>
    let bytes := readi ip off (UInt32.ofNat proghdrSize)
    let ph := Proghdr.ofBytes (Bytes.ofList bytes)
    if bytes.length ≠ proghdrSize then pure (false, sz)
    else if ph.type ≠ elfProgLoad then
      loadSegments pagetable ip i (off + UInt32.ofNat proghdrSize) sz
    else if ph.memsz < ph.filesz ∨ word (ph.vaddr + ph.memsz) < ph.vaddr ∨
        ph.vaddr % pgsize ≠ 0 then pure (false, sz)
    else do
      let sz1 ← uvmalloc pagetable sz (word (ph.vaddr + ph.memsz)) (flags2perm ph.flags)
      if sz1 = 0 then pure (false, sz)
      else do
        let r ← loadseg pagetable ph.vaddr ip (UInt32.ofNat ph.off) (UInt32.ofNat ph.filesz)
        if r < 0 then pure (false, sz1)
        else loadSegments pagetable ip i (off + UInt32.ofNat proghdrSize) sz1

end Load

section Stack

/-- `sp -= n; sp -= sp % 16`. -/
def lower (sp n : Nat) : Nat :=
  let sp := word (sp + (2 ^ 64 - n % 2 ^ 64))
  sp - sp % 16

/-- The loop that pushes the strings of `argv`, each given without its null byte. Returns `ustack`
and `sp`, or nothing for `goto bad`. -/
def pushStrings (pagetable stackbase : Nat) :
    List (List UInt8) → List Nat → Nat → Op (Option (List Nat × Nat))
  | [], ustack, sp => pure (some (ustack, sp))
  | arg :: argv, ustack, sp =>
    if maxarg ≤ ustack.length then pure none
    else
      let sp := lower sp (arg.length + 1)
      if sp < stackbase then pure none
      else do
        let r ← copyout pagetable sp (Bytes.ofList arg) (arg.length + 1)
        if r < 0 then pure none else pushStrings pagetable stackbase argv (ustack ++ [sp]) sp

/-- The bytes of an array of `uint64`. -/
def words (ws : List Nat) : Bytes := fun i => UInt8.ofNat (ws.getD (i / 8) 0 / 256 ^ (i % 8))

/-- The strings and the array of pointers. Returns `argc` and `sp`. -/
def pushArgs (pagetable stackbase : Nat) (argv : List (List UInt8)) (sp : Nat) :
    Op (Option (Nat × Nat)) := do
  let pushed ← pushStrings pagetable stackbase argv [] sp
  match pushed with
  | none => pure none
  | some (ustack, sp) =>
    -- `ustack[argc] = 0`
    if maxarg ≤ ustack.length then throw .ustackOutside
    else
      let sp := lower sp ((ustack.length + 1) * 8)
      if sp < stackbase then pure none
      else do
        let r ← copyout pagetable sp (words (ustack ++ [0])) ((ustack.length + 1) * 8)
        if r < 0 then pure none else pure (some (ustack.length, sp))

end Stack

/-- What a successful `exec` gives to the process: `p->pagetable`, `p->sz`, the program counter,
`a1`, which is also the stack pointer, and the result `argc`. -/
structure Image where
  pagetable : Nat
  sz : Nat
  epc : Nat
  sp : Nat
  argc : Nat

/-- The process that calls `exec`. -/
structure Proc where
  pagetable : Nat
  sz : Nat
  trapframe : Nat

/-- The label `bad` with a page table. -/
def giveUp (pagetable sz : Nat) : Op (Option Image) := do
  procFreepagetable pagetable sz
  pure none

/-- From the loop over the program headers to the commit. -/
def fillTable (pagetable : Nat) (ip : File) (elf : Elfhdr) (argv : List (List UInt8)) :
    Op (Option Image) := do
  let (good, sz) ← loadSegments pagetable ip elf.phnum (UInt32.ofNat elf.phoff) 0
  if good = false then giveUp pagetable sz
  else do
    let sz := pgroundup sz
    let sz1 ← uvmalloc pagetable sz (word (sz + 2 * pgsize)) pteW
    if sz1 = 0 then giveUp pagetable sz
    else do
      uvmclear pagetable (sz1 - 2 * pgsize)
      let args ← pushArgs pagetable (sz1 - pgsize) argv sz1
      match args with
      | none => giveUp pagetable sz1
      | some (argc, sp) => pure (some ⟨pagetable, sz1, elf.entry, sp, argc⟩)

/-- `exec` up to the commit, for a file that is not a script. -/
def buildImage (trapframe : Nat) (ip : File) (argv : List (List UInt8)) : Op (Option Image) :=
  let bytes := readi ip 0 (UInt32.ofNat elfhdrSize)
  let elf := Elfhdr.ofBytes (Bytes.ofList bytes)
  if bytes.length ≠ elfhdrSize then pure none
  else if elf.magic ≠ elfMagic then pure none
  else do
    let pagetable ← procPagetable trapframe
    if pagetable = 0 then pure none else fillTable pagetable ip elf argv

/-- `exec` of a file that is not a script; nothing stands for the result -1. -/
def execElf (p : Proc) (ip : File) (argv : List (List UInt8)) : Op (Option Image) := do
  let image ← buildImage p.trapframe ip argv
  match image with
  | none => pure none
  | some image => do
      procFreepagetable p.pagetable p.sz
      pure (some image)

section Script

/-- What the stack holds where `shebang` and `interpreter` of a call of `exec` will be. -/
structure Frame where
  shebang : Bytes
  interpreter : Bytes

/-- `readi` of `n` bytes at `off` into a local array. -/
def readInto (buf : Bytes) (ip : File) (off n : UInt32) : Bytes :=
  buf.blit 0 (readi ip off n).length (Bytes.ofList (readi ip off n))

/-- `shebang[0] == '#' && shebang[1] == '!'`. -/
def isScript (frame : Frame) (ip : File) : Bool :=
  let shebang := readInto frame.shebang ip 0 2
  shebang 0 == '#'.toUInt8 && shebang 1 == '!'.toUInt8

/-- The loop that ends the path at a newline or a space, over the `n` bytes from `i` on. -/
def endPath (buf : Bytes) : Nat → Nat → Bytes
  | 0, _ => buf
  | n + 1, i =>
    if buf i = '\n'.toUInt8 ∨ buf i = ' '.toUInt8 then Function.update buf i 0
    else endPath buf n (i + 1)

/-- The array `interpreter` when `exec` is called again. -/
def interpreter (frame : Frame) (ip : File) : Bytes :=
  let n := UInt32.ofNat maxpath
  endPath (readInto frame.interpreter ip 2 n) (min maxpath (readi ip 2 n).length) 0

/-- The files by their paths. -/
abbrev Files : Type := List UInt8 → Option File

/-- `exec`. The search for the end of a path that has no null byte leaves the array. -/
def exec (files : Files) (p : Proc) :
    List Frame → List UInt8 → List (List UInt8) → Op (Option Image)
  | [], _, _ => throw .kernelStack
  | frame :: frames, path, argv =>
    match files path with
    | none => pure none
    | some ip =>
      if isScript frame ip = true then
        match strlenLoop (interpreter frame ip) maxpath 0 with
        | none => throw .strlenOutside
        | some n =>
          let path := (List.range n).map (interpreter frame ip)
          exec files p frames path (path :: argv.head?.toList)
      else execElf p ip argv

end Script

end FogOS.Exec
