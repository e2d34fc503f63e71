import FogOS.Library.Pages
import FogOS.Library.Wp

/-!
# Physical pages and page tables

The allocator of `kalloc.c` and the page tables of `vm.c`, over the bytes of
physical memory. A pointer is its address, and the null pointer is `0`. A
`pte_t *` is the address of an entry of eight bytes.
-/

namespace FogOS.Vm

open Function Library

def pgsize : Nat := 4096

def kernbase : Nat := 0x80000000

theorem kernbase_aligned : kernbase % pgsize = 0 := by decide

def phystop : Nat := kernbase + 128 * 1024 * 1024

/-- `MAXVA`: one beyond the highest virtual address. -/
def maxva : Nat := 2 ^ (9 + 9 + 9 + 12 - 1)

/-- `TRAMPOLINE`: the highest page of every address space. -/
def trampolineVa : Nat := maxva - pgsize

/-- `TRAPFRAME`. -/
def trapframeVa : Nat := trampolineVa - pgsize

/-- The value of a `uint64` after an assignment. -/
def word (n : Nat) : Nat := n % 2 ^ 64

/-- The value of an `int` after an assignment, converted to `uint64`. -/
def intToWord (n : Nat) : Nat :=
  if n % 2 ^ 32 < 2 ^ 31 then n % 2 ^ 32 else n % 2 ^ 32 + (2 ^ 64 - 2 ^ 32)

/-- `PGROUNDUP`: clearing the low bits of a word is dividing and multiplying. -/
def pgroundup (sz : Nat) : Nat := word (sz + (pgsize - 1)) / pgsize * pgsize

def pgrounddown (a : Nat) : Nat := a / pgsize * pgsize

section Pte

def pteV : Nat := 1 <<< 0

def pteR : Nat := 1 <<< 1

def pteW : Nat := 1 <<< 2

def pteX : Nat := 1 <<< 3

def pteU : Nat := 1 <<< 4

def pa2pte (pa : Nat) : Nat := (pa >>> 12) <<< 10

def pte2pa (pte : Nat) : Nat := word ((pte >>> 10) <<< 12)

def pteFlags (pte : Nat) : Nat := pte &&& 0x3FF

/-- `PX`: the nine index bits of `va` at a level. -/
def px (level va : Nat) : Nat := (va >>> (12 + 9 * level)) &&& 0x1FF

end Pte

/-- The symbols that the linker script defines: `end`, the first address after the kernel,
and the page of the trampoline code inside the kernel. -/
structure Link where
  kend : Nat
  trampoline : Nat
  trampoline_aligned : trampoline % pgsize = 0
  trampoline_pos : kernbase ≤ trampoline
  trampoline_lt : trampoline < kend
  kend_le : kend ≤ phystop

/-- Physical memory, `kmem.freelist`, and the calls of `kalloc` that are made to fail. -/
structure Memory where
  link : Link
  mem : Bytes
  freelist : Nat
  refusals : List Bool

/-- The panics of the memory code. `kernelStack` stands for a recursion that outgrows the kernel
stack, `strlenOutside` for a search that leaves its buffer, and `ustackOutside` for a store behind
the end of an array. -/
inductive Panic
  | kfree
  | walk
  | mappagesSize
  | mappagesRemap
  | uvmunmapNotAligned
  | uvmunmapWalk
  | uvmunmapNotMapped
  | uvmunmapNotLeaf
  | freewalkLeaf
  | uvmclear
  | loadseg
  | kernelStack
  | strlenOutside
  | ustackOutside
  deriving DecidableEq

/-- An operation on physical memory. -/
abbrev Op : Type → Type := StateT Memory (Except Panic)

section Access

def readPte (pte : Nat) : Op Nat := do
  let s ← get
  pure (s.mem.getLE pte 8)

def writePte (pte v : Nat) : Op Unit := modify fun s => { s with mem := s.mem.setLE pte 8 v }

def memset (dst : Nat) (c : UInt8) (n : Nat) : Op Unit :=
  modify fun s => { s with mem := s.mem.fill dst n c }

/-- `memmove` from kernel memory that is not in the pages of the allocator. -/
def memcpy (dst n : Nat) (src : Bytes) : Op Unit :=
  modify fun s => { s with mem := s.mem.blit dst n src }

end Access

section Kalloc

/-- A free page holds the address of the next free page in its first eight bytes. -/
def kfree (pa : Nat) : Op Unit := do
  let s ← get
  if pa % pgsize ≠ 0 ∨ pa < s.link.kend ∨ phystop ≤ pa then throw .kfree
  else set { s with
    mem := (s.mem.fill pa pgsize 1).setLE pa 8 s.freelist
    freelist := pa }

/-- A call fails if the list is empty or the next entry of `refusals` says so. -/
def kalloc : Op Nat := do
  let s ← get
  let r := s.freelist
  if s.refusals.head? = some true ∨ r = 0 then do
    set { s with refusals := s.refusals.tail }
    pure 0
  else do
    set { s with
      mem := s.mem.fill r pgsize 5
      freelist := s.mem.getLE r 8
      refusals := s.refusals.tail }
    pure r

/-- `for(; p + PGSIZE <= pa_end; p += PGSIZE) kfree(p);` over the `n` pages that fit. -/
def freerangeLoop : Nat → Nat → Op Unit
  | 0, _ => pure ()
  | n + 1, p => do
      kfree p
      freerangeLoop n (p + pgsize)

def freerange (paStart paEnd : Nat) : Op Unit :=
  freerangeLoop ((paEnd - pgroundup paStart) / pgsize) (pgroundup paStart)

def kinit : Op Unit := do
  let s ← get
  freerange s.link.kend phystop

end Kalloc

section Walk

/-- The loop of `walk` from `level` down to the leaf table. -/
def walkLoop (va : Nat) (alloc : Bool) : Nat → Nat → Op Nat
  | 0, pagetable => pure (pagetable + 8 * px 0 va)
  | level + 1, pagetable => do
      let pte := pagetable + 8 * px (level + 1) va
      let entry ← readPte pte
      if entry &&& pteV ≠ 0 then walkLoop va alloc level (pte2pa entry)
      else if alloc = false then pure 0
      else do
        let page ← kalloc
        if page = 0 then pure 0
        else do
          memset page 0 pgsize
          writePte pte (pa2pte page ||| pteV)
          walkLoop va alloc level page

def walk (pagetable va : Nat) (alloc : Bool) : Op Nat :=
  if maxva ≤ va then throw .walk else walkLoop va alloc 2 pagetable

def walkaddr (pagetable va : Nat) : Op Nat :=
  if maxva ≤ va then pure 0
  else do
    let pte ← walk pagetable va false
    if pte = 0 then pure 0
    else do
      let entry ← readPte pte
      if entry &&& pteV = 0 then pure 0
      else if entry &&& pteU = 0 then pure 0
      else pure (pte2pa entry)

/-- The loop of `mappages`, by the number of pages from `a` to `MAXVA`. With none left `a` is
not below `MAXVA`, so `walk` panics. -/
def mappagesLoop (pagetable last perm : Nat) : Nat → Nat → Nat → Op Int
  | 0, _, _ => throw .walk
  | n + 1, a, pa => do
      let pte ← walk pagetable a true
      if pte = 0 then pure (-1)
      else do
        let entry ← readPte pte
        if entry &&& pteV ≠ 0 then throw .mappagesRemap
        else do
          writePte pte (pa2pte pa ||| perm ||| pteV)
          if a = last then pure 0
          else mappagesLoop pagetable last perm n (a + pgsize) (word (pa + pgsize))

def mappages (pagetable va size pa perm : Nat) : Op Int :=
  if size = 0 then throw .mappagesSize
  else
    let a := pgrounddown va
    let last := pgrounddown (word (va + size - 1))
    mappagesLoop pagetable last perm ((maxva - a) / pgsize) a pa

/-- The loop of `uvmunmap` up to `limit`, by the number of pages from `a` to `MAXVA`. -/
def uvmunmapLoop (pagetable limit : Nat) (doFree : Bool) : Nat → Nat → Op Unit
  | 0, a => if a < limit then throw .walk else pure ()
  | n + 1, a =>
    if a < limit then do
      let pte ← walk pagetable a false
      if pte = 0 then throw .uvmunmapWalk
      else do
        let entry ← readPte pte
        if entry &&& pteV = 0 then throw .uvmunmapNotMapped
        else if pteFlags entry = pteV then throw .uvmunmapNotLeaf
        else do
          if doFree = true then kfree (pte2pa entry)
          writePte pte 0
          uvmunmapLoop pagetable limit doFree n (a + pgsize)
    else pure ()

def uvmunmap (pagetable va npages : Nat) (doFree : Bool) : Op Unit :=
  if va % pgsize ≠ 0 then throw .uvmunmapNotAligned
  else uvmunmapLoop pagetable (word (va + word (npages * pgsize))) doFree ((maxva - va) / pgsize) va

end Walk

section Uvm

def uvmcreate : Op Nat := do
  let pagetable ← kalloc
  if pagetable = 0 then pure 0
  else do
    memset pagetable 0 pgsize
    pure pagetable

def uvmdealloc (pagetable oldsz newsz : Nat) : Op Nat :=
  if oldsz ≤ newsz then pure oldsz
  else do
    if pgroundup newsz < pgroundup oldsz then
      uvmunmap pagetable (pgroundup newsz)
        (intToWord ((pgroundup oldsz - pgroundup newsz) / pgsize)) true
    pure newsz

/-- The loop of `uvmalloc`, by the number of pages from `a` that start below `newsz`. It never
passes `MAXVA`, where `mappages` panics. -/
def uvmallocLoop (pagetable oldsz newsz xperm : Nat) : Nat → Nat → Op Nat
  | 0, _ => pure newsz
  | n + 1, a => do
      let mem ← kalloc
      if mem = 0 then do
        let _ ← uvmdealloc pagetable a oldsz
        pure 0
      else do
        memset mem 0 pgsize
        let r ← mappages pagetable a pgsize mem (pteR ||| pteU ||| xperm)
        if r ≠ 0 then do
          kfree mem
          let _ ← uvmdealloc pagetable a oldsz
          pure 0
        else uvmallocLoop pagetable oldsz newsz xperm n (a + pgsize)

def uvmalloc (pagetable oldsz newsz xperm : Nat) : Op Nat :=
  if newsz < oldsz then pure oldsz
  else
    let oldsz := pgroundup oldsz
    uvmallocLoop pagetable oldsz newsz xperm ((newsz - oldsz + (pgsize - 1)) / pgsize) oldsz

/-- The loop of `freewalk` over the `n` entries from `i` on. -/
def freewalkLoop (freewalk : Nat → Op Unit) (pagetable : Nat) : Nat → Nat → Op Unit
  | 0, _ => pure ()
  | n + 1, i => do
      let pte ← readPte (pagetable + 8 * i)
      if pte &&& pteV ≠ 0 ∧ pte &&& (pteR ||| pteW ||| pteX) = 0 then do
        freewalk (pte2pa pte)
        writePte (pagetable + 8 * i) 0
        freewalkLoop freewalk pagetable n (i + 1)
      else if pte &&& pteV ≠ 0 then throw .freewalkLeaf
      else freewalkLoop freewalk pagetable n (i + 1)

/-- `freewalk`, nested at most `depth` deep. -/
def freewalk : Nat → Nat → Op Unit
  | 0, _ => throw .kernelStack
  | depth + 1, pagetable => do
      freewalkLoop (freewalk depth) pagetable 512 0
      kfree pagetable

/-- The depth to which `freewalk` may nest. -/
def freewalkDepth : Nat := 3

def uvmfree (pagetable sz : Nat) : Op Unit := do
  if 0 < sz then uvmunmap pagetable 0 (pgroundup sz / pgsize) true
  freewalk freewalkDepth pagetable

def uvmclear (pagetable va : Nat) : Op Unit := do
  let pte ← walk pagetable va false
  if pte = 0 then throw .uvmclear
  else do
    let entry ← readPte pte
    writePte pte (entry &&& (2 ^ 64 - 1 - pteU))

end Uvm

section Proc

/-- The user page table of a process, with the trampoline and the trapframe page. -/
def procPagetable (trapframe : Nat) : Op Nat := do
  let pagetable ← uvmcreate
  if pagetable = 0 then pure 0
  else do
    let s ← get
    let r ← mappages pagetable trampolineVa pgsize s.link.trampoline (pteR ||| pteX)
    if r < 0 then do
      uvmfree pagetable 0
      pure 0
    else do
      let r ← mappages pagetable trapframeVa pgsize trapframe (pteR ||| pteW)
      if r < 0 then do
        uvmunmap pagetable trampolineVa 1 false
        uvmfree pagetable 0
        pure 0
      else pure pagetable

def procFreepagetable (pagetable sz : Nat) : Op Unit := do
  uvmunmap pagetable trampolineVa 1 false
  uvmunmap pagetable trapframeVa 1 false
  uvmfree pagetable sz

/-- `sz + n` for a `uint64` and an `int`. -/
def addInt (sz : Nat) (n : Int32) : Nat := ((sz + n.toInt) % 2 ^ 64).toNat

/-- `growproc` for a process with the given page table and `p->sz`. Returns the result and the new
`p->sz`. -/
def growproc (pagetable sz : Nat) (n : Int32) : Op (Int × Nat) :=
  if 0 < n.toInt then do
    let sz' ← uvmalloc pagetable sz (addInt sz n) pteW
    if sz' = 0 then pure (-1, sz) else pure (0, sz')
  else if n.toInt < 0 then do
    let sz' ← uvmdealloc pagetable sz (addInt sz n)
    pure (0, sz')
  else pure (0, sz)

/-- Returns the result of the system call and the new `p->sz`. -/
def sysSbrk (pagetable sz : Nat) (n : Int32) : Op (Int × Nat) := do
  let addr := sz
  let (r, sz) ← growproc pagetable sz n
  if r < 0 then pure (-1, sz) else pure (addr, sz)

end Proc

section Copy

/-- The loop of `copyout`; every round copies at least one byte, so `len` bounds the rounds. -/
def copyoutLoop (pagetable : Nat) (src : Bytes) : Nat → Nat → Nat → Nat → Op Int
  | 0, _, _, _ => pure 0
  | rounds + 1, dstva, done, len =>
    if len = 0 then pure 0
    else do
      let va0 := pgrounddown dstva
      let pa0 ← walkaddr pagetable va0
      if pa0 = 0 then pure (-1)
      else do
        let n := min (pgsize - (dstva - va0)) len
        memcpy (pa0 + (dstva - va0)) n fun i => src (done + i)
        copyoutLoop pagetable src rounds (word (va0 + pgsize)) (done + n) (len - n)

def copyout (pagetable dstva : Nat) (src : Bytes) (len : Nat) : Op Int :=
  copyoutLoop pagetable src len dstva 0 len

/-- The loop of `copyin`, which fills the `len` bytes of `dst` from `done` on. -/
def copyinLoop (pagetable : Nat) : Nat → Bytes → Nat → Nat → Nat → Op (Int × Bytes)
  | 0, dst, _, _, _ => pure (0, dst)
  | rounds + 1, dst, srcva, done, len =>
    if len = 0 then pure (0, dst)
    else do
      let va0 := pgrounddown srcva
      let pa0 ← walkaddr pagetable va0
      if pa0 = 0 then pure (-1, dst)
      else do
        let n := min (pgsize - (srcva - va0)) len
        let s ← get
        copyinLoop pagetable rounds (dst.blit done n fun i => s.mem (pa0 + (srcva - va0) + i))
          (word (va0 + pgsize)) (done + n) (len - n)

def copyin (pagetable : Nat) (dst : Bytes) (srcva len : Nat) : Op (Int × Bytes) :=
  copyinLoop pagetable len dst srcva 0 len

/-- The inner loop of `copyinstr`, over the `n` bytes at `p`; `done` bytes of `dst` are written
already. Returns `dst` and `got_null`. -/
def copyinstrPage (mem : Bytes) : Nat → Nat → Nat → Bytes → Bytes × Bool
  | 0, _, _, dst => (dst, false)
  | n + 1, p, done, dst =>
    if mem p = 0 then (update dst done 0, true)
    else copyinstrPage mem n (p + 1) (done + 1) (update dst done (mem p))

/-- The loop of `copyinstr`; every round that goes on copies at least one byte. -/
def copyinstrLoop (pagetable : Nat) : Nat → Bytes → Nat → Nat → Nat → Op (Int × Bytes)
  | 0, dst, _, _, _ => pure (-1, dst)
  | rounds + 1, dst, srcva, done, max =>
    if max = 0 then pure (-1, dst)
    else do
      let va0 := pgrounddown srcva
      let pa0 ← walkaddr pagetable va0
      if pa0 = 0 then pure (-1, dst)
      else do
        let n := min (pgsize - (srcva - va0)) max
        let s ← get
        let got := copyinstrPage s.mem n (pa0 + (srcva - va0)) done dst
        if got.2 = true then pure (0, got.1)
        else copyinstrLoop pagetable rounds got.1 (word (va0 + pgsize)) (done + n) (max - n)

def copyinstr (pagetable : Nat) (dst : Bytes) (srcva max : Nat) : Op (Int × Bytes) :=
  copyinstrLoop pagetable max dst srcva 0 max

/-- `for(n = 0; s[n]; n++)` from `n` on, inside a buffer with `room` bytes left. -/
def strlenLoop (s : Bytes) : Nat → Nat → Option Nat
  | 0, _ => none
  | room + 1, n => if s n = 0 then some n else strlenLoop s room (n + 1)

/-- `fetchstr` into a buffer of `max` bytes; `max` is an `int` that is not negative. -/
def fetchstr (pagetable addr : Nat) (buf : Bytes) (max : Fin (2 ^ 31)) : Op (Int × Bytes) := do
  let (r, buf) ← copyinstr pagetable buf addr max
  if r < 0 then pure (-1, buf)
  else
    match strlenLoop buf max 0 with
    | some n => pure (n, buf)
    | none => throw .strlenOutside

end Copy

end FogOS.Vm
