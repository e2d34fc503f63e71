import Mathlib

/-!
# The heap of a user program

`malloc`, `free` and `morecore` of `umalloc.c`. Addresses are in bytes and `sizeof(Header)` is 16.
Memory is a function from addresses to headers: all headers but `base` are at multiples of 16.
The loops run on fuel.
-/

namespace FogOS.Malloc

open Function

/-- `union header`; `size` is a `uint`. -/
structure Header where
  ptr : Nat
  size : Nat
  deriving DecidableEq

/-- The memory of the program and `freep`. -/
structure Heap where
  mem : Nat → Header
  freep : Nat

namespace Heap

def set (h : Heap) (a : Nat) (v : Header) : Heap := { h with mem := update h.mem a v }

theorem set_mem_self (h : Heap) (a : Nat) (v : Header) : (h.set a v).mem a = v :=
  update_self _ _ _

theorem set_mem_of_ne (h : Heap) {a b : Nat} (v : Header) (hne : b ≠ a) :
    (h.set a v).mem b = h.mem b := update_of_ne hne _ _

/-- The first `if` of `free`: `bp` is joined to the block behind it, or linked to it. -/
def joinNext (h : Heap) (bp p : Nat) : Heap :=
  let next := (h.mem p).ptr
  if bp + 16 * (h.mem bp).size = next then
    h.set bp ⟨(h.mem next).ptr, ((h.mem bp).size + (h.mem next).size) % 2 ^ 32⟩
  else h.set bp ⟨next, (h.mem bp).size⟩

/-- The second `if` of `free`: `bp` is joined to the block in front of it, or linked from it. -/
def joinPrev (h : Heap) (bp p : Nat) : Heap :=
  if p + 16 * (h.mem p).size = bp then
    h.set p ⟨(h.mem bp).ptr, ((h.mem p).size + (h.mem bp).size) % 2 ^ 32⟩
  else h.set p ⟨bp, (h.mem p).size⟩

end Heap

/-- The loop of `free`. -/
def freeLoop (h : Heap) (bp : Nat) : Nat → Nat → Option Nat
  | 0, _ => none
  | fuel + 1, p =>
    let next := (h.mem p).ptr
    if bp > p ∧ bp < next then some p
    else if p ≥ next ∧ (bp > p ∨ bp < next) then some p
    else freeLoop h bp fuel next

def free (fuel : Nat) (h : Heap) (ap : Nat) : Option Heap := do
  let bp := ap - 16
  let p ← freeLoop h bp fuel h.freep
  return { (h.joinNext bp p).joinPrev bp p with freep := p }

/-- A call of `sbrk` with its answer, which is `none` for -1. -/
structure Call where
  bytes : Int
  answer : Option Nat
  deriving DecidableEq

/-- The kernel: an answer for every request, which may depend on the calls before it. -/
abbrev Sbrk : Type := List Call → Int → Option Nat

/-- The argument of `sbrk` is an `int`. -/
def toInt (n : Nat) : Int := (BitVec.ofNat 32 n).toInt

/-- `morecore`: the heap, the result and the call of `sbrk`. -/
def morecore (fuel : Nat) (sbrk : Int → Option Nat) (h : Heap) (nu : Nat) :
    Option (Heap × Nat × Call) :=
  let nu := if nu < 4096 then 4096 else nu
  let bytes := toInt (nu * 16)
  match sbrk bytes with
  | none => some (h, 0, ⟨bytes, none⟩)
  | some hp => do
      let h := h.set hp ⟨(h.mem hp).ptr, nu⟩
      let h ← free fuel h (hp + 16)
      return (h, h.freep, ⟨bytes, some hp⟩)

/-- A block that is large enough is taken out of the list, or its tail is cut off. -/
def takeBlock (h : Heap) (prevp p : Nat) (nunits : Nat) : Heap × Nat :=
  if (h.mem p).size = nunits then
    ({ h.set prevp ⟨(h.mem p).ptr, (h.mem prevp).size⟩ with freep := prevp }, p + 16)
  else
    let rest := (h.mem p).size - nunits
    let h := h.set p ⟨(h.mem p).ptr, rest⟩
    let p := p + 16 * rest
    let h := h.set p ⟨(h.mem p).ptr, nunits⟩
    ({ h with freep := prevp }, p + 16)

/-- The loop of `malloc`, with the calls of `sbrk` so far. -/
def mallocLoop (sbrk : Sbrk) (nunits : Nat) :
    Nat → Heap → Nat → Nat → List Call → Option (Heap × Nat × List Call)
  | 0, _, _, _, _ => none
  | fuel + 1, h, prevp, p, calls =>
    if (h.mem p).size ≥ nunits then
      let (h, ap) := takeBlock h prevp p nunits
      some (h, ap, calls)
    else if p = h.freep then
      match morecore fuel (sbrk calls) h nunits with
      | none => none
      | some (h, p, call) =>
        if p = 0 then some (h, 0, calls ++ [call])
        else mallocLoop sbrk nunits fuel h p (h.mem p).ptr (calls ++ [call])
    else mallocLoop sbrk nunits fuel h p (h.mem p).ptr calls

/-- The units that a request takes, with its header. -/
def nunits (nbytes : UInt32) : Nat := (nbytes.toNat + 16 - 1) / 16 + 1

/-- The list of free blocks is set up by the first call of `malloc`. -/
def initialise (base : Nat) (h : Heap) : Heap :=
  if h.freep = 0 then { h.set base ⟨base, 0⟩ with freep := base } else h

def malloc (base : Nat) (fuel : Nat) (sbrk : Sbrk) (h : Heap) (nbytes : UInt32) :
    Option (Heap × Nat × List Call) :=
  let h := initialise base h
  mallocLoop sbrk (nunits nbytes) fuel h h.freep (h.mem h.freep).ptr []

end FogOS.Malloc
