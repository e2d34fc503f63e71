import FogOS.Malloc.Integrity
import FogOS.Vm.Sbrk

/-!
# `morecore` and the size of the process

`morecore` records a number of units in the new block and asks the kernel for their bytes. The
bytes go through the `int` of `sbrk`.
-/

namespace FogOS.Malloc

open Library Vm

/-- The units that `morecore` asks for and records. -/
def requested (nbytes : UInt32) : Nat := if nunits nbytes < 4096 then 4096 else nunits nbytes

/-- The answer of `sys_sbrk` to a process, `none` for -1. -/
def answer (s : Memory) (root sz : Nat) (bytes : Int) : Option Nat :=
  match sysSbrk root sz (Int32.ofInt bytes) s with
  | .ok ((r, _), _) => if r < 0 then none else some r.toNat
  | .error _ => none

/-- A process of one page. -/
theorem exists_onePage : ∃ (s : Memory) (p : AddressSpace Unit s), p.sz = 4096 := by
  obtain ⟨s₀, p₀, hsz, s, hgrow⟩ := exists_firstSpace
  obtain ⟨⟨p, hp⟩, -⟩ := wp_of_ok (growproc_spec p₀ 4096 (by
    rw [hsz]
    decide)) hgrow
  exact ⟨s, p, hp.size⟩

end FogOS.Malloc
