import FogOS.Library.CString
import FogOS.Pipe.Model
import FogOS.Vm.Copy

/-!
# `piperead` and the memory of the reader

The second loop of `piperead` with the `copyout` that it calls. A byte leaves the pipe
before it is copied out.
-/

namespace FogOS.Pipe

open Library Vm List

variable {ι : Type*} [DecidableEq ι]

/-- The second loop of `piperead` by the process `p`, for the rounds left below `n`. -/
def pipereadLoop (p : ι) (pagetable addr : Nat) (n : Int) :
    Nat → Nat → PipeState ι → Memory → Except Panic (PipeState ι × Memory)
  | 0, i, s, m => .ok (s.readCopy p n i true, m)
  | rounds + 1, i, s, m =>
    if s.nread = s.nwrite then .ok (s.readCopy p n i true, m)
    else
      match copyout pagetable (word (addr + i)) (fun _ => s.data (s.nread % pipesize)) 1 m with
      | .error e => .error e
      | .ok (r, m) =>
        if r = -1 then .ok (s.readCopy p n i false, m)
        else pipereadLoop p pagetable addr n rounds (i + 1) (s.readCopy p n i true) m

/-- `piperead(pi, addr, n)` from the end of its first loop on. -/
def pipereadCopy (p : ι) (pagetable addr : Nat) (n : Int) (s : PipeState ι) (m : Memory) :
    Except Panic (PipeState ι × Memory) :=
  pipereadLoop p pagetable addr n n.toNat 0 s m

variable {p : ι} {n : Int} {s : PipeState ι} {m : Memory}

/-- Waiting takes nothing out of the pipe. -/
theorem readWait_removed (s : PipeState ι) (p : ι) (n : Int) (killed : Bool) :
    (s.readWait p n killed).removed = s.removed ∧ (s.readWait p n killed).nread = s.nread := by
  unfold PipeState.readWait
  split
  · split <;> exact ⟨rfl, rfl⟩
  · exact ⟨rfl, rfl⟩

/-- What a read has done that took `bytes` out of the pipe and returned `ret`. -/
structure Took (p : ι) (n ret : Int) (bytes : List UInt8) (s s' : PipeState ι) : Prop where
  removed : s'.removed = s.removed ++ bytes
  returns : s'.returns = s.returns ++ [.read p n ret false]
  data : s'.data = s.data
  nwrite : s'.nwrite = s.nwrite

theorem took_nothing {i : Nat} (h : s.nread = s.nwrite ∨ ¬ (i : Int) < n) :
    Took p n i [] s (s.readCopy p n i true) := by
  have hret : s.readCopy p n i true = s.ret p (.read p n i false) := by
    unfold PipeState.readCopy
    by_cases hlt : (i : Int) < n
    · rw [if_pos hlt, if_pos (h.resolve_right (not_not_intro hlt))]
    · rw [if_neg hlt]
  rw [hret]
  exact ⟨(append_nil _).symm, rfl, rfl, rfl⟩

/-- If the rest of the destination is accessible, what the loop takes out of the pipe is what it
returns and what arrives in user memory. -/
theorem pipereadLoop_spec (pt : UserTable m.mem) (addr : Nat) {rounds i : Nat}
    (hrounds : rounds = n.toNat - i)
    (hacc : ∀ j, i ≤ j → (j : Int) < n → Accessible m.mem pt.root ((addr + j) / pgsize)) :
    ∃ s' m' bytes, pipereadLoop p pt.root addr n rounds i s m = .ok (s', m') ∧
      Took p n (i + bytes.length : Nat) bytes s s' ∧
      Copied pt.root (addr + i) bytes.length (Bytes.ofList bytes) m m' := by
  induction rounds generalizing i s m with
  | zero =>
    refine ⟨_, m, [], rfl, ?_, Copied.zero _ _ _ _⟩
    exact took_nothing (Or.inr (by omega))
  | succ rounds ih =>
    have hlt : (i : Int) < n := by omega
    rw [pipereadLoop]
    by_cases hempty : s.nread = s.nwrite
    · rw [if_pos hempty]
      exact ⟨_, m, [], rfl, took_nothing (Or.inl hempty), Copied.zero _ _ _ _⟩
    · have hhere := hacc i (le_refl i) hlt
      have hword : word (addr + i) = addr + i := by
        have hvpn := hhere.1
        unfold word vpnMax maxva pgsize at *
        omega
      obtain ⟨m₁, hout, hcopied⟩ :=
        copyout_byte pt (s.data (s.nread % pipesize)) hhere
      rw [if_neg hempty, hword, hout]
      -- The next rounds see the same tables.
      have hacc₁ : ∀ j, i + 1 ≤ j → (j : Int) < n →
          Accessible m₁.mem (pt.move hcopied.tables).root ((addr + j) / pgsize) := by
        intro j hj hjn
        rw [accessible_iff]
        have hpage := hcopied.tables.userPage_eq ((addr + j) / pgsize)
        change (userPage m₁.mem pt.root _).isSome
        rw [hpage, ← accessible_iff]
        exact hacc j (by omega) hjn
      obtain ⟨s', m', bytes, heq, htook, hrest⟩ :=
        @ih (s.readCopy p n i true) m₁ (pt.move hcopied.tables) (i + 1) (by omega) hacc₁
      have hstep : s.readCopy p n i true = s.takeByte.goto p (.readCopy n (i + 1)) := by
        unfold PipeState.readCopy
        rw [if_pos hlt, if_neg hempty, if_pos rfl]
      refine ⟨s', m', s.data (s.nread % pipesize) :: bytes, heq, ?_, ?_⟩
      · have hremoved := htook.removed
        have hreturns := htook.returns
        have hdata := htook.data
        have hnwrite := htook.nwrite
        rw [hstep] at hremoved hreturns hdata hnwrite
        refine ⟨?_, ?_, hdata, hnwrite⟩
        · exact hremoved.trans (append_cons _ _ _).symm
        · rw [hreturns, length_cons, show i + 1 + bytes.length = i + (bytes.length + 1) by omega]
          rfl
      · rw [length_cons, add_comm bytes.length 1]
        refine Copied.append (hcopied.congr fun j hj => ?_) ?_
        · obtain rfl : j = 0 := by omega
          rfl
        · refine hrest.congr fun j _ => ?_
          rw [add_comm 1 j]
          rfl

end FogOS.Pipe
