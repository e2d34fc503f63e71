import FogOS.Library.Ring
import FogOS.Pipe.Model

/-!
# A pipe is a first-in first-out queue

The counters of a pipe are the numbers of bytes put in and taken out modulo `2 ^ 32`, and the
array is a ring that holds the bytes in between. Only the holder of the lock is inside a loop,
so a reader that has left its first loop finds the pipe as it left it.
-/

namespace FogOS.Pipe

open Function Library List

variable {ι : Type*} {s s' : PipeState ι} {p q : ι}

/-- The process is inside a loop, with the lock. -/
def Point.Locked : Point → Prop
  | .writeLoop _ _ | .readWait _ | .readCopy _ _ => True
  | _ => False

structure Fifo (s : PipeState ι) : Prop where
  nread : s.nread = uint s.removed.length
  nwrite : s.nwrite = uint s.inserted.length
  ring : Ring.Holds pipesize s.data s.inserted s.removed.length
  taken : s.removed = s.inserted.take s.removed.length
  holder : ∀ p, (s.point p).Locked → s.lock = some p
  ready : ∀ p n, s.point p = .readCopy n 0 → s.nread ≠ s.nwrite ∨ s.writeopen = false

theorem fifo_alloc (data : Nat → UInt8) : Fifo (PipeState.alloc data : PipeState ι) :=
  ⟨rfl, rfl, Ring.holds_empty pipesize data, rfl, fun _ h => h.elim, nofun⟩

theorem pipesize_lt : pipesize < 2 ^ 32 := by decide

namespace Fifo

theorem empty_iff (h : Fifo s) : s.nread = s.nwrite ↔ s.removed.length = s.inserted.length := by
  rw [h.nread, h.nwrite]
  exact Ring.counter_empty_iff pipesize_lt h.ring.le h.ring.fits

theorem full_iff (h : Fifo s) :
    s.nwrite = uint (s.nread + pipesize) ↔ s.inserted.length = s.removed.length + pipesize := by
  rw [h.nread, h.nwrite]
  exact Ring.counter_full_iff pipesize_lt h.ring.le h.ring.fits

/-- Taking a byte out of a pipe that is not empty. -/
theorem takeByte (h : Fifo s) (hne : s.nread ≠ s.nwrite) :
    s.takeByte.nread = uint s.takeByte.removed.length ∧
      Ring.Holds pipesize s.data s.inserted s.takeByte.removed.length ∧
      s.takeByte.removed = s.inserted.take s.takeByte.removed.length := by
  have hlt : s.removed.length < s.inserted.length :=
    lt_of_le_of_ne h.ring.le fun heq => hne (h.empty_iff.mpr heq)
  obtain ⟨hbyte, hring⟩ := h.ring.take hlt
  have hcell : s.nread % pipesize = s.removed.length % pipesize := by
    rw [h.nread]
    exact Ring.counter_cell (by decide) _
  have hlen : s.takeByte.removed.length = s.removed.length + 1 := by
    simp [PipeState.takeByte]
  rw [hlen]
  refine ⟨?_, hring, ?_⟩
  · simp only [PipeState.takeByte, h.nread]
    exact Nat.mod_add_mod _ _ _
  · rw [take_succ_eq_append_getElem hlt, ← h.taken, ← hbyte, ← hcell]
    rfl

theorem pipeclose (h : Fifo s) (writable : Bool) : Fifo (s.pipeclose writable) := by
  unfold PipeState.pipeclose
  split
  · exact ⟨h.nread, h.nwrite, h.ring, h.taken, h.holder, fun _ _ _ => .inr rfl⟩
  · exact ⟨h.nread, h.nwrite, h.ring, h.taken, h.holder, h.ready⟩

variable [DecidableEq ι] {pt : Point}

/-- The holder of the lock moves to another point, with or without the lock, and leaves the pipe
as it is. -/
theorem move (h : Fifo s) (hnr : s'.nread = s.nread) (hnw : s'.nwrite = s.nwrite)
    (hdata : s'.data = s.data) (hins : s'.inserted = s.inserted) (hrem : s'.removed = s.removed)
    (hopen : s'.writeopen = s.writeopen) (hpoint : s'.point = update s.point p pt)
    (hlock : s'.lock = s.lock ∨ s'.lock = none ∧ s.lock = some p ∨ s'.lock = some p ∧ s.lock = none)
    (hpt : pt.Locked → s'.lock = some p)
    (hready : ∀ n, pt = .readCopy n 0 → s.nread ≠ s.nwrite ∨ s.writeopen = false) : Fifo s' := by
  refine ⟨by rw [hnr, hrem, h.nread], by rw [hnw, hins, h.nwrite], ?_, ?_, fun q hq => ?_,
    fun q n hq => ?_⟩
  · rw [hdata, hins, hrem]
    exact h.ring
  · rw [hins, hrem]
    exact h.taken
  · rw [hpoint] at hq
    by_cases hqp : q = p
    · rw [hqp, update_self] at hq
      rw [hqp]
      exact hpt hq
    · rw [update_of_ne hqp] at hq
      have hheld := h.holder q hq
      rcases hlock with hl | ⟨_, hl⟩ | ⟨_, hl⟩
      · rw [hl, hheld]
      · exact absurd (Option.some.inj (hheld.symm.trans hl)) hqp
      · rw [hl] at hheld
        cases hheld
  · rw [hnr, hnw, hopen]
    rw [hpoint] at hq
    by_cases hqp : q = p
    · rw [hqp, update_self] at hq
      exact hready n hq
    · rw [update_of_ne hqp] at hq
      exact h.ready q n hq

theorem goto (h : Fifo s) (hpt : pt.Locked → s.lock = some p)
    (hready : ∀ n, pt = .readCopy n 0 → s.nread ≠ s.nwrite ∨ s.writeopen = false) :
    Fifo (s.goto p pt) :=
  h.move rfl rfl rfl rfl rfl rfl rfl (.inl rfl) hpt hready

section

variable (h : Fifo s) (hp : s.lock = some p)

include h hp

theorem ret (r : Return ι) : Fifo (s.ret p r) :=
  h.move rfl rfl rfl rfl rfl rfl rfl (.inr (.inl ⟨rfl, hp⟩)) (fun hl => hl.elim) nofun

theorem sleep (hpt : ¬ pt.Locked) : Fifo (s.sleep p pt) := by
  refine h.move rfl rfl rfl rfl rfl rfl rfl (.inr (.inl ⟨rfl, hp⟩)) (fun hl => absurd hl hpt) ?_
  rintro n rfl
  exact absurd trivial hpt

/-- The holder of the lock has transferred a byte and is at a point where it does not test
whether the pipe is empty. -/
theorem transfer
    (hnr : s'.nread = uint s'.removed.length) (hnw : s'.nwrite = uint s'.inserted.length)
    (hring : Ring.Holds pipesize s'.data s'.inserted s'.removed.length)
    (htaken : s'.removed = s'.inserted.take s'.removed.length)
    (hpoint : s'.point = update s.point p pt) (hpt : pt.Locked → s'.lock = some p)
    (hcopy : ∀ n, pt ≠ .readCopy n 0) : Fifo s' := by
  -- Nobody else is inside a loop.
  have hothers : ∀ q, q ≠ p → ¬ (s'.point q).Locked := by
    intro q hqp hq
    rw [hpoint, update_of_ne hqp] at hq
    exact hqp (Option.some.inj ((h.holder q hq).symm.trans hp))
  refine ⟨hnr, hnw, hring, htaken, fun q hq => ?_, fun q n hq => ?_⟩
  · by_cases hqp : q = p
    · rw [hqp, hpoint, update_self] at hq
      rw [hqp]
      exact hpt hq
    · exact absurd hq (hothers q hqp)
  · by_cases hqp : q = p
    · rw [hqp, hpoint, update_self] at hq
      exact absurd hq (hcopy n)
    · exact absurd (by rw [hq]; trivial) (hothers q hqp)

/-- A byte is put into a pipe that is not full, and the writer goes on. -/
theorem putByte (hroom : s.nwrite ≠ uint (s.nread + pipesize))
    (ch : UInt8) (n : Int) (i : Nat) : Fifo ((s.putByte ch).goto p (.writeLoop n i)) := by
  have hlt : s.inserted.length < s.removed.length + pipesize :=
    lt_of_le_of_ne h.ring.fits fun heq => hroom (h.full_iff.mpr heq)
  have hcell : s.nwrite % pipesize = s.inserted.length % pipesize := by
    rw [h.nwrite]
    exact Ring.counter_cell (by decide) _
  refine h.transfer hp h.nread ?_ ?_ ?_ rfl (fun _ => hp) nofun
  · simp only [PipeState.goto, PipeState.putByte, length_append, length_singleton, h.nwrite]
    exact Nat.mod_add_mod _ _ _
  · simp only [PipeState.goto, PipeState.putByte, hcell]
    exact h.ring.put hlt ch
  · simp only [PipeState.goto, PipeState.putByte]
    rw [take_append_of_le_length h.ring.le]
    exact h.taken

theorem writeRound (n : Int) (i : Nat) (killed : Bool)
    (ch : Option UInt8) : Fifo (s.writeRound p n i killed ch) := by
  unfold PipeState.writeRound
  split
  · split
    · exact h.ret hp _
    · split
      · exact h.sleep hp id
      · next hroom =>
        cases ch with
        | none => exact h.ret hp _
        | some ch => exact h.putByte hp hroom ch n (i + 1)
  · exact h.ret hp _

theorem readWait (n : Int) (killed : Bool) : Fifo (s.readWait p n killed) := by
  unfold PipeState.readWait
  split
  · split
    · exact h.ret hp _
    · exact h.sleep hp id
  · next hleave =>
    refine h.goto (fun _ => hp) fun m _ => ?_
    rcases not_and_or.mp hleave with hne | hclosed
    · exact .inl hne
    · exact .inr (Bool.eq_false_of_not_eq_true hclosed)

theorem readCopy (n : Int) (i : Nat) (copied : Bool) : Fifo (s.readCopy p n i copied) := by
  unfold PipeState.readCopy
  split
  · split
    · exact h.ret hp _
    · next hne =>
      obtain ⟨hnr, hring, htaken⟩ := h.takeByte hne
      split
      · exact h.transfer hp hnr h.nwrite hring htaken rfl (fun _ => hp) nofun
      · exact h.transfer hp hnr h.nwrite hring htaken rfl (fun hl => hl.elim) nofun
  · exact h.ret hp _

end

/-- Every step keeps the queue. -/
theorem step {a : Act ι} (h : Fifo s) (hs : step s a = .ok s') : Fifo s' := by
  unfold Pipe.step at hs
  split at hs
  · cases hs
  · cases a with
    | pipewrite p n =>
      simp only at hs
      split at hs <;> cases hs
      exact h.goto (fun hl => hl.elim) nofun
    | piperead p n =>
      simp only at hs
      split at hs <;> cases hs
      exact h.goto (fun hl => hl.elim) nofun
    | acquire p =>
      simp only at hs
      split at hs
      · cases hs
      · next hfree =>
        have hnone := not_not.mp hfree
        split at hs
        · cases hs
          exact h.move rfl rfl rfl rfl rfl rfl rfl (.inr (.inr ⟨rfl, hnone⟩)) (fun _ => rfl) nofun
        · cases hs
          exact h.move rfl rfl rfl rfl rfl rfl rfl (.inr (.inr ⟨rfl, hnone⟩)) (fun _ => rfl) nofun
        · cases hs
    | writeRound p killed ch =>
      simp only at hs
      split at hs
      · next n i hpt =>
        cases hs
        exact h.writeRound (h.holder p (by rw [hpt]; trivial)) n i killed ch
      · cases hs
    | readRound p killed copied =>
      simp only at hs
      split at hs
      · next n hpt =>
        cases hs
        exact h.readWait (h.holder p (by rw [hpt]; trivial)) n killed
      · next n i hpt =>
        cases hs
        exact h.readCopy (h.holder p (by rw [hpt]; trivial)) n i copied
      · cases hs
    | pipeclose p writable =>
      simp only at hs
      split at hs <;> cases hs
      exact h.pipeclose writable

theorem run {data : Nat → UInt8} {acts : List (Act ι)}
    (h : run Pipe.step (PipeState.alloc data) acts = .ok s) : Fifo s :=
  run_preserves (fun _ _ _ hs ha => hs.step ha) (fifo_alloc data) h

end Fifo

/-- A `piperead` returns 0 without a fault from the point where it has copied nothing, because
the pipe is empty or nothing was asked for. -/
theorem readRound_zero [DecidableEq ι] {n : Int} {killed copied : Bool}
    (hs : step s (.readRound p killed copied) = .ok s')
    (hret : s'.returns = s.returns ++ [.read p n 0 false]) :
    s.point p = .readCopy n 0 ∧ (s.nread = s.nwrite ∨ n ≤ 0) := by
  unfold step at hs
  split at hs
  · cases hs
  · simp only at hs
    split at hs
    · cases hs
      unfold PipeState.readWait at hret
      split at hret
      · split at hret
        · simp [PipeState.ret] at hret
        · simp [PipeState.sleep, PipeState.goto] at hret
      · simp [PipeState.goto] at hret
    · next m i hpt =>
      cases hs
      unfold PipeState.readCopy at hret
      split at hret
      · split at hret
        · next hempty =>
          simp only [PipeState.ret, append_cancel_left_eq, List.cons.injEq, Return.read.injEq,
            true_and, and_true, Nat.cast_eq_zero] at hret
          obtain ⟨rfl, rfl⟩ := hret
          exact ⟨hpt, .inl hempty⟩
        · split at hret
          · simp [PipeState.goto, PipeState.takeByte] at hret
          · simp [PipeState.ret, PipeState.takeByte] at hret
      · next hdone =>
        simp only [PipeState.ret, append_cancel_left_eq, List.cons.injEq, Return.read.injEq,
          true_and, and_true, Nat.cast_eq_zero] at hret
        obtain ⟨rfl, rfl⟩ := hret
        exact ⟨hpt, .inr (by simpa using hdone)⟩
    · cases hs

/-- In every state that a pipe reaches: the counters differ by at most the size of the pipe, the
bytes taken out are the first of those put in, and the others are in the pipe, in order; and
a read of at least one byte whose copies succeed returns 0 only if the write end is closed and
every byte has been taken out. -/
theorem pipe_is_fifo [DecidableEq ι] {data : Nat → UInt8} {acts : List (Act ι)}
    (h : run step (PipeState.alloc data) acts = .ok s) :
    uint (s.nwrite + 2 ^ 32 - s.nread) ≤ pipesize ∧
    s.removed <+: s.inserted ∧
    (∀ k (hk : k < s.inserted.length), s.removed.length ≤ k → s.data (k % pipesize) = s.inserted[k]) ∧
    (∀ p n killed copied s', 0 < n → step s (.readRound p killed copied) = .ok s' →
      s'.returns = s.returns ++ [.read p n 0 false] →
      s.writeopen = false ∧ s.removed = s.inserted) := by
  have hfifo := Fifo.run h
  refine ⟨?_, ?_, fun k hk hrk => hfifo.ring.cell k hk hrk, fun p n killed copied s' hn hs hret => ?_⟩
  · have hfits := hfifo.ring.fits
    rw [hfifo.nread, hfifo.nwrite]
    have hdist := Ring.counter_distance pipesize_lt hfifo.ring.le hfits
    unfold uint
    rw [hdist]
    omega
  · rw [hfifo.taken]
    exact take_prefix _ _
  · obtain ⟨hpt, hempty | hle⟩ := readRound_zero hs hret
    · refine ⟨(hfifo.ready p n hpt).resolve_left (not_not_intro hempty), ?_⟩
      rw [hfifo.taken, hfifo.empty_iff.mp hempty, take_length]
    · omega

/-- A writer puts two bytes into the pipe, and a reader takes out the first. -/
theorem pipe_is_fifo_two :
    ∃ s : PipeState Bool, run step (PipeState.alloc fun _ => 0) [.pipewrite true 2, .acquire true,
        .writeRound true false (some 7), .writeRound true false (some 9), .writeRound true false none,
        .piperead false 1, .acquire false, .readRound false false true,
        .readRound false false true] = .ok s ∧
      s.inserted = [7, 9] ∧ s.removed = [7] ∧ s.removed <+: s.inserted := by
  have hrun : Ends (fun s : PipeState Bool => s.inserted = [7, 9] ∧ s.removed = [7])
      (run step (PipeState.alloc fun _ => 0) [.pipewrite true 2, .acquire true,
        .writeRound true false (some 7), .writeRound true false (some 9), .writeRound true false none,
        .piperead false 1, .acquire false, .readRound false false true,
        .readRound false false true]) := by
    decide +kernel
  obtain ⟨s, hs, hins, hrem⟩ := hrun.exists
  exact ⟨s, hs, hins, hrem, (pipe_is_fifo hs).2.1⟩

end FogOS.Pipe
