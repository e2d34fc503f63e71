import FogOS.Process.Table

/-!
# The target of `kill`

A free slot has process id 0, so a call with another id never hits one. `freeproc`
clears the flag `killed` and `allocproc` does not, so a slot keeps the flag that a
call with id 0 has set on it.
-/

namespace FogOS.Process

open Function Library

/-- A free slot has no process id and is not marked. -/
def Proc.Clean (pr : Proc) : Prop := pr.state = .unused → pr.pid = 0 ∧ pr.killed = false

/-- Every free slot is clean, and no call in progress looks for the process id 0. -/
structure Clean (t : Table) : Prop where
  free : ∀ q, (t.procs q).Clean
  target : ∀ p pid i, t.phase p = .killing pid i → pid ≠ 0

theorem clean_boot : Clean boot := by
  refine ⟨fun q => ?_, fun p pid i h => by cases h⟩
  by_cases hq : q = 0
  · rw [hq]
    exact fun h => by cases h
  · intro _
    simp [boot, update_of_ne hq, Proc.zero]

variable {t t' : Table}

namespace Clean

section

variable (h : Clean t)

include h

variable {p : Slot}

/-- A slot with the id that a call looks for is in use. -/
theorem used_of_pid {q : Slot} {pid : Int} {i : Nat} (hp : t.phase p = .killing pid i)
    (hpid : (t.procs q).pid = pid) : (t.procs q).state ≠ .unused := fun hu =>
  h.target p pid i hp (hpid.symm.trans (h.free q hu).1)

theorem setProc (q : Slot) (pr : Proc) (hpr : pr.Clean) : Clean (t.setProc q pr) := by
  refine ⟨fun q' => ?_, h.target⟩
  by_cases hq : q' = q
  · rw [hq, Table.setProc_procs, update_self]
    exact hpr
  · rw [Table.setProc_procs, update_of_ne hq]
    exact h.free q'

theorem setPhase (p : Slot) (ph : Phase)
    (hph : ∀ pid i, ph = .killing pid i → pid ≠ 0) : Clean (t.setPhase p ph) := by
  refine ⟨h.free, fun p' pid i hp => ?_⟩
  by_cases hpp : p' = p
  · rw [hpp, Table.setPhase_phase, update_self] at hp
    exact hph pid i hp
  · rw [Table.setPhase_phase, update_of_ne hpp] at hp
    exact h.target p' pid i hp

theorem emit (e : Event) : Clean (t.emit e) := ⟨h.free, h.target⟩

theorem wakeup (me : Slot) (chan : Option Chan) : Clean (t.wakeup me chan) := by
  refine ⟨fun q => ?_, h.target⟩
  simp only [Table.wakeup]
  split
  · exact fun hs => by cases hs
  · exact h.free q

theorem adopt (p : Slot) : Clean (t.adopt p) := by
  refine ⟨fun q => ?_, h.target⟩
  simp only [Table.adopt]
  split
  · exact fun hs => h.free q hs
  · exact h.free q

theorem reparent (p : Slot) : Clean (t.reparent p) := by
  unfold Table.reparent
  split
  · exact (h.adopt p).wakeup p _
  · exact h.adopt p

theorem allocproc (np : Slot) : Clean (t.allocproc np) := by
  have hset := h.setProc np { t.procs np with pid := t.nextpid, state := .used } nofun
  have hphase := hset.setPhase np .user nofun
  exact ⟨hphase.free, hphase.target⟩

theorem freeproc (q : Slot) : Clean (t.freeproc q) :=
  h.setProc q _ fun _ => ⟨rfl, rfl⟩

theorem fork {found : Option Slot} {memory : Bool}
    (hs : t.fork p found memory = .ok t') : Clean t' := by
  obtain ⟨_, hs⟩ := of_guard hs
  cases found with
  | none =>
    cases hs
    exact h
  | some np =>
    obtain ⟨_, hs⟩ := of_guard_not hs
    split at hs
    · cases hs
      exact (h.allocproc np).setPhase p (.forked np) nofun
    · cases hs
      exact (h.allocproc np).freeproc np

theorem forkParent (hs : t.forkParent p = .ok t') : Clean t' := by
  unfold Table.forkParent at hs
  split at hs
  · split at hs
    · cases hs
      refine (h.setProc _ _ ?_).setPhase p (.adopted _) nofun
      exact fun hu => h.free _ hu
    · cases hs
  · cases hs

theorem forkRunnable (hs : t.forkRunnable p = .ok t') : Clean t' := by
  unfold Table.forkRunnable at hs
  split at hs
  · split at hs
    · cases hs
      exact (h.setProc _ _ (by intro hu; cases hu)).setPhase p .user nofun
    · cases hs
  · cases hs

theorem exit {status : Int} (hs : t.exit p status = .ok t') : Clean t' := by
  obtain ⟨_, hs⟩ := of_guard hs
  obtain ⟨_, ⟨⟩⟩ := of_guard_not hs
  refine ((((h.reparent p).wakeup p _).setProc p _ ?_).setPhase p .exited nofun).emit _
  exact nofun

theorem waitScan {copied : Bool} (hs : t.waitScan p copied = .ok t') : Clean t' := by
  obtain ⟨addr, hp⟩ := waitScan_phase hs
  obtain ⟨q, _, _, rfl⟩ | ⟨_, rfl⟩ | ⟨_, rfl⟩ := (waitScan_cases hp hs).2
  · exact ((h.freeproc q).setPhase p .user nofun).emit _
  · exact (h.setPhase p .user nofun).emit _
  · exact h.setProc p _ (by intro hu; cases hu)

theorem killSlot (hs : t.killSlot p = .ok t') : Clean t' := by
  obtain ⟨pid, i, hp⟩ := killSlot_phase hs
  obtain ⟨q, hpid, rfl⟩ | rfl | rfl := killSlot_cases hp hs
  · have hne := h.used_of_pid hp hpid
    refine ((h.setProc q _ fun hu => absurd ?_ hne).setPhase p .user nofun).emit _
    split at hu
    · cases hu
    · exact hu
  · refine h.setPhase p _ fun pid' i' he => ?_
    cases he
    exact h.target p pid i hp
  · exact (h.setPhase p .user nofun).emit _

/-- Every step keeps the free slots clean, if no call looks for the process id 0. -/
theorem step {a : Act} (ha : ∀ p, a ≠ .kill p 0) (hs : step t a = .ok t') : Clean t' := by
  cases a with
  | fork p found memory => exact h.fork hs
  | forkParent p => exact h.forkParent hs
  | forkRunnable p => exact h.forkRunnable hs
  | exit p status => exact h.exit hs
  | wait p addr =>
    simp only [Process.step, Table.wait] at hs
    split at hs <;> cases hs
    exact h.setPhase p (.waiting addr) nofun
  | waitScan p copied => exact h.waitScan hs
  | kill p pid =>
    simp only [Process.step, Table.kill] at hs
    split at hs <;> cases hs
    refine h.setPhase p _ fun pid' i he => ?_
    cases he
    rintro rfl
    exact ha p rfl
  | killSlot p => exact h.killSlot hs
  | setkilled p =>
    obtain ⟨_, hs⟩ := of_guard hs
    next hat =>
    cases hs
    exact h.setProc p _ fun hu => by simp [hat.1] at hu
  | sleep p chan =>
    simp only [Process.step] at hs
    split at hs <;> cases hs
    exact h.setProc p _ (by intro hu; cases hu)
  | wakeup p chan =>
    simp only [Process.step] at hs
    split at hs <;> cases hs
    exact h.wakeup p _
  | dispatch p =>
    simp only [Process.step, Table.dispatch] at hs
    split at hs <;> cases hs
    exact h.setProc p _ (by intro hu; cases hu)
  | yield p =>
    simp only [Process.step, Table.yield] at hs
    split at hs <;> cases hs
    exact h.setProc p _ (by intro hu; cases hu)

end

theorem run {acts : List Act} (hacts : ∀ p, Act.kill p 0 ∉ acts)
    (h : run Process.step boot acts = .ok t) : Clean t := by
  refine run_invariant (fun s a s' hs ha hstep => hs.step ha hstep) clean_boot ?_ h
  exact guarded_of_forall boot fun a ha p hap => hacts p (hap ▸ ha)

end Clean

/-- If no call has process id 0: a call that returns 0 has found a process in use with its id and
has changed no other slot, a call that goes on or returns -1 has changed no slot, and a
process starts without the flag. -/
theorem kill_marks_only_its_target {acts : List Act} {t : Table} (hacts : ∀ p, Act.kill p 0 ∉ acts)
    (h : run step boot acts = .ok t) :
    (∀ p pid i t', t.phase p = .killing pid i → step t (.killSlot p) = .ok t' →
      (t'.events = t.events ++ [.killReturned p pid 0] ∧
        ∃ q, (t.procs q).pid = pid ∧ (t.procs q).state ≠ .unused ∧
          ∀ q', q' ≠ q → t'.procs q' = t.procs q') ∨
      (Event.killReturned p pid 0 ∉ t'.events.drop t.events.length ∧ t'.procs = t.procs)) ∧
    (∀ p np t', step t (.fork p (some np) true) = .ok t' →
      (t'.procs np).state = .used ∧ (t'.procs np).killed = false) := by
  have hclean := Clean.run hacts h
  constructor
  · intro p pid i t' hp hs
    obtain ⟨q, hpid, rfl⟩ | rfl | rfl := killSlot_cases hp hs
    · refine .inl ⟨rfl, q, hpid, hclean.used_of_pid hp hpid, fun q' hq' => ?_⟩
      exact update_of_ne hq' _ _
    · exact .inr ⟨by simp, rfl⟩
    · exact .inr ⟨by simp, rfl⟩
  · intro p np t' hs
    simp only [step, Table.fork] at hs
    obtain ⟨_, hs⟩ := of_guard hs
    obtain ⟨_, hs⟩ := of_guard_not hs
    next hfree =>
    simp only [if_true] at hs
    cases hs
    have hmark := (hclean.free np (not_not.mp hfree)).2
    exact ⟨by simp [Table.allocproc], by simp [Table.allocproc, hmark]⟩

/-- `init` forks a child and looks for the child's id from slot 1 on. -/
theorem kill_marks_only_its_target_child :
    ∃ t, run step boot [.dispatch 0, .fork 0 (some 1) true, .forkParent 0, .forkRunnable 0,
        .kill 0 2, .killSlot 0] = .ok t ∧ t.phase 0 = .killing 2 1 ∧
      ∀ t', step t (.killSlot 0) = .ok t' → (t'.events = t.events ++ [.killReturned 0 2 0] ∧
          ∃ q, (t.procs q).pid = 2 ∧ (t.procs q).state ≠ .unused ∧
            ∀ q', q' ≠ q → t'.procs q' = t.procs q') ∨
        (Event.killReturned 0 2 0 ∉ t'.events.drop t.events.length ∧ t'.procs = t.procs) := by
  have hrun : Ends (fun t => t.phase 0 = .killing 2 1) (run step boot [.dispatch 0,
      .fork 0 (some 1) true, .forkParent 0, .forkRunnable 0, .kill 0 2, .killSlot 0]) := by
    decide +kernel
  obtain ⟨t, ht, hphase⟩ := hrun.exists
  exact ⟨t, ht, hphase, fun t' hs =>
    (kill_marks_only_its_target (by decide) ht).1 0 2 1 t' hphase hs⟩

/-- `kill(0)` marks the first free slot and returns 0, and the next process that gets the slot
starts with the flag. -/
theorem kill_zero_marks_next_child :
    ∃ t t', run step boot [.dispatch 0, .kill 0 0, .killSlot 0] = .ok t ∧
      (∀ q, (t.procs q).pid = 0 → (t.procs q).state = .unused) ∧
      run step t [.killSlot 0, .fork 0 (some 1) true, .forkParent 0, .forkRunnable 0] = .ok t' ∧
      t'.events = [.killReturned 0 0 0] ∧
      (t'.procs 1).state = .runnable ∧ (t'.procs 1).killed = true := by
  have hbefore : Ends (fun t => (∀ q, (t.procs q).pid = 0 → (t.procs q).state = .unused) ∧
      Ends (fun t' => t'.events = [.killReturned 0 0 0] ∧
        (t'.procs 1).state = .runnable ∧ (t'.procs 1).killed = true)
        (run step t [.killSlot 0, .fork 0 (some 1) true, .forkParent 0, .forkRunnable 0]))
      (run step boot [.dispatch 0, .kill 0 0, .killSlot 0]) := by
    decide +kernel
  obtain ⟨t, ht, hfree, hafter⟩ := hbefore.exists
  obtain ⟨t', ht', hmark⟩ := hafter.exists
  exact ⟨t, t', ht, hfree, ht', hmark⟩

end FogOS.Process
