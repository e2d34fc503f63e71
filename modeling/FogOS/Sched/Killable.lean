import FogOS.Sched.OneCpu

/-!
# `kill` and the killable sleeps

`piperead`, `pipewrite`, `consoleread`, `sys_sleep` and `wait` call `killed` before they sleep.
`kill` takes none of their locks: when it reaches the process after `killed` has returned and
before the state is `SLEEPING`, the process goes to sleep all the same. When no `kill` comes at
that time, no killed process sleeps there.
-/

namespace FogOS.Sched

open Library Process

variable {M : Type}

namespace Point

/-- The loops that look at `killed` when they are woken. -/
def killable : Point → Bool
  | loop _ => true
  | wait _ _ => true
  | _ => false

/-- `killed` has returned 0, and the state is not yet `SLEEPING`. -/
def window : Point → Bool
  | full _ => true
  | sleepSet _ _ next => next.killable || window next
  | lockP _ next => window next
  | unlockP _ next => window next
  | lockL _ next => window next
  | unlockL _ next => window next
  | wakeup _ _ next => window next
  | wakeupAt _ _ next => window next
  | readKilled yes _ => window yes
  | yieldSet next => window next
  | sched next => window next
  | tidyUp next => window next
  | _ => false

/-- The thread is in the `sched` of a killable sleep. -/
def blocked : Point → Bool
  | sched next => blocked next
  | unlockL _ next => blocked next
  | tidyUp (unlockP _ (lockL _ next)) => next.killable
  | _ => false

end Point

section Flow

variable {s : State M} {c : Cpu} {p : Slot} {x y : Point}

theorem Goes.window (h : Goes s c p x y) (hy : y.window = true) :
    x.window = true ∨ (∃ yes no, x = .readKilled yes no) ∧ (s.procs p).killed = false := by
  cases h with
  | call hstart => cases hstart <;> cases hy
  | lockP q next => exact .inl hy
  | unlockP q next => exact .inl hy
  | lockL l next => exact .inl hy
  | unlockL l next => exact .inl hy
  | wakeupSelf chan hi next hself => exact .inl hy
  | wakeupLook chan hi next => exact .inl hy
  | wakeupDone chan hi next => exact .inl hy
  | wakeupAt chan q next => exact .inl hy
  | readYes yes no => exact .inl hy
  | readNo yes no hkilled => exact .inr ⟨⟨yes, no, rfl⟩, hkilled⟩
  | yieldSet next => exact .inl hy
  | sleepSet chan l next =>
    refine .inl ?_
    rw [Point.window, Bool.or_eq_true]
    exact .inr hy
  | sched next hlock hnoff => exact .inl hy
  | tidyUp next => exact .inl hy
  | timer x hnoff => exact .inl hy
  | fullSleep pi => exact .inl rfl
  | loopSleep l => cases hy
  | _ => cases hy

/-- A thread that leaves its CPU goes to the same sleep. -/
theorem Goes.blocked (h : Goes s c p x y) (hx : x.parking = true) (hy : y.blocked = true) :
    x.blocked = true := by
  cases h with
  | unlockL l next => exact hy
  | sched next hlock hnoff => exact hy
  | timer x hnoff => cases hy
  | _ => cases hx

end Flow

/-- The process is killed and sleeps in one of the killable sleeps. -/
def State.Lost (s : State M) (p : Slot) : Prop :=
  (s.procs p).killed = true ∧ (s.procs p).state = .sleeping ∧ (s.point p).blocked = true

instance (s : State M) (p : Slot) : Decidable (s.Lost p) :=
  inferInstanceAs (Decidable (_ ∧ _ ∧ _))

/-- No `kill` sets the flag of a process after its `killed` has returned 0 and before its state
is `SLEEPING`. -/
def Timely (s : State M) (a : Act M) : Prop :=
  ∀ p, s.sched a.cpu = .inside p → ∀ q, s.point p = .killAt (s.procs q).pid q →
    (s.point q).window = false

instance (s : State M) (a : Act M) : Decidable (Timely s a) :=
  inferInstanceAs (Decidable (∀ p, s.sched a.cpu = .inside p → ∀ q,
    s.point p = .killAt (s.procs q).pid q → (s.point q).window = false))

/-- A killed process is not about to sleep in a killable sleep, and does not sleep in one. -/
structure Heeded (s : State M) : Prop where
  window : ∀ p, (s.procs p).killed = true → (s.point p).window = false
  awake : ∀ p, ¬s.Lost p

namespace Heeded

variable {s s' : State M} {a : Act M} {p : Slot}

theorem boot (m : M) : Heeded (boot m) where
  window _ _ := rfl
  awake _ h := by cases h.2.2

/-- The flag is set by `kill` and by the process itself. -/
theorem killed_new (hs : step s a = .ok s') (hp : (s'.procs p).killed = true)
    (hold : (s.procs p).killed = false) :
    (∃ r, s.sched a.cpu = .inside r ∧ s.point r = .killAt (s.procs p).pid p) ∨
      s.sched a.cpu = .inside p ∧ s.point p = .setKilled := by
  have hchange := State.step_change hs p
  generalize s'.procs p = v at hchange hp
  cases hchange with
  | kill r hc hx => exact .inl ⟨r, hc, hx⟩
  | setKilled hc hx => exact .inr ⟨hc, hx⟩
  | reap r hc hx hstate => cases hp
  | undo r hc hx => cases hp
  | _ =>
    rw [show (s.procs p).killed = true from hp] at hold
    cases hold

theorem window_step (h : Heeded s) (htimely : Timely s a) (hs : step s a = .ok s') (p : Slot)
    (hp : (s'.procs p).killed = true) : (s'.point p).window = false := by
  by_contra hwindow
  rw [Bool.not_eq_false] at hwindow
  have hfalse : ∀ {x : Point}, s.point p = x → x.window = true → (s.procs p).killed = false := by
    intro x hx hw
    cases hk : (s.procs p).killed with
    | false => rfl
    | true =>
      have hno := h.window p hk
      rw [hx, hw] at hno
      cases hno
  by_cases hc : s.sched a.cpu = .inside p
  · have hgoes := State.step_goes hc hs
    have hold : (s.procs p).killed = false := by
      rcases hgoes.window hwindow with hw | ⟨_, hk⟩
      · exact hfalse rfl hw
      · exact hk
    rcases killed_new hs hp hold with ⟨r, hr, hx⟩ | ⟨_, hx⟩
    · rw [hc] at hr
      cases hr
      rw [hx] at hgoes
      generalize s'.point p = y at hgoes hwindow
      cases hgoes <;> cases hwindow
    · rw [hx] at hgoes
      generalize s'.point p = y at hgoes hwindow
      cases hgoes <;> cases hwindow
  · rcases State.step_point hs hc with hsame | ⟨hfork, _⟩
    · rw [hsame] at hwindow
      rcases killed_new hs hp (hfalse rfl hwindow) with ⟨r, hr, hx⟩ | ⟨hc', _⟩
      · rw [htimely r hr p hx] at hwindow
        cases hwindow
      · exact hc hc'
    · rw [hfork] at hwindow
      cases hwindow

theorem awake_step (h : Heeded s) (hinv : s.Inv) (hs : step s a = .ok s') (p : Slot) :
    ¬s'.Lost p := by
  rintro ⟨hkilled, hstate, hblocked⟩
  -- A process that slept before the step stays at its sleep.
  have hslept : (s.procs p).killed = true → (s.procs p).state = .sleeping → False := by
    intro hk hst
    refine h.awake p ⟨hk, hst, ?_⟩
    by_cases hc : s.sched a.cpu = .inside p
    · refine (State.step_goes hc hs).blocked ?_ hblocked
      have hin := hinv.inside _ p hc
      cases hpark : (s.point p).parking with
      | true => rfl
      | false => simp [hpark, hst] at hin
    · rcases State.step_point hs hc with hsame | ⟨hfork, _⟩
      · rwa [hsame] at hblocked
      · rw [hfork] at hblocked
        cases hblocked
  have hchange := State.step_change hs p
  generalize s'.procs p = v at hchange hkilled hstate
  cases hchange with
  | same => exact hslept hkilled hstate
  | kill r hc hx =>
    split at hstate
    · cases hstate
    · exact absurd hstate ‹_›
  | setKilled hc hx =>
    have hin := hinv.inside _ p hc
    simp [hx, Point.parking, show (s.procs p).state = .sleeping from hstate] at hin
  | sleepSet chan l next hc hx =>
    have hgoes := State.step_goes hc hs
    have hno := h.window p hkilled
    rw [hx] at hgoes hno
    generalize s'.point p = y at hgoes hblocked
    cases hgoes with
    | sleepSet _ _ _ =>
      rw [Point.window, show next.killable = true from hblocked] at hno
      cases hno
    | timer _ _ => cases hblocked
  | tidyUp next hc hx => exact hslept hkilled hstate
  | reparent r status hc hx hparent => exact hslept hkilled hstate
  | setParent r hc hx => exact hslept hkilled hstate
  | _ => cases hstate

end Heeded

/-- When no `kill` comes between the test of `killed` and the change of state, no killed process
sleeps in a killable sleep. -/
theorem no_lost_kill {m : M} {as : List (Act M)} {s : State M}
    (hg : Guarded step Timely (boot m) as) (h : run step (boot m) as = .ok s) (p : Slot) :
    ¬s.Lost p := by
  have hstep : ∀ (s : State M) (a : Act M) (s' : State M), (s.Inv ∧ s.Counted) ∧ Heeded s →
      Timely s a → step s a = .ok s' → (s'.Inv ∧ s'.Counted) ∧ Heeded s' := by
    rintro s a s' ⟨hinv, hheed⟩ htimely hs
    exact ⟨State.inv_step hinv hs, hheed.window_step htimely hs, hheed.awake_step hinv.1 hs⟩
  exact (run_invariant hstep
    ⟨⟨State.inv_boot m, State.Counted.boot m⟩, Heeded.boot m⟩ hg h).2.awake p

/-- The first process forks a child, which runs on another CPU. -/
def forkRun : List (Act Unit) :=
  .replicate 5 (.sched 0) ++ [.thread 0 .go, .thread 0 .fork] ++ .replicate 16 (.thread 0 .go) ++
    .replicate 8 (.sched 1) ++ [.thread 1 .go]

/-- The child cannot go on in a loop, tests `killed`, finds 0 and calls `sleep`. -/
def testRun (l : Loop) : List (Act Unit) :=
  [.thread 1 (.loop l)] ++ .replicate 5 (.thread 1 .no)

/-- The child releases the lock, sets its state and leaves the CPU. -/
def sleepRun : List (Act Unit) := .replicate 4 (.thread 1 .go) ++ .replicate 2 (.sched 1)

/-- The first process kills the child. -/
def killRun : List (Act Unit) := [.thread 0 (.kill 2)] ++ .replicate 9 (.thread 0 .go)

theorem no_lost_kill_asleep :
    ∃ s, run step (boot ()) (forkRun ++ testRun (.piperead 0) ++ sleepRun ++ killRun) = .ok s ∧
      s.ret 0 = 0 ∧ (s.procs 1).killed = true ∧ (s.procs 1).state = .runnable ∧ ¬s.Lost 1 := by
  have hguard : Guarded step Timely (boot ())
      (forkRun ++ testRun (.piperead 0) ++ sleepRun ++ killRun) := by decide +kernel
  have hends : Ends (fun s : State Unit => s.ret 0 = 0 ∧ (s.procs 1).killed = true ∧
      (s.procs 1).state = .runnable)
      (run step (boot ()) (forkRun ++ testRun (.piperead 0) ++ sleepRun ++ killRun)) := by
    decide +kernel
  obtain ⟨s, hrun, hret, hkilled, hstate⟩ := hends.exists
  exact ⟨s, hrun, hret, hkilled, hstate, no_lost_kill hguard hrun 1⟩

/-- `kill` returns 0 between the test and the sleep of its victim, and the victim sleeps. -/
theorem kill_before_sleep : [Loop.piperead 0, .consoleread, .sysSleep].Forall fun l =>
    ∃ s, run step (boot ()) (forkRun ++ testRun l ++ killRun ++ sleepRun) = .ok s ∧
      s.ret 0 = 0 ∧ s.point 0 = .run ∧ s.Lost 1 := by
  have hends : ∀ l ∈ [Loop.piperead 0, .consoleread, .sysSleep],
      Ends (fun s : State Unit => s.ret 0 = 0 ∧ s.point 0 = .run ∧ s.Lost 1)
        (run step (boot ()) (forkRun ++ testRun l ++ killRun ++ sleepRun)) := by
    decide +kernel
  exact List.forall_iff_forall_mem.mpr fun l hl => (hends l hl).exists

end FogOS.Sched
