import FogOS.Sched.Threads
import FogOS.Sched.Flow

/-!
# A process runs on at most one CPU

The steps of interrupt handlers and of `scheduler` keep the invariant, and with it every run.
-/

namespace FogOS.Sched

open Function Library Process

namespace State

variable {M : Type} {s s' u : State M} {c c' : Cpu} {p q t : Slot} {x next : Point}

section Handler

/-- A CPU moves on; the threads and the states of the processes stay. -/
theorem Inv.cpu (h : s.Inv) (hpoint : s'.point = s.point)
    (hstate : ∀ q, (s'.procs q).state = (s.procs q).state)
    (hcpus : ∀ c', c' ≠ c → s'.sched c' = s.sched c' ∧ s'.irq c' = s.irq c' ∧
      s'.cproc c' = s.cproc c')
    (hplock : ∀ c' q, c' ≠ c → s.plock q = some c' → s'.plock q = some c') (hcpu : s'.OnCpu c)
    (htaken : ∀ q, (s'.sched c).taken = some q → (s.sched c).taken = some q)
    (hkept : ∀ q, (s.sched c).running = some q → (s'.sched c).running = some q)
    (hinside : ∀ q, s.sched c = .inside q → s'.sched c = .inside q) : s'.Inv := by
  have hm : Moves s s' (some c) none := {
    cpus := fun c' hne => hcpus c' fun heq => hne (heq ▸ rfl)
    slots := fun q _ => ⟨by rw [hpoint], hstate q⟩
    plock := fun c' hne q => hplock c' q fun heq => hne (heq ▸ rfl)
    free := fun _ _ => nofun
    cpu := by
      rintro _ ⟨⟩
      exact hcpu
    taken := by
      rintro _ ⟨⟩ q _
      exact htaken q
    kept := by
      rintro _ ⟨⟩ q _
      exact hkept q
    inside := by
      rintro _ ⟨⟩ q _
      exact hinside q
    wellFormed := nofun
    running := nofun
    ready := nofun
    forked := nofun
    used := nofun }
  exact hm.inv h

/-- A statement of an interrupt handler that changes no process state. -/
theorem Inv.irqMove (h : s.Inv) {i : Nat} (hc : s.sched c = .pick i) (hsched : s'.sched = s.sched)
    (hpoint : s'.point = s.point) (hcproc : s'.cproc = s.cproc) (hirq : s'.irq = update s.irq c x)
    (hstate : ∀ q, (s'.procs q).state = (s.procs q).state)
    (hplock : ∀ c' q, c' ≠ c → s.plock q = some c' → s'.plock q = some c')
    (hheld : ∀ q, x.held 0 = some q → s'.plock q = some c) (hx : x.Handler ∧ x.WellFormed 0) :
    s'.Inv := by
  have hself : s'.irq c = x := by rw [hirq, update_self]
  have hc' : s'.sched c = .pick i := hsched ▸ hc
  refine h.cpu hpoint hstate (fun c' hne => ?_) hplock ⟨hself ▸ hx, ?_, ?_, ?_, ?_⟩
    (fun _ => hsched ▸ id) (fun _ => hsched ▸ id) fun _ => hsched ▸ id
  · rw [hsched, hirq, hcproc, update_of_ne hne]
    exact ⟨rfl, rfl, rfl⟩
  · exact fun hne => absurd hc' (hne i)
  · intro q hq
    rw [holding_pick hc', hself] at hq
    exact hheld q hq
  · rw [hc']
    trivial
  · rw [hcproc, hsched]
    exact h.current c

theorem Inv.irqStep (h : s.Inv) {i : Nat} (hc : s.sched c = .pick i) {ch : Choice M}
    (hs : s.irqStep c ch = .ok s') : s'.Inv := by
  obtain ⟨hhandler, hwf⟩ := h.handler c
  cases hx : s.irq c with
  | run =>
    simp only [State.irqStep, hx] at hs
    cases ch with
    | lock l =>
      obtain ⟨_, rfl⟩ := acquireL_ok hs
      exact h.of_other _ _ _ _
    | unlock l =>
      obtain ⟨_, rfl⟩ := releaseL_ok hs
      exact h.of_other _ _ _ _
    | store m =>
      cases hs
      exact h.of_other _ _ _ _
    | wakeup chan =>
      cases hs
      exact h.irqMove hc rfl rfl rfl rfl (fun _ => rfl) (fun _ _ _ hr => hr) (by rintro _ ⟨⟩)
        ⟨trivial, rfl, rfl, rfl, trivial⟩
    | _ => cases hs
  | lockP q next =>
    rw [hx] at hhandler hwf
    simp only [State.irqStep, hx, shared] at hs
    split at hs
    · rename_i u hu
      cases hs
      obtain ⟨hnone, rfl⟩ := acquireP_ok hu
      refine h.irqMove hc rfl rfl rfl rfl (fun _ => rfl) ?_ ?_ ⟨hhandler, hwf.2.2⟩
      · exact fun c' r _ hr => plock_acquire hnone c c' r hr
      · intro r hr
        rw [hwf.1] at hr
        cases hr
        exact update_self ..
    · cases hs
  | unlockP q next =>
    rw [hx] at hhandler hwf
    simp only [State.irqStep, hx, shared] at hs
    split at hs
    · rename_i u hu
      cases hs
      obtain ⟨hsome, rfl⟩ := releaseP_ok hu
      refine h.irqMove hc rfl rfl rfl rfl (fun _ => rfl) ?_ ?_ ⟨hhandler, hwf.2.2⟩
      · exact fun c' r hne hr => plock_release hsome hne r hr
      · intro r hr
        rw [hwf.1] at hr
        cases hr
    · cases hs
  | wakeup chan j next =>
    rw [hx] at hhandler hwf
    obtain ⟨hheld, hpark, hfork, hwf⟩ := hwf
    have hmove : ∀ y : Point, y.held 0 = none → y.Handler ∧ y.WellFormed 0 →
        (s.put c none y).Inv := by
      intro y hy hwy
      refine h.irqMove hc rfl rfl rfl rfl (fun _ => rfl) (fun _ _ _ hr => hr) ?_ hwy
      intro r hr
      rw [hy] at hr
      cases hr
    simp only [State.irqStep, hx, shared] at hs
    split at hs
    · split at hs
      · cases hs
        exact hmove _ rfl ⟨hhandler, hheld, hpark, hfork, hwf⟩
      · cases hs
        exact hmove _ rfl ⟨hhandler, rfl, rfl, rfl, rfl, rfl, rfl, rfl, hheld, hpark, hfork, hwf⟩
    · cases hs
      exact hmove _ hheld ⟨hhandler, hwf⟩
  | wakeupAt chan q next =>
    rw [hx] at hhandler hwf
    obtain ⟨hheld, _, _, hwf⟩ := hwf
    simp only [State.irqStep, hx, shared] at hs
    cases hs
    have hq : s.holding c = some q := by
      rw [holding_pick hc, hx]
      rfl
    have hwoken := h.wakeSlot (.inl ⟨i, hc⟩) hq chan
    have hsame : (s.wakeSlot chan q).sched = s.sched ∧ (s.wakeSlot chan q).irq = s.irq ∧
        (s.wakeSlot chan q).plock = s.plock := by
      rw [State.wakeSlot]
      split <;> exact ⟨rfl, rfl, rfl⟩
    refine hwoken.irqMove (hsame.1 ▸ hc) rfl rfl rfl rfl (fun _ => rfl) (fun _ _ _ hr => hr) ?_
      ⟨hhandler, hwf⟩
    intro r hr
    rw [hheld] at hr
    cases hr
    show (s.wakeSlot chan q).plock q = some c
    rw [hsame.2.2]
    exact h.locked c q hq
  | _ =>
    rw [hx] at hhandler
    cases hhandler

end Handler

section Scheduler

/-- A statement of `scheduler` that changes no process state and takes no process. -/
theorem Inv.schedMove (h : s.Inv) {y : SchedPoint} (hsched : s'.sched = update s.sched c y)
    (hpoint : s'.point = s.point) (hirq : s'.irq = s.irq) (hprocs : s'.procs = s.procs)
    (hcproc : s'.cproc = update s.cproc c y.current) (hold : ∀ t, s.sched c ≠ .inside t)
    (hplock : ∀ c' q, c' ≠ c → s.plock q = some c' → s'.plock q = some c')
    (hheld : ∀ q, s'.holding c = some q → s'.plock q = some c)
    (hidle : (∀ i, y ≠ .pick i) → s.irq c = .run) (hfits : s.Fits y)
    (hrunning : ∀ p, (s.sched c).running = some p → y.running = some p)
    (htaken : ∀ p, y.taken = some p → (s.sched c).taken = some p) : s'.Inv := by
  have hself : s'.sched c = y := by rw [hsched, update_self]
  refine h.cpu hpoint (fun q => by rw [hprocs]) (fun c' hne => ?_) hplock ⟨hirq ▸ h.handler c, ?_,
    hheld, ?_, ?_⟩ (hself ▸ htaken) (hself ▸ hrunning) fun q hq => absurd hq (hold q)
  · rw [hsched, hirq, hcproc, update_of_ne hne, update_of_ne hne]
    exact ⟨rfl, rfl, rfl⟩
  · rw [hself, hirq]
    exact hidle
  · rw [hself]
    exact hfits.congr fun p _ => by rw [hpoint, hprocs]; exact ⟨rfl, rfl⟩
  · rw [hcproc, hself, update_self]

/-- `scheduler` leaves `c->proc` as it is. -/
theorem Inv.same_cproc (h : s.Inv) {y : SchedPoint} (hy : (s.sched c).current = y.current) :
    s.cproc = update s.cproc c y.current := by
  rw [← hy, ← h.current, update_eq_self]

/-- `p->state = RUNNING`: no CPU has the process, since its lock is held and it is not
`RUNNING`. -/
theorem Inv.choose (h : s.Inv) (hc : s.sched c = .choose p) :
    ((s.setState p .running).setSched c (.assign p)).Inv := by
  have hrunnable := h.chosen c p hc
  have hstate : (((s.setState p .running).setSched c (.assign p)).procs p).state = .running := by
    simp [setSched, setState, setProc]
  have hnames : (s.sched c).names = some p := by rw [hc]; rfl
  refine h.pair (x := s.point p) hnames (by simp [hrunnable]) rfl rfl rfl ?_
    (update_eq_self p s.point).symm (fun q hq => ?_) (fun _ _ _ hq => hq) (fun q hq => ?_)
    hstate (h.wellFormed p) (fun _ => rfl) (fun _ => ?_) fun q hq => ?_
  · exact h.same_cproc (by rw [hc]; rfl)
  · simp [setSched, setState, setProc, update_of_ne hq]
  · simp only [holding, setSched, update_self, SchedPoint.held] at hq
    cases hq
    exact h.sched_held (by rw [hc]; rfl)
  · refine h.ready p (by simp [hrunnable]) fun c' hc' => ?_
    have hcc := h.names_unique (c := c') (by rw [hc']; rfl) hnames
    rw [hcc, hc] at hc'
    cases hc'
  · exact ⟨h.forked p q hq, fun t ht ht' => ht (h.forker t p q ht' hq)⟩

theorem Inv.schedPick (h : s.Inv) {i : Nat} (hc : s.sched c = .pick i) (hi : i < nproc)
    (hidle : s.irq c = .run) (hu : s.acquireP c ⟨i, hi⟩ = .ok u) :
    (u.setSched c (.test ⟨i, hi⟩)).Inv := by
  obtain ⟨hnone, rfl⟩ := acquireP_ok hu
  refine h.schedMove rfl rfl rfl rfl (h.same_cproc (by rw [hc]; rfl)) (by simp [hc]) ?_ ?_
    (fun _ => hidle) trivial (by rw [hc]; nofun) nofun
  · exact fun c' r _ hr => plock_acquire hnone c c' r hr
  · intro q hq
    simp only [holding, setSched, update_self, SchedPoint.held, Option.some.injEq] at hq
    subst hq
    exact update_self ..

/-- A statement of `scheduler` under the lock of a process. -/
theorem Inv.schedHeld (h : s.Inv) {y : SchedPoint} (hold : (s.sched c).held = some p)
    (hsched : s'.sched = update s.sched c y)
    (hpoint : s'.point = s.point) (hirq : s'.irq = s.irq) (hprocs : s'.procs = s.procs)
    (hcproc : s'.cproc = update s.cproc c y.current) (hplock : s'.plock = s.plock)
    (hheld : y.held = some p ∨ y = .inside p ∧ (s.point p).held p = some p) (hfits : s.Fits y)
    (hrunning : ∀ p, (s.sched c).running = some p → y.running = some p)
    (htaken : ∀ p, y.taken = some p → (s.sched c).taken = some p) : s'.Inv := by
  have hself : s'.sched c = y := by rw [hsched, update_self]
  refine h.schedMove hsched hpoint hirq hprocs hcproc ?_ ?_ ?_ ?_ hfits hrunning htaken
  · intro t ht
    rw [ht] at hold
    cases hold
  · exact fun c' q _ hq => by rwa [hplock]
  · intro q hq
    have hqp : q = p := by
      rw [holding, hself] at hq
      rcases hheld with hy | ⟨rfl, hy⟩
      · cases y with
        | pick i => cases hy
        | inside t => cases hy
        | _ => exact Option.some.inj (hq.symm.trans hy)
      · simp only [hpoint, hy] at hq
        exact (Option.some.inj hq).symm
    rw [hplock, hqp]
    exact h.sched_held hold
  · intro _
    refine h.handlerIdle c fun i hi => ?_
    rw [hi] at hold
    cases hold

theorem Inv.schedDrop (h : s.Inv) (hc : s.sched c = .drop p) (hu : s.releaseP c p = .ok u)
    (i : Nat) : (u.setSched c (.pick i)).Inv := by
  obtain ⟨hsome, rfl⟩ := releaseP_ok hu
  have hidle := h.handlerIdle c (by simp [hc])
  refine h.schedMove rfl rfl rfl rfl (h.same_cproc (by rw [hc]; rfl)) (by simp [hc]) ?_ ?_
    (fun hne => absurd rfl (hne i)) trivial (by rw [hc]; nofun) nofun
  · exact fun c' r hne hr => plock_release hsome hne r hr
  · intro q hq
    simp only [holding, setSched, update_self, hidle, Point.held] at hq
    cases hq

theorem Inv.schedStep (h : s.Inv) (hs : s.schedStep c = .ok s') : s'.Inv := by
  unfold State.schedStep at hs
  split at hs
  · rename_i i hc
    obtain ⟨hidle, hs⟩ := of_guard_not hs
    simp only [ne_eq, not_or, not_not] at hidle
    split at hs
    · rename_i hi
      split at hs
      · rename_i u hu
        cases hs
        exact h.schedPick hc hi hidle.1 hu
      · cases hs
    · cases hs
      refine h.schedMove rfl rfl rfl rfl (h.same_cproc (by rw [hc]; rfl)) (by simp [hc])
        (fun _ _ _ hq => hq) ?_ (fun hne => absurd rfl (hne 0)) trivial
        (by rw [hc]; rintro _ ⟨⟩) (by rintro _ ⟨⟩)
      intro q hq
      refine h.locked c q ?_
      rw [holding_pick hc]
      simpa [holding, setSched] using hq
  · rename_i p hc
    split at hs
    · rename_i hrunnable
      cases hs
      exact h.schedHeld (p := p) (by rw [hc]; rfl) rfl rfl rfl rfl (h.same_cproc (by rw [hc]; rfl))
        rfl (.inl rfl) hrunnable (by rw [hc]; rintro _ ⟨⟩) (by rintro _ ⟨⟩)
    · cases hs
      exact h.schedHeld (p := p) (by rw [hc]; rfl) rfl rfl rfl rfl (h.same_cproc (by rw [hc]; rfl))
        rfl (.inl rfl) trivial (by rw [hc]; rintro _ ⟨⟩) (by rintro _ ⟨⟩)
  · rename_i p hc
    cases hs
    exact h.choose hc
  · rename_i p hc
    cases hs
    exact h.schedHeld (p := p) (by rw [hc]; rfl) rfl rfl rfl rfl rfl rfl (.inl rfl)
      (h.assigned c p (.inl hc)) (by rw [hc]; exact fun _ => id) (by rw [hc]; exact fun _ => id)
  · rename_i p hc
    cases hs
    have hrunning := h.assigned c p (.inr hc)
    -- The thread has waited in `sched` since it left its last CPU.
    have hready := h.ready p (by simp [hrunning]) fun c' hc' => by
      have hcc := h.unique c' c p (by rw [hc']; rfl) (by rw [hc]; rfl)
      rw [hcc, hc] at hc'
      cases hc'
    refine h.schedHeld (p := p) (by rw [hc]; rfl) rfl rfl rfl rfl (h.same_cproc (by rw [hc]; rfl))
      rfl (.inr ⟨rfl, hready.1⟩) ?_ (by rw [hc]; exact fun _ => id) (by rw [hc]; exact fun _ => id)
    rw [Fits, hready.2]
    exact hrunning
  · cases hs
  · rename_i p hc
    cases hs
    exact h.schedHeld (p := p) (by rw [hc]; rfl) rfl rfl rfl rfl rfl rfl (.inl rfl) trivial
      (by rw [hc]; rintro _ ⟨⟩) (by rintro _ ⟨⟩)
  · rename_i p hc
    split at hs
    · rename_i u hu
      cases hs
      exact h.schedDrop hc hu _
    · cases hs

end Scheduler

/-- A timer interrupt finds the thread at a point where it holds no lock of the table. -/
theorem Inv.preempt (h : s.Inv) (hcount : s.Counted) (hc : s.sched c = .inside p)
    (hs : s.preempt c p = .ok s') : s'.Inv := by
  obtain ⟨hzero, ⟨⟩⟩ := of_guard hs
  have hheld : (s.point p).held p = none := by
    cases hq : (s.point p).held p with
    | none => rfl
    | some q =>
      have hlock := h.locked c q (by rw [holding_inside hc, hq])
      exact absurd hlock (hcount.free hzero q)
  have hpark : (s.point p).parking = false := by
    cases hp : (s.point p).parking with
    | false => rfl
    | true =>
      rw [Point.held_of_parking hp] at hheld
      cases hheld
  exact h.gotoFork hc rfl (by rw [hheld]; rfl) ⟨rfl, rfl, hheld, hpark, h.wellFormed p⟩
    (by rw [hpark]; rfl) rfl

theorem inv_step {a : Act M} (h : s.Inv ∧ s.Counted) (hs : step s a = .ok s') :
    s'.Inv ∧ s'.Counted := by
  refine ⟨?_, h.2.step (step_locks hs)⟩
  cases a with
  | sched c => exact h.1.schedStep hs
  | thread c ch =>
    simp only [step] at hs
    split at hs
    · rename_i p hc
      exact h.1.threadStep hc hs
    · cases hs
  | irq c ch =>
    simp only [step] at hs
    split at hs
    · rename_i i hc
      exact h.1.irqStep hc hs
    · cases hs
  | timer c =>
    simp only [step] at hs
    split at hs
    · rename_i p hc
      exact h.1.preempt h.2 hc hs
    · cases hs

theorem inv_boot (m : M) : (boot m).Inv where
  wellFormed _ := ⟨rfl, rfl, trivial⟩
  handler _ := ⟨trivial, trivial⟩
  handlerIdle _ _ := rfl
  locked _ _ h := by cases h
  inside _ _ h := by cases h
  chosen _ _ h := by cases h
  assigned _ _ h := by rcases h with h | h <;> cases h
  given _ _ h := by cases h
  running p h := by
    have hne : ((boot m).procs p).state ≠ .running := by
      by_cases hp : p = 0
      · subst hp
        simp [boot]
      · simp [boot, hp, Proc.zero]
    exact absurd h hne
  unique _ _ _ h := by cases h
  ready _ _ _ := ⟨rfl, rfl⟩
  forked _ _ h := by cases h
  forker _ _ _ h := by cases h
  current _ := rfl

theorem inv_run {m : M} {as : List (Act M)} (h : run step (boot m) as = .ok s) :
    s.Inv ∧ s.Counted :=
  run_preserves (fun _ _ _ hi hs => inv_step hi hs) ⟨inv_boot m, Counted.boot m⟩ h

/-- The times at which a CPU hands a process over with its lock held: `scheduler` has set
`RUNNING` and not yet `c->proc`, or the process has given up `RUNNING` and `scheduler` has not
yet cleared `c->proc`. -/
def HandOver (s : State M) (p : Slot) : Prop :=
  ∃ c, s.plock p = some c ∧ (s.sched c = .assign p ∨ s.sched c = .back p ∨
    s.sched c = .inside p ∧ (s.point p).parking = true)

theorem Inv.running_iff (h : s.Inv) (hp : ¬s.HandOver p) :
    (s.procs p).state = .running ↔ ∃ c, s.cproc c = some p := by
  constructor
  · intro hrunning
    obtain ⟨c, hc⟩ := h.running p hrunning
    refine ⟨c, ?_⟩
    rw [h.current]
    cases hs : s.sched c with
    | assign q =>
      rw [hs] at hc
      cases hc
      exact absurd ⟨c, h.sched_held (by rw [hs]; rfl), .inl hs⟩ hp
    | back q =>
      rw [hs] at hc
      cases hc
    | _ =>
      rw [hs] at hc
      exact hc
  · rintro ⟨c, hc⟩
    rw [h.current] at hc
    cases hs : s.sched c with
    | switch q =>
      rw [hs] at hc
      cases hc
      exact h.assigned c p (.inr hs)
    | inside q =>
      rw [hs] at hc
      cases hc
      have hstate := h.inside c p hs
      cases hpark : (s.point p).parking with
      | false => simpa [hpark] using hstate
      | true =>
        have hlock := h.locked c p (by rw [holding_inside hs, Point.held_of_parking hpark])
        exact absurd ⟨c, hlock, .inr (.inr ⟨hs, hpark⟩)⟩ hp
    | back q =>
      rw [hs] at hc
      cases hc
      exact absurd ⟨c, h.sched_held (by rw [hs]; rfl), .inr (.inl hs)⟩ hp
    | _ =>
      rw [hs] at hc
      cases hc

theorem Inv.cproc_unique (h : s.Inv) (hc : s.cproc c = some p) (hc' : s.cproc c' = some p) :
    c = c' := by
  have htaken : ∀ c, s.cproc c = some p → (s.sched c).taken = some p := by
    intro c hc
    rw [h.current] at hc
    cases hs : s.sched c with
    | switch q => rwa [hs] at hc
    | inside q => rwa [hs] at hc
    | back q => rwa [hs] at hc
    | _ =>
      rw [hs] at hc
      cases hc
  exact h.unique c c' p (htaken c hc) (htaken c' hc')

end State

/-- A process is the `c->proc` of one CPU at most, it is `RUNNING` exactly while it is the
`c->proc` of a CPU except when it is handed over, only a `RUNNABLE` process is chosen, and `wait`
frees a process whose stack no CPU uses. -/
theorem runs_on_one_cpu {M : Type} {m : M} {as : List (Act M)} {s : State M}
    (h : run step (boot m) as = .ok s) :
    (∀ c c' p, s.cproc c = some p → s.cproc c' = some p → c = c') ∧
    (∀ p, ¬s.HandOver p → ((s.procs p).state = .running ↔ ∃ c, s.cproc c = some p)) ∧
    (∀ c p, s.sched c = .choose p → (s.procs p).state = .runnable) ∧
    (∀ c p, s.sched c = .assign p ∨ s.sched c = .switch p → (s.procs p).state = .running) ∧
    (∀ c p q, s.sched c = .inside p → s.point p = .waitAt q → (s.procs q).state = .zombie →
      ∀ c', s.sched c' ≠ .inside q) := by
  obtain ⟨hinv, -⟩ := State.inv_run h
  refine ⟨fun c c' p => hinv.cproc_unique, fun p => hinv.running_iff, hinv.chosen, hinv.assigned, ?_⟩
  intro c p q hc hx hzombie
  have hheld : s.holding c = some q := by
    rw [State.holding_inside hc, hx]
    rfl
  exact fun c' hc' => hinv.unengaged (State.acting_of hc (by rw [hx]; rfl)) hheld
    (by simp [hzombie]) c' (by rw [hc']; rfl)

/-- A timer interrupt takes the first process off one CPU, and another one chooses it. -/
def preemptRun : List (Act Unit) :=
  .replicate 5 (.sched 0) ++ [.thread 0 .go, .timer 0] ++ .replicate 3 (.thread 0 .go) ++
    .replicate 2 (.sched 0) ++ .replicate 5 (.sched 1)

theorem runs_on_one_cpu_preempted :
    ∃ s, run step (boot ()) preemptRun = .ok s ∧ s.cproc 1 = some 0 ∧
      ∀ c, s.cproc c = some 0 → c = 1 := by
  have hends : Ends (fun s : State Unit => s.cproc 1 = some 0)
      (run step (boot ()) preemptRun) := by decide +kernel
  obtain ⟨s, hrun, hcproc⟩ := hends.exists
  exact ⟨s, hrun, hcproc, fun c hc => (runs_on_one_cpu hrun).1 c 1 0 hc hcproc⟩

/-- `p->lock` excludes: no two CPUs are in code that it protects for the same process, and a slot
that `fork` is filling belongs to one caller and runs nowhere. -/
theorem plock_excludes {M : Type} {m : M} {as : List (Act M)} {s : State M}
    (h : run step (boot m) as = .ok s) :
    (∀ c c' q, s.holding c = some q → s.holding c' = some q → c = c') ∧
    ∀ t q, (s.point t).forking = some q → (∀ t', (s.point t').forking = some q → t' = t) ∧
      ∀ c, s.sched c ≠ .inside q := by
  obtain ⟨hinv, -⟩ := State.inv_run h
  refine ⟨fun c c' q hc hc' => ?_, fun t q hq => ⟨fun t' hq' => ?_, fun c hc => ?_⟩⟩
  · exact Option.some.inj ((hinv.locked c q hc).symm.trans (hinv.locked c' q hc'))
  · exact hinv.forker t' t q hq' hq
  · have hin := hinv.inside c q hc
    rw [hinv.forked t q hq] at hin
    simp [State.Parked] at hin

theorem plock_excludes_preempted : ∃ s, run step (boot ()) preemptRun = .ok s ∧
    ∀ c, s.holding c = some 0 → c = 1 := by
  have hends : Ends (fun s : State Unit => s.holding 1 = some 0)
      (run step (boot ()) preemptRun) := by decide +kernel
  obtain ⟨s, hrun, hheld⟩ := hends.exists
  exact ⟨s, hrun, fun c hc => (plock_excludes hrun).1 c 1 0 hc hheld⟩

end FogOS.Sched
