import FogOS.Sched.Locks

/-!
# Who runs where

At each point of a thread it is known which lock of the table the thread holds, and whether its
process is still `RUNNING`. The invariant is that these locks are held by the CPU of the thread,
that at most one CPU has a process between its two `swtch`, and that the state of a process
changes under its lock only. It follows that a process runs on one CPU, that only a `RUNNABLE`
process is chosen, and that `wait` frees a process whose stack no CPU uses.
-/

namespace FogOS.Sched

open Function Library Process Option

namespace Point

/-- The lock of the table that the thread of `p` holds at a point. -/
def held (p : Slot) : Point → Option Slot
  | unlockP q _ => some q
  | lockL _ next => held p next
  | unlockL _ next => held p next
  | wakeupAt _ q _ => some q
  | killAt _ q => some q
  | waitAt q => some q
  | allocAt q => some q
  | copying q => some q
  | setRunnable q => some q
  | readKilled _ _ => some p
  | setKilled => some p
  | yieldSet _ => some p
  | sleepSet _ _ _ => some p
  | sched _ => some p
  | tidyUp _ => some p
  | exitSet _ => some p
  | dead => some p
  | _ => none

/-- The thread has given up the state `RUNNING` and is about to leave the CPU. -/
def parking : Point → Bool
  | sched _ => true
  | unlockL _ next => parking next
  | _ => false

/-- The slot for which a thread is in `fork`. -/
def forking : Point → Option Slot
  | copying q => some q
  | setParent q => some q
  | setRunnable q => some q
  | lockP _ next => forking next
  | unlockP _ next => forking next
  | lockL _ next => forking next
  | unlockL _ next => forking next
  | yieldSet next => forking next
  | sched next => forking next
  | _ => none

/-- The locks that the statements of a thread acquire and release match. -/
def WellFormed (p : Slot) : Point → Prop
  | lockP q next => held p next = some q ∧ parking next = false ∧ WellFormed p next
  | unlockP _ next => held p next = none ∧ parking next = false ∧ WellFormed p next
  | lockL _ next => held p next = none ∧ parking next = false ∧ WellFormed p next
  | unlockL _ next => WellFormed p next
  | wakeup _ _ next =>
    held p next = none ∧ parking next = false ∧ forking next = none ∧ WellFormed p next
  | wakeupAt _ q next =>
    held p next = some q ∧ parking next = false ∧ forking next = none ∧ WellFormed p next
  | readKilled yes no =>
    (held p yes = none ∧ parking yes = false ∧ forking yes = none ∧ WellFormed p yes) ∧
      held p no = none ∧ parking no = false ∧ forking no = none ∧ WellFormed p no
  | sleepSet _ _ next =>
    held p next = none ∧ parking next = false ∧ forking next = none ∧ WellFormed p next
  | yieldSet next => held p next = none ∧ parking next = false ∧ WellFormed p next
  | sched next => held p next = some p ∧ parking next = false ∧ WellFormed p next
  | tidyUp next =>
    held p next = some p ∧ parking next = false ∧ forking next = none ∧ WellFormed p next
  | _ => True

/-- The statements of an interrupt handler. -/
def Handler : Point → Prop
  | run => True
  | lockP _ next => Handler next
  | unlockP _ next => Handler next
  | wakeup _ _ next => Handler next
  | wakeupAt _ _ next => Handler next
  | _ => False

theorem held_of_parking {p : Slot} {x : Point} (h : x.parking = true) : x.held p = some p := by
  induction x with
  | unlockL l next ih => exact ih h
  | sched next => rfl
  | _ => cases h

end Point

namespace SchedPoint

/-- The lock that `scheduler` holds at a point. -/
def held : SchedPoint → Option Slot
  | pick _ => none
  | test p => some p
  | choose p => some p
  | assign p => some p
  | switch p => some p
  | inside _ => none
  | back p => some p
  | drop p => some p

/-- The value of `c->proc` at a point. -/
def current : SchedPoint → Option Slot
  | switch p => some p
  | inside p => some p
  | back p => some p
  | _ => none

/-- The process that the CPU has taken and not yet given back. -/
def taken : SchedPoint → Option Slot
  | assign p => some p
  | switch p => some p
  | inside p => some p
  | back p => some p
  | _ => none

/-- The process on which something is known at a point. -/
def names : SchedPoint → Option Slot
  | choose p => some p
  | assign p => some p
  | switch p => some p
  | inside p => some p
  | back p => some p
  | _ => none

/-- The process whose state `scheduler` has set to `RUNNING`. -/
def running : SchedPoint → Option Slot
  | assign p => some p
  | switch p => some p
  | inside p => some p
  | _ => none

end SchedPoint

namespace State

variable {M : Type} {s s' : State M} {c c' : Cpu} {p q t : Slot} {x : Point}

/-- The lock of the table that the CPU holds, from where its control is. -/
def holding (s : State M) (c : Cpu) : Option Slot :=
  match s.sched c with
  | .inside p => (s.point p).held p
  | .pick _ => (s.irq c).held 0
  | x => x.held

/-- The states of a process that is about to leave its CPU, or has left it. -/
def Parked (x : ProcState) : Prop := x = .runnable ∨ x = .sleeping ∨ x = .zombie

structure Inv (s : State M) : Prop where
  wellFormed : ∀ p, (s.point p).WellFormed p
  handler : ∀ c, (s.irq c).Handler ∧ (s.irq c).WellFormed 0
  handlerIdle : ∀ c, (∀ i, s.sched c ≠ .pick i) → s.irq c = .run
  locked : ∀ c q, s.holding c = some q → s.plock q = some c
  inside : ∀ c p, s.sched c = .inside p →
    if (s.point p).parking = true then Parked (s.procs p).state else (s.procs p).state = .running
  chosen : ∀ c p, s.sched c = .choose p → (s.procs p).state = .runnable
  assigned : ∀ c p, s.sched c = .assign p ∨ s.sched c = .switch p → (s.procs p).state = .running
  given : ∀ c p, s.sched c = .back p → (s.procs p).state ≠ .running
  running : ∀ p, (s.procs p).state = .running → ∃ c, (s.sched c).running = some p
  unique : ∀ c c' p, (s.sched c).taken = some p → (s.sched c').taken = some p → c = c'
  ready : ∀ p, (s.procs p).state ≠ .unused → (∀ c, s.sched c ≠ .inside p) →
    (s.point p).held p = some p ∧ (s.point p).parking = false
  forked : ∀ t q, (s.point t).forking = some q → (s.procs q).state = .used
  forker : ∀ t t' q, (s.point t).forking = some q → (s.point t').forking = some q → t = t'
  current : ∀ c, s.cproc c = (s.sched c).current

section Frame

theorem holding_inside (hc : s.sched c = .inside t) : s.holding c = (s.point t).held t := by
  rw [holding, hc]

theorem holding_pick {i : Nat} (hc : s.sched c = .pick i) : s.holding c = (s.irq c).held 0 := by
  rw [holding, hc]

theorem Inv.sched_held (h : s.Inv) (hp : (s.sched c).held = some p) : s.plock p = some c := by
  refine h.locked c p ?_
  unfold holding
  cases hs : s.sched c with
  | pick i => simp [hs, SchedPoint.held] at hp
  | inside q => simp [hs, SchedPoint.held] at hp
  | _ =>
    rw [hs] at hp
    exact hp

/-- What the point of `scheduler` says about the process that it names. -/
def Fits (s : State M) : SchedPoint → Prop
  | .inside p =>
    if (s.point p).parking = true then Parked (s.procs p).state else (s.procs p).state = .running
  | .choose p => (s.procs p).state = .runnable
  | .assign p => (s.procs p).state = .running
  | .switch p => (s.procs p).state = .running
  | .back p => (s.procs p).state ≠ .running
  | _ => True

theorem Inv.fits (h : s.Inv) (c : Cpu) : s.Fits (s.sched c) := by
  cases hc : s.sched c with
  | inside p => exact h.inside c p hc
  | choose p => exact h.chosen c p hc
  | assign p => exact h.assigned c p (.inl hc)
  | switch p => exact h.assigned c p (.inr hc)
  | back p => exact h.given c p hc
  | _ => trivial

variable {y : SchedPoint}

theorem Fits.congr (h : s.Fits y) (hsame : ∀ p, y.names = some p →
    s'.point p = s.point p ∧ (s'.procs p).state = (s.procs p).state) : s'.Fits y := by
  cases y with
  | pick i => trivial
  | test p => trivial
  | drop p => trivial
  | inside p =>
    obtain ⟨hpoint, hstate⟩ := hsame p rfl
    simp only [Fits] at h ⊢
    rwa [hpoint, hstate]
  | _ p =>
    obtain ⟨_, hstate⟩ := hsame p rfl
    simp only [Fits] at h ⊢
    rwa [hstate]

/-- A process that runs is on no other CPU, and one that has been chosen is on none. -/
theorem Inv.names_unique (h : s.Inv) (hc : (s.sched c).names = some p)
    (hc' : (s.sched c').names = some p) : c = c' := by
  have hchoose : ∀ {c c'}, s.sched c = .choose p → (s.sched c').names = some p → c = c' := by
    intro c c' hc hc'
    have hlock : s.plock p = some c := h.sched_held (by rw [hc]; rfl)
    have hlock' : s.plock p = some c' := by
      cases hs : s.sched c' with
      | inside q =>
        rw [hs] at hc'
        cases hc'
        have hstate := h.inside c' p hs
        split at hstate
        · rename_i hpark
          exact h.locked c' p (by rw [holding_inside hs, Point.held_of_parking hpark])
        · rw [h.chosen c p hc] at hstate
          cases hstate
      | _ =>
        rw [hs] at hc'
        first
          | cases hc'; done
          | exact h.sched_held (by rw [hs]; exact hc')
    exact some.inj (hlock.symm.trans hlock')
  have htaken : ∀ {y : SchedPoint}, y.names = some p → y = .choose p ∨ y.taken = some p := by
    intro y hy
    cases y with
    | choose q =>
      cases hy
      exact .inl rfl
    | _ => exact .inr hy
  rcases htaken hc with hchosen | hc₁
  · exact hchoose hchosen hc'
  · rcases htaken hc' with hchosen | hc₂
    · exact (hchoose hchosen hc).symm
    · exact h.unique c c' p hc₁ hc₂

/-- What the invariant says about one CPU. -/
structure OnCpu (s : State M) (c : Cpu) : Prop where
  handler : (s.irq c).Handler ∧ (s.irq c).WellFormed 0
  handlerIdle : (∀ i, s.sched c ≠ .pick i) → s.irq c = .run
  locked : ∀ q, s.holding c = some q → s.plock q = some c
  fits : s.Fits (s.sched c)
  current : s.cproc c = (s.sched c).current

/-- A step changes the control of the CPU in `C` and one slot in `T` at most. -/
structure Moves (s s' : State M) (C : Option Cpu) (T : Option Slot) : Prop where
  cpus : ∀ c ∉ C, s'.sched c = s.sched c ∧ s'.irq c = s.irq c ∧ s'.cproc c = s.cproc c
  slots : ∀ q ∉ T, s'.point q = s.point q ∧ (s'.procs q).state = (s.procs q).state
  plock : ∀ c ∉ C, ∀ q, s.plock q = some c → s'.plock q = some c
  free : ∀ c ∉ C, ∀ q ∈ T, (s.sched c).names ≠ some q
  cpu : ∀ c ∈ C, s'.OnCpu c
  taken : ∀ c ∈ C, ∀ q ∉ T, (s'.sched c).taken = some q → (s.sched c).taken = some q
  kept : ∀ c ∈ C, ∀ q ∉ T, (s.sched c).running = some q → (s'.sched c).running = some q
  inside : ∀ c ∈ C, ∀ q ∉ T, s.sched c = .inside q → s'.sched c = .inside q
  wellFormed : ∀ q ∈ T, (s'.point q).WellFormed q
  running : ∀ q ∈ T, (s'.procs q).state = .running → ∃ c, (s'.sched c).running = some q
  ready : ∀ q ∈ T, (s'.procs q).state ≠ .unused → (∀ c, s'.sched c ≠ .inside q) →
    (s'.point q).held q = some q ∧ (s'.point q).parking = false
  forked : ∀ t ∈ T, ∀ q, (s'.point t).forking = some q → (s'.procs q).state = .used ∧
    ∀ t', t' ≠ t → (s.point t').forking ≠ some q
  used : ∀ q ∈ T, (s'.procs q).state = .used ∨ ∀ t ∉ T, (s.point t).forking ≠ some q

variable {C : Option Cpu} {T : Option Slot}

theorem Moves.names (m : Moves s s' C T) (hc : c ∉ C) (hp : (s.sched c).names = some p) : p ∉ T :=
  fun hT => m.free c hc p hT hp

theorem Moves.onCpu (m : Moves s s' C T) (h : s.Inv) (c : Cpu) : s'.OnCpu c := by
  by_cases hc : c ∈ C
  · exact m.cpu c hc
  · obtain ⟨hsched, hirq, hcproc⟩ := m.cpus c hc
    refine ⟨hirq ▸ h.handler c, fun hne => ?_, fun q hq => ?_, ?_, ?_⟩
    · rw [hirq]
      exact h.handlerIdle c (hsched ▸ hne)
    · refine m.plock c hc q (h.locked c q ?_)
      rw [← hq, holding, holding, hsched, hirq]
      cases hs : s.sched c with
      | inside p => simp only [(m.slots p (m.names hc (by rw [hs]; rfl))).1]
      | _ => rfl
    · rw [hsched]
      exact (h.fits c).congr fun p hp => m.slots p (m.names hc hp)
    · rw [hcproc, hsched]
      exact h.current c

theorem taken_names (hy : y.taken = some p) : y.names = some p := by
  cases y with
  | choose q => cases hy
  | _ => exact hy

theorem running_taken (hy : y.running = some p) : y.taken = some p := by
  cases y with
  | back q => cases hy
  | _ => exact hy

theorem Moves.inv (m : Moves s s' C T) (h : s.Inv) : s'.Inv := by
  have hcpu := m.onCpu h
  have hfits : ∀ {c y}, s'.sched c = y → s'.Fits y := fun hc => hc ▸ (hcpu _).fits
  refine ⟨fun p => ?_, fun c => (hcpu c).handler, fun c => (hcpu c).handlerIdle,
    fun c => (hcpu c).locked, fun c p => hfits, fun c p => hfits,
    fun c p hc => hc.elim hfits hfits, fun c p => hfits, fun p hp => ?_, ?_, fun p hp hin => ?_,
    fun t q hq => ?_, ?_, fun c => (hcpu c).current⟩
  · by_cases hp : p ∈ T
    · exact m.wellFormed p hp
    · rw [(m.slots p hp).1]
      exact h.wellFormed p
  · by_cases hT : p ∈ T
    · exact m.running p hT hp
    · rw [(m.slots p hT).2] at hp
      obtain ⟨c, hc⟩ := h.running p hp
      refine ⟨c, ?_⟩
      by_cases hC : c ∈ C
      · exact m.kept c hC p hT hc
      · rwa [(m.cpus c hC).1]
  · -- Only the CPU in `C` can have taken the process in `T`.
    have hback : ∀ {c p}, (s'.sched c).taken = some p → c ∈ C ∧ p ∈ T ∨
        (s.sched c).taken = some p ∧ (c ∉ C → p ∉ T) := by
      intro c p hp
      by_cases hC : c ∈ C
      · by_cases hT : p ∈ T
        · exact .inl ⟨hC, hT⟩
        · exact .inr ⟨m.taken c hC p hT hp, fun hno => absurd hC hno⟩
      · rw [(m.cpus c hC).1] at hp
        exact .inr ⟨hp, fun _ => m.names hC (taken_names hp)⟩
    intro c₁ c₂ p h₁ h₂
    by_cases hC : c₁ ∈ C ∧ c₂ ∈ C
    · exact mem_unique hC.1 hC.2
    · rcases hback h₁ with ⟨hC₁, hT⟩ | ⟨h₁', hT₁⟩
      · rcases hback h₂ with ⟨hC₂, _⟩ | ⟨_, hT₂⟩
        · exact absurd ⟨hC₁, hC₂⟩ hC
        · exact absurd hT (hT₂ fun hC₂ => hC ⟨hC₁, hC₂⟩)
      · rcases hback h₂ with ⟨hC₂, hT⟩ | ⟨h₂', _⟩
        · exact absurd hT (hT₁ fun hC₁ => hC ⟨hC₁, hC₂⟩)
        · exact h.unique c₁ c₂ p h₁' h₂'
  · by_cases hT : p ∈ T
    · exact m.ready p hT hp hin
    · rw [(m.slots p hT).2] at hp
      rw [(m.slots p hT).1]
      refine h.ready p hp fun c hc => hin c ?_
      by_cases hC : c ∈ C
      · exact m.inside c hC p hT hc
      · rwa [(m.cpus c hC).1]
  · by_cases ht : t ∈ T
    · exact (m.forked t ht q hq).1
    · rw [(m.slots t ht).1] at hq
      by_cases hT : q ∈ T
      · exact (m.used q hT).resolve_right fun hno => hno t ht hq
      · rw [(m.slots q hT).2]
        exact h.forked t q hq
  · intro t₁ t₂ q h₁ h₂
    by_cases hne : t₁ = t₂
    · exact hne
    by_cases ht₁ : t₁ ∈ T
    · have ht₂ : t₂ ∉ T := fun ht₂ => hne (mem_unique ht₁ ht₂)
      rw [(m.slots t₂ ht₂).1] at h₂
      exact absurd h₂ ((m.forked t₁ ht₁ q h₁).2 t₂ (Ne.symm hne))
    · rw [(m.slots t₁ ht₁).1] at h₁
      by_cases ht₂ : t₂ ∈ T
      · exact absurd h₁ ((m.forked t₂ ht₂ q h₂).2 t₁ hne)
      · rw [(m.slots t₂ ht₂).1] at h₂
        exact h.forker t₁ t₂ q h₁ h₂

theorem Inv.not_forked (h : s.Inv) (hq : (s.procs q).state ≠ .used) (t : Slot) :
    (s.point t).forking ≠ some q := fun ht => hq (h.forked t q ht)

theorem Inv.inside_ne_used (h : s.Inv) (hc : s.sched c = .inside t) :
    (s.procs t).state ≠ .used := by
  have hstate := h.inside c t hc
  split at hstate
  · rcases hstate with hst | hst | hst <;> simp [hst]
  · simp [hstate]

/-- A CPU that has a process moves on, and with it the thread and the state of this process. -/
theorem Inv.pair (h : s.Inv) (hc : (s.sched c).names = some t)
    (hused : (s.procs t).state ≠ .used) (hy : y.names = some t)
    (hsched : s'.sched = update s.sched c y)
    (hirq : s'.irq = s.irq) (hcproc : s'.cproc = update s.cproc c y.current)
    (hpoint : s'.point = update s.point t x)
    (hstate : ∀ q, q ≠ t → (s'.procs q).state = (s.procs q).state)
    (hplock : ∀ c' q, c' ≠ c → s.plock q = some c' → s'.plock q = some c')
    (hheld : ∀ q, s'.holding c = some q → s'.plock q = some c) (hfits : s'.Fits y)
    (hwf : x.WellFormed t) (hrunning : (s'.procs t).state = .running → y.running = some t)
    (hready : y ≠ .inside t → x.held t = some t ∧ x.parking = false)
    (hforked : ∀ q, x.forking = some q → (s.procs q).state = .used ∧
      ∀ t', t' ≠ t → (s.point t').forking ≠ some q) : s'.Inv := by
  have hself : s'.sched c = y := by rw [hsched, update_self]
  have hx : s'.point t = x := by rw [hpoint, update_self]
  have hm : Moves s s' (some c) (some t) := {
    cpus := fun c' hne => by
      have hcc : c' ≠ c := fun heq => hne (heq ▸ rfl)
      rw [hsched, hirq, hcproc, update_of_ne hcc, update_of_ne hcc]
      exact ⟨rfl, rfl, rfl⟩
    slots := fun q hq => by
      have hne : q ≠ t := fun heq => hq (heq ▸ rfl)
      exact ⟨by rw [hpoint, update_of_ne hne], hstate q hne⟩
    plock := fun c' hne q => hplock c' q fun heq => hne (heq ▸ rfl)
    free := by
      rintro c' hne _ ⟨⟩ hnames
      exact hne (h.names_unique hc hnames ▸ rfl)
    cpu := by
      rintro _ ⟨⟩
      refine ⟨hirq ▸ h.handler c, fun _ => ?_, hheld, hself ▸ hfits, ?_⟩
      · rw [hirq]
        refine h.handlerIdle c fun i hi => ?_
        rw [hi] at hc
        cases hc
      · rw [hcproc, hself, update_self]
    -- The CPU has no other process, before and after.
    taken := by
      rintro _ ⟨⟩ q hq htaken
      rw [hself] at htaken
      exact absurd (hy.symm.trans (taken_names htaken)) hq
    kept := by
      rintro _ ⟨⟩ q hq hrun
      exact absurd (hc.symm.trans (taken_names (running_taken hrun))) hq
    inside := by
      rintro _ ⟨⟩ q hq hin
      rw [hin] at hc
      exact absurd hc.symm hq
    wellFormed := by
      rintro _ ⟨⟩
      rwa [hx]
    running := by
      rintro _ ⟨⟩ hrun
      exact ⟨c, by rw [hself, hrunning hrun]⟩
    ready := by
      rintro _ ⟨⟩ _ hin
      rw [hx]
      exact hready fun heq => hin c (hself.trans heq)
    forked := by
      rintro _ ⟨⟩ q hq
      rw [hx] at hq
      obtain ⟨hst, hno⟩ := hforked q hq
      rw [hstate q fun heq => hused (heq ▸ hst)]
      exact ⟨hst, hno⟩
    used := by
      rintro _ ⟨⟩
      exact .inr fun t' _ => h.not_forked hused t' }
  exact hm.inv h

section

variable (h : s.Inv) (hc : s.sched c = .inside t) (hsched : s'.sched = s.sched)
  (hirq : s'.irq = s.irq) (hcproc : s'.cproc = s.cproc)

include h hc hsched hirq hcproc

/-- A statement of a thread that changes the state of its own process at most. -/
theorem Inv.thread
    (hpoint : s'.point = update s.point t x)
    (hstate : ∀ q, q ≠ t → (s'.procs q).state = (s.procs q).state)
    (hfits : if x.parking = true then Parked (s'.procs t).state else (s'.procs t).state = .running)
    (hplock : ∀ c' q, c' ≠ c → s.plock q = some c' → s'.plock q = some c')
    (hheld : ∀ q, x.held t = some q → s'.plock q = some c) (hwf : x.WellFormed t)
    (hforked : ∀ q, x.forking = some q → (s.procs q).state = .used ∧
      ∀ t', t' ≠ t → (s.point t').forking ≠ some q) : s'.Inv := by
  have hself : s'.point t = x := by rw [hpoint, update_self]
  have hcur := h.current c
  rw [hc] at hcur
  refine h.pair (c := c) (y := .inside t) (by rw [hc]; rfl) (h.inside_ne_used hc) rfl ?_ hirq ?_ hpoint
    hstate hplock ?_ ?_ hwf (fun _ => rfl) (fun hne => absurd rfl hne) hforked
  · rw [hsched, ← hc, update_eq_self]
  · rw [hcproc, ← hcur, update_eq_self]
  · intro q hq
    rw [holding_inside (hsched ▸ hc), hself] at hq
    exact hheld q hq
  · rw [Fits, hself]
    exact hfits

/-- A statement of a thread that keeps its locks. -/
theorem Inv.stay (hplock : s'.plock = s.plock) (hpoint : s'.point = update s.point t x)
    (hstate : ∀ q, (s'.procs q).state = (s.procs q).state) (hheld : x.held t = (s.point t).held t)
    (hwf : x.WellFormed t) (hparking : x.parking = (s.point t).parking)
    (hforking : ∀ q, x.forking = some q → (s.point t).forking = some q) : s'.Inv := by
  refine h.thread hc hsched hirq hcproc hpoint (fun q _ => hstate q) ?_ ?_ ?_ hwf ?_
  · rw [hparking, hstate]
    exact h.inside c t hc
  · intro c' q _ hq
    rwa [hplock]
  · intro q hq
    rw [hplock]
    refine h.locked c q ?_
    rw [holding_inside hc, ← hheld]
    exact hq
  · intro q hq
    exact ⟨h.forked t q (hforking q hq), fun t' ht hq' => ht (h.forker t' t q hq' (hforking q hq))⟩

end

/-- A slot that no CPU has changes its state and its thread. -/
theorem Inv.slot (h : s.Inv) (hnames : ∀ c, (s.sched c).names ≠ some q) (hsched : s'.sched = s.sched)
    (hirq : s'.irq = s.irq) (hcproc : s'.cproc = s.cproc) (hplock : s'.plock = s.plock)
    (hslots : ∀ p, p ≠ q → s'.point p = s.point p ∧ (s'.procs p).state = (s.procs p).state)
    (hwf : (s'.point q).WellFormed q) (hrunning : (s'.procs q).state ≠ .running)
    (hready : (s'.procs q).state ≠ .unused →
      (s'.point q).held q = some q ∧ (s'.point q).parking = false)
    (hforking : ∀ p, (s'.point q).forking = some p →
      (s'.procs p).state = .used ∧ (s.point q).forking = some p)
    (hused : (s'.procs q).state = .used ∨ ∀ t, (s.point t).forking ≠ some q) : s'.Inv := by
  have hm : Moves s s' none (some q) := {
    cpus := fun _ _ => by simp only [hsched, hirq, hcproc, and_self]
    slots := fun p hp => hslots p fun heq => hp (heq ▸ rfl)
    plock := fun _ _ _ => hplock ▸ id
    free := by
      rintro c _ _ ⟨⟩
      exact hnames c
    cpu := nofun
    taken := nofun
    kept := nofun
    inside := nofun
    wellFormed := by
      rintro _ ⟨⟩
      exact hwf
    running := by
      rintro _ ⟨⟩ hst
      exact absurd hst hrunning
    ready := by
      rintro _ ⟨⟩ hst _
      exact hready hst
    forked := by
      rintro _ ⟨⟩ p hp
      obtain ⟨hst, hold⟩ := hforking p hp
      exact ⟨hst, fun t ht ht' => ht (h.forker t q p ht' hold)⟩
    used := by
      rintro _ ⟨⟩
      exact hused.imp id fun hno t _ => hno t }
  exact hm.inv h

/-- The state of one process changes, and nothing else. -/
theorem Inv.change (h : s.Inv) {v : Proc} (hnames : ∀ c, (s.sched c).names ≠ some q)
    (hv : v.state ≠ .running)
    (hready : v.state ≠ .unused → (s.point q).held q = some q ∧ (s.point q).parking = false)
    (hfork : v.state = .used ∨ ∀ t, (s.point t).forking ≠ some q) : (s.setProc q v).Inv := by
  have hself : (s.setProc q v).procs q = v := update_self ..
  have hother : ∀ p, p ≠ q → (s.setProc q v).procs p = s.procs p := fun p hp =>
    update_of_ne hp _ _
  refine h.slot hnames rfl rfl rfl rfl (fun p hp => ⟨rfl, by rw [hother p hp]⟩) (h.wellFormed q)
    (by rwa [hself]) (by rwa [hself]) (fun p hp => ⟨?_, hp⟩) (by rwa [hself])
  by_cases hpq : p = q
  · subst hpq
    rw [hself]
    exact hfork.resolve_right fun hno => hno p hp
  · rw [hother p hpq]
    exact h.forked q p hp

end Frame

section Bodies

/-- What runs on the CPU can change the processes whose lock it holds. -/
def Acting (s : State M) (c : Cpu) : Prop :=
  (∃ i, s.sched c = .pick i) ∨ ∃ t, s.sched c = .inside t ∧ (s.point t).parking = false

/-- A process that does not run and whose lock another thread holds is on no CPU. -/
theorem Inv.unengaged (h : s.Inv) (hc : s.Acting c) (hq : s.holding c = some q)
    (hst : (s.procs q).state ≠ .running) (c' : Cpu) : (s.sched c').names ≠ some q := by
  intro hnames
  -- The CPU that has the process would hold its lock too.
  have hlock : s.plock q = some c' ∧ ∀ t, s.sched c' = .inside t → (s.point t).parking = true := by
    cases hs : s.sched c' with
    | inside t =>
      rw [hs] at hnames
      cases hnames
      have hstate := h.inside c' q hs
      split at hstate
      · rename_i hpark
        refine ⟨h.locked c' q (by rw [holding_inside hs, Point.held_of_parking hpark]), ?_⟩
        rintro t ⟨⟩
        exact hpark
      · exact absurd hstate hst
    | _ =>
      rw [hs] at hnames
      first
        | cases hnames; done
        | exact ⟨h.sched_held (by rw [hs]; exact hnames), nofun⟩
  have hcc : c' = c := some.inj (hlock.1.symm.trans (h.locked c q hq))
  subst hcc
  rcases hc with ⟨i, hi⟩ | ⟨t, ht, hp⟩
  · rw [hi] at hnames
    cases hnames
  · rw [hlock.2 t ht] at hp
    cases hp

theorem Inv.outside (h : s.Inv) (hnames : ∀ c, (s.sched c).names ≠ some q) (hq : (s.procs q).state ≠ .unused) :
    (s.point q).held q = some q ∧ (s.point q).parking = false :=
  h.ready q hq fun c hc => hnames c (by rw [hc]; rfl)

/-- `SLEEPING` becomes `RUNNABLE` under the lock of the process. -/
theorem Inv.wake (h : s.Inv) (hc : s.Acting c) (hq : s.holding c = some q) {v : Proc}
    (hst : (s.procs q).state = .sleeping) (hv : v.state = .runnable) : (s.setProc q v).Inv := by
  have hnames := h.unengaged hc hq (by simp [hst])
  exact h.change hnames (by simp [hv]) (fun _ => h.outside hnames (by simp [hst]))
    (.inr (h.not_forked (by simp [hst])))

theorem Inv.wakeSlot (h : s.Inv) (hc : s.Acting c) (hq : s.holding c = some q)
    (chan : Option Chan) : (s.wakeSlot chan q).Inv := by
  rw [State.wakeSlot]
  split
  · rename_i hg
    exact h.wake hc hq hg.1 rfl
  · exact h

/-- Fields other than the state. -/
theorem Inv.fields (h : s.Inv) {v : Proc} (hv : v.state = (s.procs q).state) :
    (s.setProc q v).Inv := by
  have hstate : ∀ p, ((s.setProc q v).procs p).state = (s.procs p).state := by
    intro p
    by_cases hp : p = q
    · subst hp
      simpa [setProc] using hv
    · simp [setProc, hp]
  refine ⟨h.wellFormed, h.handler, h.handlerIdle, h.locked, ?_, ?_, ?_, ?_, ?_, h.unique, ?_, ?_,
    h.forker, h.current⟩
  · intro c p hp
    rw [hstate]
    exact h.inside c p hp
  · intro c p hp
    rw [hstate]
    exact h.chosen c p hp
  · intro c p hp
    rw [hstate]
    exact h.assigned c p hp
  · intro c p hp
    rw [hstate]
    exact h.given c p hp
  · intro p hp
    rw [hstate] at hp
    exact h.running p hp
  · intro p hp
    rw [hstate] at hp
    exact h.ready p hp
  · intro t p hp
    rw [hstate]
    exact h.forked t p hp

section

variable (h : s.Inv) (hc : s.Acting c) (hq : s.holding c = some q)

include h hc hq

theorem Inv.killSlot : (s.killSlot q).Inv := by
  have hmark : (s.setProc q { s.procs q with killed := true }).Inv := h.fields rfl
  simp only [State.killSlot]
  split
  · rename_i hst
    exact hmark.wake hc hq hst rfl
  · exact hmark

theorem Inv.freeproc (hst : (s.procs q).state ≠ .running)
    (hfork : ∀ t, (s.point t).forking ≠ some q) : (s.freeproc q).Inv :=
  h.change (h.unengaged hc hq hst) (by simp [Proc.zero]) (fun hne => absurd rfl hne) (.inr hfork)

/-- The end of `fork`. -/
theorem Inv.makeRunnable (hst : (s.procs q).state = .used)
    (hfork : ∀ t, (s.point t).forking ≠ some q) : (s.setState q .runnable).Inv := by
  have hnames := h.unengaged hc hq (by simp [hst])
  exact h.change hnames nofun (fun _ => h.outside hnames (by simp [hst])) (.inr hfork)

/-- `allocproc` takes an unused slot and prepares its thread. -/
theorem Inv.allocSlot (hst : (s.procs q).state = .unused) : (s.allocSlot q).Inv := by
  have hself : (s.allocSlot q).point q = .forkret q := update_self ..
  have hstate : ((s.allocSlot q).procs q).state = .used := by
    simp [State.allocSlot, setProc]
  refine h.slot (h.unengaged hc hq (by simp [hst])) rfl rfl rfl rfl (fun p hp => ⟨?_, ?_⟩) ?_
    (by simp [hstate]) (fun _ => ?_) ?_ (.inl hstate)
  · exact update_of_ne hp _ _
  · simp [State.allocSlot, setProc, update_of_ne hp]
  · rw [hself]
    simp [Point.forkret, Point.WellFormed, Point.held, Point.parking]
  · rw [hself]
    exact ⟨rfl, rfl⟩
  · rw [hself]
    nofun

end

/-- A thread that runs and holds its own lock gives up the state `RUNNING`. -/
theorem Inv.park (h : s.Inv) (hc : s.sched c = .inside p) (hheld : (s.point p).held p = some p)
    {v : Proc} (hv : Parked v.state) (hx : x.parking = true) (hwf : x.WellFormed p)
    (hfork : ∀ q, x.forking = some q → (s.point p).forking = some q) :
    ((s.setProc p v).setPoint p x).Inv := by
  have hself : ((s.setProc p v).setPoint p x).procs p = v := update_self ..
  refine h.thread hc rfl rfl rfl rfl (fun q hq => ?_) ?_ (fun _ _ _ hq => hq) (fun q hq => ?_) hwf
    fun q hq => ?_
  · simp [setPoint, setProc, update_of_ne hq]
  · rw [hx, hself]
    exact hv
  · rw [Point.held_of_parking hx] at hq
    cases hq
    exact h.locked c p (by rw [holding_inside hc, hheld])
  · exact ⟨h.forked p q (hfork q hq), fun t ht ht' => ht (h.forker t p q ht' (hfork q hq))⟩

end Bodies

end State

end FogOS.Sched
