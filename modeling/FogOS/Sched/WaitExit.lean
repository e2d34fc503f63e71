import FogOS.Sched.Monitor

/-!
# `wait` and `exit` use `wait_lock` as a monitor

The condition of the monitor of a process is that it has a `ZOMBIE` child. `exit` calls `wakeup`
before it sets `ZOMBIE`, and `reparent` after it has given a child to the first process; both
hold `wait_lock` all the time. `wait` goes through the table with `wait_lock` held before it
sleeps.
-/

namespace FogOS.Sched

open Function Library Process

variable {M : Type}

/-- Where a thread is between `acquire(&wait_lock)` and `release(&wait_lock)`: in `wait`, with
the number of slots that it has seen; in `exit`, with the channel and the progress of `wakeup`
and whether `reparent` is over; or in `fork`. -/
inductive Sect
  | waiting (i : Nat)
  | exiting (scan : Option (Option Chan × Nat)) (last : Bool)
  | forking
  deriving DecidableEq

/-- The progress of `wakeup` in `exit`. -/
def Sect.rouse (chan : Option Chan) (i : Nat) : Option Sect → Option Sect
  | some (.exiting _ last) => some (.exiting (some (chan, i)) last)
  | x => x

namespace Point

def sect : Point → Option Sect
  | wait i _ => some (.waiting i)
  | waitAt q => some (.waiting q.val)
  | reparent _ _ => some (.exiting none false)
  | exitSet _ => some (.exiting none true)
  | setParent _ => some .forking
  | lockP _ next => sect next
  | unlockP _ next => sect next
  | unlockL _ (sleepSet (.proc _) _ _) => some (.waiting nproc)
  | wakeup chan i next => Sect.rouse chan i (sect next)
  | wakeupAt chan q next => Sect.rouse chan q.val (sect next)
  | readKilled _ no => sect no
  | _ => none

/-- How the calls of `fork`, `exit` and `wait` use `wait_lock`. -/
def Shape (p : Slot) : Point → Prop
  | lockP _ next => Shape p next
  | unlockP _ next => Shape p next
  | lockL l next => (next.sect = none ∨ l = .wait ∧ (next.sect = some (.waiting 0) ∨
      next.sect = some (.exiting none false) ∨ next.sect = some .forking)) ∧ Shape p next
  | unlockL l next => next.sect = none ∧
      (∀ t, next.asleep = some (.proc t) → t = p ∧ l = .wait) ∧ Shape p next
  | wakeup _ _ next =>
    (next.sect = none ∨ ∃ last, next.sect = some (.exiting none last)) ∧ Shape p next
  | wakeupAt chan q next => (next.sect = none ∨
      ∃ last, next.sect = some (.exiting (some (chan, q.val + 1)) last)) ∧ Shape p next
  | readKilled yes no => yes.sect = none ∧ (no.sect = none ∨ no.sect = some (.waiting nproc)) ∧
      Shape p yes ∧ Shape p no
  | yieldSet next => next.sect = none ∧ Shape p next
  | sched next => next.sect = none ∧ Shape p next
  | tidyUp next => next.sect = none ∧ Shape p next
  | sleepSet _ l next => (next.sect = none ∨ l = .wait ∧ (next.sect = some (.waiting 0) ∨
      next.sect = some (.exiting none false) ∨ next.sect = some .forking)) ∧ Shape p next
  | _ => True

theorem sect_unlockL {l : Lock} {next : Point} (h : (unlockL l next).sect ≠ none) :
    ∃ t, next.asleep = some (.proc t) ∧ (unlockL l next).sect = some (.waiting nproc) := by
  cases next with
  | sleepSet chan l' next' =>
    cases chan with
    | proc t => exact ⟨t, rfl, rfl⟩
    | other addr => exact absurd rfl h
  | _ => exact absurd rfl h

/-- A call of `sleep` on the channel of a process is the one of its own `wait`. -/
theorem sect_of_enters {p t : Slot} {l : Lock} {x : Point} (h : x.enters = some (.proc t, l))
    (hx : x.Shape p) : x.sect = some (.waiting nproc) ∧ t = p ∧ l = .wait := by
  have hrelease : ∀ {l' : Lock} {next : Point}, (unlockL l' next).enters = some (.proc t, l) →
      (unlockL l' next).Shape p →
        (unlockL l' next).sect = some (.waiting nproc) ∧ t = p ∧ l = .wait := by
    intro l' next h hx
    cases next with
    | sleepSet chan l'' next' =>
      cases h
      exact ⟨rfl, hx.2.1 t rfl⟩
    | _ => cases h
  cases x with
  | lockP q next =>
    cases next with
    | unlockL l' next' => exact hrelease (by cases next' <;> exact h) hx
    | _ => cases h
  | unlockL l' next => exact hrelease h hx
  | _ => cases h

theorem parking_of_sect {x : Point} (hx : x.sect ≠ none) : x.parking = false := by
  cases x with
  | unlockL l next =>
    obtain ⟨t, hnext, _⟩ := sect_unlockL hx
    cases next with
    | sleepSet _ _ _ => rfl
    | _ => cases hnext
  | sched next => exact absurd rfl hx
  | _ => rfl

end Point

section Flow

variable {s : State M} {c : Cpu} {p : Slot} {x y : Point}

theorem Starts.shape (h : Starts p x) : x.Shape p := by
  cases h with
  | sleep addr l => simp [Point.Shape, Point.sleep, Point.sect, Point.asleep]
  | loop l => cases l <;> simp [Point.Shape, Point.sect]
  | _ => simp [Point.Shape, Point.sect]

section

variable (h : Goes s c p x y) (hx : x.Shape p)

include h hx

theorem Goes.shape (htimer : s.noff c = 0 → x.sect = none) : y.Shape p := by
  cases h with
  | call hstart => exact hstart.shape
  | lockP q next => exact hx
  | unlockP q next => exact hx
  | lockL l next => exact hx.2
  | unlockL l next => exact hx.2.2
  | wakeupSelf chan hi next hself => exact hx
  | wakeupLook chan hi next =>
    refine ⟨?_, hx⟩
    rcases hx.1 with hnone | ⟨last, hlast⟩
    · exact .inl (by simp [Point.sect, hnone, Sect.rouse])
    · exact .inr ⟨last, by simp [Point.sect, hlast, Sect.rouse]⟩
  | wakeupDone chan hi next => exact hx.2
  | wakeupAt chan q next => exact hx.2
  | readYes yes no => exact hx.2.2.1
  | readNo yes no hkilled => exact hx.2.2.2
  | yieldSet next => exact hx
  | sleepSet chan l next => exact ⟨rfl, rfl, hx⟩
  | sched next hlock hnoff => exact hx.2
  | tidyUp next => exact hx.2
  | timer x hnoff => exact ⟨htimer hnoff, hx⟩
  | loopSleep l =>
    cases l <;> simp [Point.Shape, Point.killed, Point.sleep, Point.sect, Point.asleep, Loop.chan,
      nreadChan, nwriteChan, consChan, ticksChan]
  | fullSleep pi =>
    simp [Point.Shape, Point.sleep, Point.sect, Point.asleep, nwriteChan]
  | _ => simp [Point.Shape, Point.killed, Point.sleep, Point.sect, Point.asleep]

/-- How a statement of the thread of `p` that goes from `x` to `y` moves it in the sections of
`wait_lock`. -/
inductive SectGoes (s : State M) (c : Cpu) (p : Slot) (x y : Point) :
    Option Sect → Option Sect → Prop
  | out {a : Option Sect}
      (h : ∀ scan last, a = some (.exiting (some scan) last) → s.noff c = 0) :
      SectGoes s c p x y a none
  | stay (a : Option Sect) : SectGoes s c p x y a a
  | enter {b : Sect} (hx : x = .lockL .wait y)
      (hb : b = .waiting 0 ∨ b = .exiting none false ∨ b = .forking) :
      SectGoes s c p x y none (some b)
  /-- `wait` passes a slot when it is not a child of the caller or not a `ZOMBIE`. -/
  | scan {i j : Nat} (h : ∀ q : Slot, q.val < i → q.val < j ∨ (s.procs q).parent ≠ some p ∨
      (s.procs q).state ≠ .zombie) :
      SectGoes s c p x y (some (.waiting j)) (some (.waiting i))
  /-- The last `wakeup` of `exit` is on the parent. -/
  | rouse {chan : Option Chan} {last : Bool}
      (h : last = true → (∃ i status, x = .reparent i status ∧ ¬i < nproc) ∧
        chan = (s.procs p).parent.map .proc) :
      SectGoes s c p x y (some (.exiting none false)) (some (.exiting (some (chan, 0)) last))
  /-- `wakeup` passes a slot when it looks at it. -/
  | pass {chan : Option Chan} {i j : Nat} {last : Bool}
      (h : ∀ q : Slot, q.val < i → q.val < j ∨
        (∃ next, x = .wakeup chan q.val next ∧ s.cproc c = some q) ∨
        ∃ next, x = .wakeupAt chan q next) :
      SectGoes s c p x y (some (.exiting (some (chan, j)) last))
        (some (.exiting (some (chan, i)) last))
  | passed {chan : Option Chan} {j : Nat} {last : Bool} (hj : nproc ≤ j) :
      SectGoes s c p x y (some (.exiting (some (chan, j)) last)) (some (.exiting none last))

theorem Goes.sect : SectGoes s c p x y x.sect y.sect := by
  cases h with
  | call hstart => cases hstart <;> exact .stay none
  | lockP q next => exact .stay _
  | unlockP q next => exact .stay _
  | lockL l next =>
    rcases hx.1 with hnone | ⟨rfl, hnext⟩
    · rw [hnone]
      exact .stay none
    · rcases hnext with hnext | hnext | hnext <;>
      · rw [hnext]
        exact .enter rfl (by simp)
  | unlockL l next =>
    rw [hx.1]
    refine .out fun scan last ha => ?_
    obtain ⟨t, _, hwait⟩ := Point.sect_unlockL (by rw [ha]; nofun)
    rw [hwait] at ha
    cases ha
  | @wakeupSelf chan j hi next hself =>
    rcases hx.1 with hnext | ⟨last, hnext⟩ <;> simp only [Point.sect, hnext, Sect.rouse]
    · exact .stay none
    · refine .pass fun q hq => ?_
      rcases Nat.lt_succ_iff_lt_or_eq.1 hq with hlt | heq
      · exact .inl hlt
      · have hqj : q = ⟨j, hi⟩ := Fin.ext heq
        subst hqj
        exact .inr (.inl ⟨next, rfl, hself.symm⟩)
  | wakeupLook chan hi next =>
    rcases hx.1 with hnext | ⟨last, hnext⟩ <;> simp only [Point.sect, hnext, Sect.rouse]
    · exact .stay none
    · exact .pass fun q hq => .inl hq
  | wakeupDone chan hi next =>
    rcases hx.1 with hnext | ⟨last, hnext⟩ <;> simp only [Point.sect, hnext, Sect.rouse]
    · exact .stay none
    · exact .passed (not_lt.1 hi)
  | wakeupAt chan r next =>
    rcases hx.1 with hnext | ⟨last, hnext⟩ <;> simp only [Point.sect, hnext, Sect.rouse]
    · exact .stay none
    · refine .pass fun q hq => ?_
      rcases Nat.lt_succ_iff_lt_or_eq.1 hq with hlt | heq
      · exact .inl hlt
      · have hqr : q = r := Fin.ext heq
        subst hqr
        exact .inr (.inr ⟨_, rfl⟩)
  | readYes yes no =>
    show SectGoes s c p _ _ no.sect yes.sect
    rw [hx.1]
    refine .out fun scan last ha => ?_
    rcases hx.2.1 with hno | hno <;> simp [hno] at ha
  | readNo yes no hkilled => exact .stay _
  | sched next hlock hnoff =>
    rw [hx.1]
    exact .stay none
  | tidyUp next =>
    rw [hx.1]
    exact .stay none
  | reparentTo status hi => exact .rouse nofun
  | reparentNext status hi hparent => exact .stay _
  | reparented status hi => exact .rouse fun _ => ⟨⟨_, _, rfl, hi⟩, rfl⟩
  | exitSet status => exact .out nofun
  | waitLook havekids hi => exact .stay _
  | @waitSkip j havekids hi hparent =>
    refine .scan fun q hq => ?_
    rcases Nat.lt_succ_iff_lt_or_eq.1 hq with hlt | heq
    · exact .inl hlt
    · have hqj : q = ⟨j, hi⟩ := Fin.ext heq
      subst hqj
      exact .inr (.inl hparent)
  | waitNone i havekids => exact .out nofun
  | waitSleep havekids hi =>
    exact .scan fun q hq => .inl (lt_of_lt_of_le hq (not_lt.1 hi))
  | waitFound q v => exact .out nofun
  | waitNext r hstate =>
    refine .scan fun q hq => ?_
    rcases Nat.lt_succ_iff_lt_or_eq.1 hq with hlt | heq
    · exact .inl hlt
    · have hqr : q = r := Fin.ext heq
      subst hqr
      exact .inr (.inr hstate)
  | setParent q => exact .out nofun
  | loopSleep l => cases l <;> exact .stay none
  | timer x hnoff => exact .out fun _ _ _ => hnoff
  | _ => exact .stay none

/-- A thread enters a section of `wait_lock` when it acquires the lock. -/
theorem Goes.sect_ne_none (hy : y.sect ≠ none) : x.sect ≠ none ∨ x = .lockL .wait y := by
  have hsect := h.sect hx
  generalize x.sect = a at hsect
  generalize y.sect = b at hsect hy
  cases hsect with
  | out _ => exact absurd rfl hy
  | stay _ => exact .inl hy
  | enter hx _ => exact .inr hx
  | _ => exact .inl nofun

theorem Goes.waiting {i : Nat} (hy : y.sect = some (.waiting i)) {q : Slot} (hq : q.val < i) :
    (∃ j, x.sect = some (.waiting j) ∧ q.val < j) ∨ (s.procs q).parent ≠ some p ∨
      (s.procs q).state ≠ .zombie := by
  have hsect := h.sect hx
  rw [hy] at hsect
  generalize x.sect = a at hsect
  cases hsect with
  | stay _ => exact .inl ⟨i, rfl, hq⟩
  | enter _ hb =>
    rcases hb with hb | hb | hb <;> cases hb
    exact absurd hq (Nat.not_lt_zero _)
  | scan hscan => exact (hscan q hq).imp (fun hlt => ⟨_, rfl, hlt⟩) id

theorem Goes.exiting_scan {chan : Option Chan} {i : Nat}
    {last : Bool} (hy : y.sect = some (.exiting (some (chan, i)) last)) {q : Slot}
    (hq : q.val < i) : (∃ j, x.sect = some (.exiting (some (chan, j)) last) ∧ q.val < j) ∨
      (∃ next, x = .wakeup chan q.val next ∧ s.cproc c = some q) ∨
      ∃ next, x = .wakeupAt chan q next := by
  have hsect := h.sect hx
  rw [hy] at hsect
  generalize x.sect = a at hsect
  cases hsect with
  | stay _ => exact .inl ⟨i, rfl, hq⟩
  | enter _ hb => rcases hb with hb | hb | hb <;> cases hb
  | rouse _ => exact absurd hq (Nat.not_lt_zero _)
  | pass hpass => exact (hpass q hq).imp (fun hlt => ⟨_, rfl, hlt⟩) id

/-- After the last `wakeup` of `exit` the whole table has been passed. -/
theorem Goes.exiting_last
    {scan : Option (Option Chan × Nat)} (hy : y.sect = some (.exiting scan true)) :
    ((∃ i status, x = .reparent i status ∧ ¬i < nproc) ∧
        scan = some ((s.procs p).parent.map .proc, 0)) ∨
      (∃ chan j i, x.sect = some (.exiting (some (chan, j)) true) ∧ scan = some (chan, i)) ∨
      (x.sect = some (.exiting none true) ∧ scan = none) ∨
      ∃ chan j, x.sect = some (.exiting (some (chan, j)) true) ∧ nproc ≤ j ∧ scan = none := by
  have hsect := h.sect hx
  rw [hy] at hsect
  generalize x.sect = a at hsect
  cases hsect with
  | stay _ =>
    cases scan with
    | none => exact .inr (.inr (.inl ⟨rfl, rfl⟩))
    | some v => exact .inr (.inl ⟨v.1, v.2, v.2, rfl, rfl⟩)
  | enter _ hb => rcases hb with hb | hb | hb <;> cases hb
  | rouse hlast =>
    obtain ⟨hx, rfl⟩ := hlast rfl
    exact .inl ⟨hx, rfl⟩
  | pass _ => exact .inr (.inl ⟨_, _, _, rfl, rfl⟩)
  | passed hj => exact .inr (.inr (.inr ⟨_, _, rfl, hj, rfl⟩))

/-- `wakeup` in `exit` goes on until it has passed the whole table. -/
theorem Goes.exiting_next {chan : Option Chan} {i : Nat}
    {last : Bool} (hsect : x.sect = some (.exiting (some (chan, i)) last)) :
    (∃ j, y.sect = some (.exiting (some (chan, j)) last)) ∨ nproc ≤ i ∨ s.noff c = 0 := by
  have hgoes := h.sect hx
  rw [hsect] at hgoes
  generalize y.sect = b at hgoes
  cases hgoes with
  | out hout => exact .inr (.inr (hout _ _ rfl))
  | stay _ => exact .inl ⟨i, rfl⟩
  | pass _ => exact .inl ⟨_, rfl⟩
  | passed hj => exact .inr (.inl hj)

end

end Flow

/-- A thread in a section of `wait_lock` runs and holds the lock, and `wait` has found no
`ZOMBIE` child in the slots it has passed. -/
structure Sections (s : State M) : Prop where
  shape : ∀ p, (s.point p).Shape p
  held : ∀ p, (s.point p).sect ≠ none → ∃ c, s.sched c = .inside p ∧ s.lock .wait = some c
  scanned : ∀ p i, (s.point p).sect = some (.waiting i) → ∀ q : Slot, q.val < i →
    (s.procs q).parent ≠ some p ∨ (s.procs q).state ≠ .zombie

namespace Sections

variable {s s' : State M} {a : Act M} {p q t : Slot}

theorem boot (m : M) : Sections (boot m) where
  shape _ := trivial
  held _ h := absurd rfl h
  scanned _ _ h := by cases h

section

variable (h : Sections s)

include h

theorem held_inside (hinv : s.Inv) {c : Cpu} (hc : s.sched c = .inside p)
    (hp : (s.point p).sect ≠ none) : s.lock .wait = some c := by
  obtain ⟨c', hc', hlock⟩ := h.held p hp
  rwa [hinv.unique c c' p (by rw [hc]; rfl) (by rw [hc']; rfl)]

/-- A section is on the CPU that holds the lock. -/
theorem same {c : Cpu} (hc : s.sched c = .inside p)
    (hlock : s.lock .wait = some c) (hq : (s.point q).sect ≠ none) : p = q := by
  obtain ⟨c', hc', hlock'⟩ := h.held q hq
  have hcc : c' = c := Option.some.inj (hlock'.symm.trans hlock)
  rw [hcc, hc] at hc'
  exact SchedPoint.inside.inj hc'

theorem running (hinv : s.Inv) (hp : (s.point p).sect ≠ none) : (s.procs p).state = .running := by
  obtain ⟨c, hc, _⟩ := h.held p hp
  simpa [Point.parking_of_sect hp] using hinv.inside c p hc

/-- A process becomes a `ZOMBIE` child of another in `exit`: at the end, or in `reparent`. -/
theorem raise (hinv : s.Inv) (hs : step s a = .ok s')
    (hparent : (s'.procs q).parent = some t) (hstate : (s'.procs q).state = .zombie) :
    ((s.procs q).parent = some t ∧ (s.procs q).state = .zombie) ∨ s.lock .wait = some a.cpu ∧
        ((s.sched a.cpu = .inside q ∧ (∃ status, s.point q = .exitSet status) ∧
          (s.procs q).parent = some t) ∨
        ∃ p status, s.sched a.cpu = .inside p ∧ s.point p = .reparent q.val status ∧
          (s.procs q).parent = some p ∧ s.initproc = some t) := by
  have hchange := State.step_change hs q
  generalize s'.procs q = v at hchange hparent hstate
  cases hchange with
  | same => exact .inl ⟨hparent, hstate⟩
  | kill p hc hx =>
    split at hstate
    · cases hstate
    · exact .inl ⟨hparent, hstate⟩
  | setKilled hc hx => exact .inl ⟨hparent, hstate⟩
  | tidyUp next hc hx => exact .inl ⟨hparent, hstate⟩
  | reparent p status hc hx hp =>
    exact .inr ⟨h.held_inside hinv hc (by rw [hx]; nofun), .inr ⟨p, status, hc, hx, hp, hparent⟩⟩
  | exitSet status hc hx =>
    exact .inr ⟨h.held_inside hinv hc (by rw [hx]; nofun), .inl ⟨hc, ⟨status, hx⟩, hparent⟩⟩
  | setParent p hc hx =>
    have hused := hinv.forked p q (by rw [hx]; rfl)
    rw [show (s.procs q).state = .zombie from hstate] at hused
    cases hused
  | _ => cases hstate

theorem shape_step (hinv : s.Inv ∧ s.Counted) (hs : step s a = .ok s')
    (p : Slot) : (s'.point p).Shape p := by
  by_cases hc : s.sched a.cpu = .inside p
  · refine (State.step_goes hc hs).shape (h.shape p) fun hzero => ?_
    by_contra hp
    exact hinv.2.free_lock hzero .wait (h.held_inside hinv.1 hc hp)
  · rcases State.step_point hs hc with hsame | ⟨hfork, _⟩
    · rw [hsame]
      exact h.shape p
    · rw [hfork]
      trivial

theorem held_step (hinv : s.Inv) (hs : step s a = .ok s') (p : Slot)
    (hp : (s'.point p).sect ≠ none) : ∃ c, s'.sched c = .inside p ∧ s'.lock .wait = some c := by
  by_cases hc : s.sched a.cpu = .inside p
  · have hgoes := State.step_goes hc hs
    have hshape := h.shape p
    rcases hgoes.sect_ne_none hshape hp with hold | hx
    · refine ⟨a.cpu, (State.step_inside hs hc).resolve_right ?_, ?_⟩
      · rintro ⟨_, next, hx⟩
        rw [hx] at hold
        exact hold rfl
      · rcases (State.step_locks hs).lock_own (h.held_inside hinv hc hold) with hkept | ⟨_, _, hx⟩
        · exact hkept
        · exfalso
          rw [State.control_inside hc] at hx
          generalize s'.point p = y at hgoes hp
          rcases hx with hx | ⟨next, hx⟩
          · rw [hx] at hold
            exact hold rfl
          · rw [hx] at hgoes hshape
            cases hgoes with
            | unlockL _ _ => exact hp hshape.1
            | timer _ _ => exact hp rfl
    · refine ⟨a.cpu, (State.step_inside hs hc).resolve_right ?_, ?_⟩
      · rintro ⟨_, next, hx'⟩
        rw [hx] at hx'
        cases hx'
      · refine (State.step_lockL hc hx hs).resolve_right fun htimer => ?_
        rw [htimer] at hp
        exact hp rfl
  · rcases State.step_point hs hc with hsame | ⟨hfork, _⟩
    · rw [hsame] at hp
      obtain ⟨c, hc', hlock⟩ := h.held p hp
      have hne : c ≠ a.cpu := by
        rintro rfl
        exact hc hc'
      exact ⟨c, (State.step_inside hs hc').resolve_right fun hcc => hne hcc.1,
        (State.step_locks hs).lock_other hlock hne⟩
    · rw [hfork] at hp
      exact absurd rfl hp

theorem scanned_step (hinv : s.Inv) (hs : step s a = .ok s') (p : Slot) (i : Nat)
    (hp : (s'.point p).sect = some (.waiting i)) (q : Slot) (hq : q.val < i) :
    (s'.procs q).parent ≠ some p ∨ (s'.procs q).state ≠ .zombie := by
  by_contra hboth
  simp only [ne_eq, not_or, not_not] at hboth
  by_cases hc : s.sched a.cpu = .inside p
  · have hgoes := State.step_goes hc hs
    rcases h.raise hinv hs hboth.1 hboth.2 with hold | ⟨_, ⟨hc', ⟨status, hx⟩, _⟩ |
      ⟨p', status, hc', hx, _⟩⟩
    · rcases hgoes.waiting (h.shape p) hp hq with ⟨j, hj, hqj⟩ | hno | hno
      · exact (h.scanned p j hj q hqj).elim (fun hno => hno hold.1) fun hno => hno hold.2
      · exact hno hold.1
      · exact hno hold.2
    · rw [hc] at hc'
      cases hc'
      rw [hx] at hgoes
      generalize s'.point p = y at hgoes hp
      cases hgoes <;> cases hp
    · rw [hc] at hc'
      cases hc'
      rw [hx] at hgoes
      generalize s'.point p = y at hgoes hp
      cases hgoes <;> cases hp
  · rcases State.step_point hs hc with hsame | ⟨hfork, _⟩
    · rw [hsame] at hp
      rcases h.raise hinv hs hboth.1 hboth.2 with hold | ⟨hlock, _⟩
      · exact (h.scanned p i hp q hq).elim (fun hno => hno hold.1) fun hno => hno hold.2
      · obtain ⟨c, hc', hlock'⟩ := h.held p (by rw [hp]; nofun)
        rw [Option.some.inj (hlock'.symm.trans hlock)] at hc'
        exact hc hc'
    · rw [hfork] at hp
      cases hp

theorem step (hinv : s.Inv ∧ s.Counted) (hs : step s a = .ok s') : Sections s' :=
  ⟨h.shape_step hinv hs, h.held_step hinv.1 hs, h.scanned_step hinv.1 hs⟩

/-- The parent of a process in a section changes only when `reparent` finds the process to be
its own child. -/
theorem parent_eq (hinv : s.Inv) (hs : Sched.step s a = .ok s')
    (hp : (s.point p).sect ≠ none) (hnot : ∀ status, s.point p ≠ .reparent p.val status) :
    (s'.procs p).parent = (s.procs p).parent := by
  have hrunning := h.running hinv hp
  have hchange := State.step_change hs p
  generalize s'.procs p = v at hchange
  cases hchange with
  | reparent p' status hc hx hparent =>
    have hlock := h.held_inside hinv hc (by rw [hx]; nofun)
    have hpp := h.same hc hlock hp
    subst hpp
    exact absurd hx (hnot status)
  | reap p' hc hx hstate =>
    rw [hrunning] at hstate
    cases hstate
  | undo p' hc hx =>
    have hused := hinv.forked p' p (by rw [hx]; rfl)
    rw [hrunning] at hused
    cases hused
  | setParent p' hc hx =>
    have hused := hinv.forked p' p (by rw [hx]; rfl)
    rw [hrunning] at hused
    cases hused
  | _ => rfl

end

end Sections

/-- The monitor of `wait` in process `t`. -/
def waitMonitor (t : Slot) : Monitor M where
  chan := .proc t
  lk := .wait
  cond procs _ := decide (∃ q, (procs q).parent = some t ∧ (procs q).state = .zombie)

theorem waitMonitor_holds {s : State M} {t : Slot} : (waitMonitor t).holds s = true ↔
    ∃ q, (s.procs q).parent = some t ∧ (s.procs q).state = .zombie := by
  simp [Monitor.holds, waitMonitor]

/-- `exit` has looked at the slots that it has passed in `wakeup`, it has passed all of them
before it sets `ZOMBIE`, and a child that `reparent` has handed over is followed by `wakeup`. -/
structure Rousing (t : Slot) (s : State M) (w : Watch) : Prop where
  seen : ∀ p i last, (s.point p).sect = some (.exiting (some (some (.proc t), i)) last) →
    ∀ q : Slot, q.val < i → w.seen q = true
  last : ∀ p scan, (s.point p).sect = some (.exiting scan true) → (s.procs p).parent = some t →
    (∃ i, scan = some (some (.proc t), i)) ∨ scan = none ∧ ∀ q, w.seen q = true
  raised : ∀ c, s.lock .wait = some c → w.raised = true → (∀ q, w.seen q = true) ∨
    ∃ p i, s.sched c = .inside p ∧
      (s.point p).sect = some (.exiting (some (some (.proc t), i)) false)

namespace Rousing

variable {s s' : State M} {w : Watch} {a : Act M} {p q t : Slot} {c : Cpu}

theorem boot (t : Slot) (m : M) : Rousing t (boot m) .fresh where
  seen _ _ _ h := by cases h
  last _ _ h := by cases h
  raised _ h := by cases h

/-- The record of the holder of the lock grows. -/
theorem seen_note (k : Monitor M) (hlock : s.lock k.lk = some c)
    (hq : w.seen q = true ∨ s.looksAt k.chan c = some q) : (k.note s c s' w).seen q = true := by
  simp only [Monitor.note, hlock, if_pos]
  cases hlook : s.looksAt k.chan c with
  | some r =>
    by_cases hqr : q = r
    · rw [hqr]
      exact update_self ..
    · refine (update_of_ne hqr _ _).trans (hq.resolve_right fun hq' => hqr ?_)
      rw [hlook] at hq'
      exact (Option.some.inj hq').symm
  | none =>
    refine hq.resolve_right fun hq' => ?_
    rw [hlook] at hq'
    cases hq'

theorem note_other (k : Monitor M) {c' : Cpu} (hlock : s.lock k.lk = some c') (hne : c' ≠ c) :
    k.note s c s' w = w := by
  simp only [Monitor.note, hlock, if_neg hne]

/-- The record of the others stays while a thread is in a section. -/
theorem note_of_section (hsec : Sections s) (hc : s.sched a.cpu ≠ .inside p)
    (hp : (s.point p).sect ≠ none) : (waitMonitor t).note s a.cpu s' w = w := by
  obtain ⟨c, hc', hlock⟩ := hsec.held p hp
  refine note_other (waitMonitor t) hlock ?_
  rintro rfl
  exact hc hc'

section

variable (h : Rousing t s w) (hsec : Sections s)

include h hsec

theorem seen_step (hinv : s.Inv) (hs : Sched.step s a = .ok s') (p : Slot) (i : Nat) (last : Bool)
    (hp : (s'.point p).sect = some (.exiting (some (some (.proc t), i)) last)) (q : Slot)
    (hq : q.val < i) : ((waitMonitor t).note s a.cpu s' w).seen q = true := by
  by_cases hc : s.sched a.cpu = .inside p
  · have hgoes := State.step_goes hc hs
    have hlock : (s.point p).sect ≠ none → s.lock (waitMonitor t : Monitor M).lk = some a.cpu :=
      hsec.held_inside hinv hc
    rcases hgoes.exiting_scan (hsec.shape p) hp hq with ⟨j, hj, hqj⟩ | ⟨next, hx, hself⟩ |
      ⟨next, hx⟩
    · exact seen_note _ (hlock (by rw [hj]; simp)) (.inl (h.seen p j last hj q hqj))
    · have hshape := hsec.shape p
      have hsect : (s.point p).sect ≠ none := by
        refine (hgoes.sect_ne_none hshape (by rw [hp]; simp)).resolve_right ?_
        rw [hx]
        simp
      refine seen_note _ (hlock hsect) (.inr ?_)
      simp [State.looksAt, State.control_inside hc, hx, hself, waitMonitor]
    · have hshape := hsec.shape p
      have hsect : (s.point p).sect ≠ none := by
        refine (hgoes.sect_ne_none hshape (by rw [hp]; simp)).resolve_right ?_
        rw [hx]
        simp
      refine seen_note _ (hlock hsect) (.inr ?_)
      simp [State.looksAt, State.control_inside hc, hx, waitMonitor]
  · rcases State.step_point hs hc with hsame | ⟨hfork, _⟩
    · rw [hsame] at hp
      rw [note_of_section hsec hc (by rw [hp]; simp)]
      exact h.seen p i last hp q hq
    · rw [hfork] at hp
      cases hp

theorem last_step (hinv : s.Inv)
    (hs : Sched.step s a = .ok s') (p : Slot) (scan : Option (Option Chan × Nat))
    (hp : (s'.point p).sect = some (.exiting scan true)) (hparent : (s'.procs p).parent = some t) :
    (∃ i, scan = some (some (.proc t), i)) ∨
      scan = none ∧ ∀ q, ((waitMonitor t).note s a.cpu s' w).seen q = true := by
  by_cases hc : s.sched a.cpu = .inside p
  · have hgoes := State.step_goes hc hs
    have hkeep : (s.point p).sect ≠ none → (∀ status, s.point p ≠ .reparent p.val status) →
        (s.procs p).parent = some t := by
      intro hold hnot
      rwa [← hsec.parent_eq hinv hs hold hnot]
    have hlock : (s.point p).sect ≠ none → s.lock (waitMonitor t : Monitor M).lk = some a.cpu :=
      hsec.held_inside hinv hc
    -- A point after `reparent` is not in `reparent`.
    have hlast : ∀ scan, (s.point p).sect = some (.exiting scan true) →
        ∀ status, s.point p ≠ .reparent p.val status := by
      intro scan hscan status hx
      rw [hx] at hscan
      cases hscan
    rcases hgoes.exiting_last (hsec.shape p) hp with ⟨⟨i, status, hx, hi⟩, hscan⟩ |
      ⟨chan, j, i, hold, hscan⟩ | ⟨hold, hscan⟩ | ⟨chan, j, hold, hj, hscan⟩
    · have hnot : ∀ status, s.point p ≠ .reparent p.val status := by
        intro status' hx'
        rw [hx] at hx'
        cases hx'
        exact hi p.isLt
      rw [hkeep (by rw [hx]; nofun) hnot] at hscan
      exact .inl ⟨0, hscan⟩
    · have hpar := hkeep (by rw [hold]; nofun) (hlast _ hold)
      rcases h.last p _ hold hpar with ⟨j', hj'⟩ | ⟨hnone, _⟩
      · cases hj'
        exact .inl ⟨i, hscan⟩
      · cases hnone
    · have hpar := hkeep (by rw [hold]; nofun) (hlast _ hold)
      rcases h.last p _ hold hpar with ⟨j', hj'⟩ | ⟨_, hall⟩
      · cases hj'
      · exact .inr ⟨hscan, fun q => seen_note _ (hlock (by rw [hold]; nofun)) (.inl (hall q))⟩
    · have hpar := hkeep (by rw [hold]; nofun) (hlast _ hold)
      rcases h.last p _ hold hpar with ⟨j', hj'⟩ | ⟨hnone, _⟩
      · cases hj'
        refine .inr ⟨hscan, fun q => seen_note _ (hlock (by rw [hold]; nofun)) (.inl ?_)⟩
        exact h.seen p j true hold q (lt_of_lt_of_le q.isLt hj)
      · cases hnone
  · rcases State.step_point hs hc with hsame | ⟨hfork, _⟩
    · rw [hsame] at hp
      have hsect : (s.point p).sect ≠ none := by
        rw [hp]
        nofun
      rw [note_of_section hsec hc hsect]
      refine h.last p scan hp ?_
      rwa [← hsec.parent_eq hinv hs hsect fun status hx => by rw [hx] at hp; cases hp]
    · rw [hfork] at hp
      cases hp

theorem raised_step (hinv : s.Inv ∧ s.Counted)
    (hs : Sched.step s a = .ok s') (c : Cpu) (hlock' : s'.lock .wait = some c)
    (hraised : ((waitMonitor t).note s a.cpu s' w).raised = true) :
    (∀ q, ((waitMonitor t).note s a.cpu s' w).seen q = true) ∨ ∃ p i, s'.sched c = .inside p ∧
        (s'.point p).sect = some (.exiting (some (some (.proc t), i)) false) := by
  cases hlock : s.lock (waitMonitor t : Monitor M).lk with
  | none => simp [Monitor.note, hlock, Watch.fresh] at hraised
  | some c₀ =>
    by_cases hcc : c₀ = a.cpu
    · subst hcc
      have hnoff : s.noff a.cpu ≠ 0 := fun hzero => hinv.2.free_lock hzero _ hlock
      have hkept : c = a.cpu := by
        rcases (State.step_locks hs).lock_own hlock with hkept | ⟨hnone, _⟩
        · exact Option.some.inj (hlock'.symm.trans hkept)
        · rw [show s'.lock .wait = none from hnone] at hlock'
          cases hlock'
      subst hkept
      by_cases hold : w.raised = true
      · rcases h.raised a.cpu hlock hold with hall | ⟨p, i, hc, hp⟩
        · exact .inl fun q => seen_note _ hlock (.inl (hall q))
        · rcases (State.step_goes hc hs).exiting_next (hsec.shape p) hp with ⟨j, hj⟩ | hi | hzero
          · refine .inr ⟨p, j, (State.step_inside hs hc).resolve_right ?_, hj⟩
            rintro ⟨_, next, hx⟩
            rw [hx] at hp
            cases hp
          · refine .inl fun q => seen_note _ hlock (.inl ?_)
            exact h.seen p i false hp q (lt_of_lt_of_le q.isLt hi)
          · exact absurd hzero hnoff
      · simp only [Monitor.note, hlock, if_pos, Bool.or_eq_true, Bool.and_eq_true,
          Bool.not_eq_true'] at hraised
        obtain ⟨hfalse, htrue⟩ := hraised.resolve_left hold
        obtain ⟨q, hparent, hstate⟩ := waitMonitor_holds.1 htrue
        rcases hsec.raise hinv.1 hs hparent hstate with hq | ⟨_, ⟨hc, ⟨status, hx⟩, hpar⟩ |
          ⟨p, status, hc, hx, hchild, hinit⟩⟩
        · rw [waitMonitor_holds.2 ⟨q, hq⟩] at hfalse
          cases hfalse
        · rcases h.last q none (by rw [hx]; rfl) hpar with ⟨_, hnone⟩ | ⟨_, hall⟩
          · cases hnone
          · exact .inl fun q => seen_note _ hlock (.inl (hall q))
        · have hgoes := State.step_goes hc hs
          refine .inr ⟨p, 0, (State.step_inside hs hc).resolve_right ?_, ?_⟩
          · rintro ⟨_, next, hx'⟩
            rw [hx] at hx'
            cases hx'
          · rw [hx] at hgoes
            generalize s'.point p = y at hgoes
            cases hgoes with
            | reparentTo _ _ => simp [Point.sect, Sect.rouse, hinit]
            | reparentNext _ _ hne => exact absurd hchild hne
            | reparented _ hi => exact absurd q.isLt hi
            | timer _ hzero => exact absurd hzero hnoff
    · rw [note_other _ hlock hcc] at hraised ⊢
      have hsame := (State.step_locks hs).lock_other hlock hcc
      have hcc' : c₀ = c := Option.some.inj (hsame.symm.trans hlock')
      subst hcc'
      rcases h.raised c₀ hlock hraised with hall | ⟨p, i, hc, hp⟩
      · exact .inl hall
      · have hne : s.sched a.cpu ≠ .inside p := by
          intro hc'
          exact hcc (hinv.1.unique c₀ a.cpu p (by rw [hc]; rfl) (by rw [hc']; rfl))
        refine .inr ⟨p, i, (State.step_inside hs hc).resolve_right fun hx => hcc hx.1, ?_⟩
        rcases State.step_point hs hne with hpoint | ⟨_, hunused⟩
        · rw [hpoint, hp]
        · rw [hsec.running hinv.1 (by rw [hp]; simp)] at hunused
          cases hunused

theorem step (hinv : s.Inv ∧ s.Counted)
    (hs : Sched.step s a = .ok s') : Rousing t s' ((waitMonitor t).note s a.cpu s' w) :=
  ⟨h.seen_step hsec hinv.1 hs, h.last_step hsec hinv.1 hs, h.raised_step hsec hinv hs⟩

end

end Rousing

/-- `fork`, `exit` and `wait` use the monitor as intended. -/
theorem follows_waitMonitor {s : State M} {w : Watch} {a : Act M} {t : Slot}
    (hinv : s.Inv ∧ s.Counted) (hsec : Sections s) (h : Rousing t s w) :
    (waitMonitor t).Follows (s, w) a := by
  intro s' hs
  have hinv' := State.inv_step hinv hs
  have hsec' := hsec.step hinv hs
  refine ⟨?_, ?_, ?_⟩
  · intro hfalse htrue
    obtain ⟨q, hparent, hstate⟩ := waitMonitor_holds.1 htrue
    rcases hsec.raise hinv.1 hs hparent hstate with hq | ⟨hlock, _⟩
    · rw [waitMonitor_holds.2 ⟨q, hq⟩] at hfalse
      cases hfalse
    · exact hlock
  · intro p l hc _ henters
    obtain ⟨hsect, rfl, rfl⟩ := Point.sect_of_enters henters (hsec'.shape p)
    obtain ⟨c, hc', hlock⟩ := hsec'.held t (by rw [hsect]; nofun)
    have hcc : c = a.cpu := by
      rcases State.step_inside hs hc with hstay | ⟨_, next, hx⟩
      · exact hinv'.1.unique c a.cpu t (by rw [hc']; rfl) (by rw [hstay]; rfl)
      · have hgoes := State.step_goes hc hs
        have hshape := hsec.shape t
        rw [hx] at hgoes hshape
        generalize s'.point t = y at hgoes hsect
        cases hgoes with
        | sched _ _ _ =>
          rw [hshape.1] at hsect
          cases hsect
        | timer _ _ => cases hsect
    subst hcc
    refine ⟨rfl, hlock, ?_⟩
    cases htrue : (waitMonitor t).holds s' with
    | false => rfl
    | true =>
      obtain ⟨q, hparent, hstate⟩ := waitMonitor_holds.1 htrue
      rcases hsec'.scanned t nproc hsect q q.isLt with hno | hno
      · exact absurd hparent hno
      · exact absurd hstate hno
  · intro hlock hnone hraised
    rcases h.raised a.cpu hlock hraised with hall | ⟨p, i, hc, hp⟩
    · exact hall
    · rcases (State.step_locks hs).lock_own hlock with hkept | ⟨_, _, hx⟩
      · rw [hnone] at hkept
        cases hkept
      · rw [State.control_inside hc] at hx
        rcases hx with hx | ⟨next, hx⟩
        · rw [hx] at hp
          cases hp
        · rw [hx] at hp
          obtain ⟨_, _, hwait⟩ := Point.sect_unlockL (by rw [hp]; nofun)
          rw [hwait] at hp
          cases hp

theorem waitMonitor_run {m : M} {as : List (Act M)} {sw : State M × Watch} (t : Slot)
    (h : run (waitMonitor t).step (boot m, .fresh) as = .ok sw) :
    Rousing t sw.1 sw.2 ∧ (waitMonitor t).Sound sw.1 sw.2 := by
  have hstep : ∀ (sw : State M × Watch) (a : Act M) (sw' : State M × Watch),
      ((sw.1.Inv ∧ sw.1.Counted) ∧ Sections sw.1) ∧ Rousing t sw.1 sw.2 ∧
          (waitMonitor t).Sound sw.1 sw.2 → (waitMonitor t).step sw a = .ok sw' →
        ((sw'.1.Inv ∧ sw'.1.Counted) ∧ Sections sw'.1) ∧ Rousing t sw'.1 sw'.2 ∧
          (waitMonitor t).Sound sw'.1 sw'.2 := by
    rintro sw a sw' ⟨⟨hinv, hsec⟩, hrouse, hsound⟩ hs
    obtain ⟨hs, hw⟩ := Monitor.step_ok hs
    rw [hw]
    exact ⟨⟨State.inv_step hinv hs, hsec.step hinv hs⟩, hrouse.step hsec hinv hs,
      hsound.step hinv (follows_waitMonitor hinv hsec hrouse) hs⟩
  exact (run_preserves hstep ⟨⟨⟨State.inv_boot m, State.Counted.boot m⟩, Sections.boot m⟩,
    Rousing.boot t m, Monitor.Sound.boot _ m⟩ h).2

/-- No wakeup is lost. When a process sleeps on the channel of a monitor and the condition is
true, the CPU that has made it true still holds the lock, and its calls of `wakeup` have not yet
looked at the process. For `wait` and `exit` this needs no assumption: it is then in the `wakeup`
of `reparent`, before the slot of the process. -/
theorem no_lost_wakeup :
    (∀ (k : Monitor M) (m : M) (as : List (Act M)) (s : State M) (w : Watch),
      Guarded k.step k.Follows (boot m, .fresh) as → run k.step (boot m, .fresh) as = .ok (s, w) →
      ∀ p, (s.procs p).state = .sleeping → (s.procs p).chan = some k.chan → k.holds s = true →
        ∃ c, s.lock k.lk = some c ∧ w.raised = true ∧ w.seen p = false) ∧
    (∀ (m : M) (as : List (Act M)) (s : State M), run step (boot m) as = .ok s →
      ∀ p t q, (s.procs p).state = .sleeping → (s.procs p).chan = some (.proc t) →
        (s.procs q).parent = some t → (s.procs q).state = .zombie →
        ∃ c r i, s.lock .wait = some c ∧ s.sched c = .inside r ∧
          (s.point r).sect = some (.exiting (some (some (.proc t), i)) false) ∧ i ≤ p.val) := by
  have hpending : ∀ {k : Monitor M} {s : State M} {w : Watch}, k.Sound s w →
      ∀ p, (s.procs p).state = .sleeping → (s.procs p).chan = some k.chan → k.holds s = true →
        ∃ c, s.lock k.lk = some c ∧ w.raised = true ∧ w.seen p = false := by
    intro k s w hsound p hstate hchan htrue
    have hcommitted : k.Committed s p := .inl ⟨hstate, hchan⟩
    obtain ⟨c, hlock, hraised⟩ := hsound.alert p hcommitted htrue
    refine ⟨c, hlock, hraised, ?_⟩
    cases hseen : w.seen p with
    | false => rfl
    | true => exact absurd hcommitted (hsound.passed c p hlock hseen)
  refine ⟨fun k m as s w hg h => hpending (Monitor.sound_run hg h), ?_⟩
  intro m as s h p t q hstate hchan hparent hzombie
  obtain ⟨w, hw⟩ := (waitMonitor t).run_of_run .fresh h
  obtain ⟨hrouse, hsound⟩ := waitMonitor_run t hw
  obtain ⟨c, hlock, hraised, hseen⟩ :=
    hpending hsound p hstate hchan (waitMonitor_holds.2 ⟨q, hparent, hzombie⟩)
  rcases hrouse.raised c hlock hraised with hall | ⟨r, i, hc, hr⟩
  · rw [show w.seen p = true from hall p] at hseen
    cases hseen
  · refine ⟨c, r, i, hlock, hc, hr, Nat.le_of_not_lt fun hlt => ?_⟩
    rw [show w.seen p = true from hrouse.seen r i false hr p hlt] at hseen
    cases hseen

/-- A process waits for the memory to become `true`. -/
def flagMonitor : Monitor Bool where
  chan := .other 9
  lk := .other 5
  cond _ m := m

/-- The first process sleeps, and an interrupt handler makes the condition true. -/
def flagRun : List (Act Bool) :=
  .replicate 5 (.sched 0) ++ [.thread 0 .go, .thread 0 (.lock (.other 5)),
    .thread 0 (.sleep 9 (.other 5))] ++ .replicate 4 (.thread 0 .go) ++ .replicate 2 (.sched 0) ++
    [.irq 1 (.lock (.other 5)), .irq 1 (.store true)]

theorem no_lost_wakeup_flag : ∃ s w,
    run flagMonitor.step (boot false, .fresh) flagRun = .ok (s, w) ∧
      (s.procs 0).state = .sleeping ∧ flagMonitor.holds s = true ∧
      ∃ c, s.lock (.other 5) = some c ∧ w.raised = true ∧ w.seen 0 = false := by
  have hguard : Guarded flagMonitor.step flagMonitor.Follows (boot false, .fresh) flagRun := by
    decide +kernel
  have hends : Ends (fun sw : State Bool × Watch => (sw.1.procs 0).state = .sleeping ∧
      (sw.1.procs 0).chan = some (.other 9) ∧ flagMonitor.holds sw.1 = true)
      (run flagMonitor.step (boot false, .fresh) flagRun) := by decide +kernel
  obtain ⟨⟨s, w⟩, hrun, hstate, hchan, htrue⟩ := hends.exists
  exact ⟨s, w, hrun, hstate, htrue,
    no_lost_wakeup.1 flagMonitor false flagRun s w hguard hrun 0 hstate hchan htrue⟩

end FogOS.Sched
