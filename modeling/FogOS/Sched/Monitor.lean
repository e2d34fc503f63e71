import FogOS.Sched.OneCpu

/-!
# No lost wakeup

A monitor is a lock, a channel and a condition on the data. Threads test the condition and call
`sleep` with the lock held; whoever makes the condition true goes through the table in `wakeup`
before it releases the lock. What the holder of the lock has done since it took the lock is
recorded beside the state.
-/

namespace FogOS.Sched

open Library Process Option State Point

variable {M : Type}

namespace Point

/-- The channel of a thread that has released the lock in `sleep` and not yet set its state. -/
def asleep : Point → Option Chan
  | sleepSet chan _ _ => some chan
  | _ => none

/-- The channel and the lock of a thread that has called `sleep` and not yet released the lock. -/
def enters : Point → Option (Chan × Lock)
  | lockP _ (unlockL l (sleepSet chan _ _)) => some (chan, l)
  | unlockL l (sleepSet chan _ _) => some (chan, l)
  | _ => none

/-- The state of a thread in `sleep` is set after the lock has been released, and a thread
does not leave the CPU inside a call of `sleep` before that. -/
def Regular : Point → Prop
  | lockP _ next => next.asleep = none ∧ Regular next
  | unlockP _ next => next.asleep = none ∧ Regular next
  | lockL _ next => next.asleep = none ∧ Regular next
  | unlockL _ next => Regular next
  | wakeup _ _ next => next.asleep = none ∧ Regular next
  | wakeupAt _ _ next => next.asleep = none ∧ Regular next
  | readKilled yes no =>
    (yes.asleep = none ∧ Regular yes) ∧ no.asleep = none ∧ Regular no
  | yieldSet next => next.asleep = none ∧ Regular next
  | sleepSet _ _ next => next.asleep = none ∧ Regular next
  | sched next => next.asleep = none ∧ next.enters = none ∧ Regular next
  | tidyUp next => next.asleep = none ∧ Regular next
  | _ => True

theorem held_of_asleep {p : Slot} {x : Point} {chan : Chan} (h : x.asleep = some chan) :
    x.held p = some p := by
  cases x with
  | sleepSet _ _ _ => rfl
  | _ => cases h

end Point

section Flow

variable {s : State M} {c : Cpu} {p : Slot} {x y : Point} {chan : Chan} {l : Lock}

theorem Starts.regular (h : Starts p x) : x.Regular := by
  cases h <;> simp [Point.Regular, Point.sleep, Point.asleep]

theorem Goes.regular (h : Goes s c p x y) (hx : x.Regular)
    (htimer : s.noff c = 0 → x.asleep = none) : y.Regular := by
  cases h with
  | call hstart => exact hstart.regular
  | lockP q next => exact hx.2
  | unlockP q next => exact hx.2
  | lockL l next => exact hx.2
  | unlockL l next => exact hx
  | wakeupSelf chan hi next hself => exact hx
  | wakeupLook chan hi next => exact ⟨rfl, rfl, rfl, hx⟩
  | wakeupDone chan hi next => exact hx.2
  | wakeupAt chan q next => exact hx.2
  | readYes yes no => exact hx.1
  | readNo yes no hkilled => exact hx.2
  | yieldSet next => exact ⟨rfl, rfl, hx⟩
  | sleepSet chan l next => exact ⟨rfl, rfl, rfl, rfl, hx⟩
  | sched next hlock hnoff => exact hx.2.2
  | tidyUp next => exact hx.2
  | timer x hnoff => exact ⟨rfl, htimer hnoff, hx⟩
  | _ => simp [Point.Regular, killed, sleep, asleep, enters]

/-- A thread gets past the release of the lock in `sleep` from that release. -/
theorem Goes.asleep (h : Goes s c p x y) (hx : x.Regular) (hy : y.asleep = some chan) :
    ∃ l, x.enters = some (chan, l) ∧ x = .unlockL l y := by
  have hnone : ∀ {z : Point}, z.asleep = none → z.asleep ≠ some chan := by
    intro z hz
    rw [hz]
    nofun
  cases h with
  | call hstart => cases hstart <;> cases hy
  | lockP q next => exact absurd hy (hnone hx.1)
  | unlockP q next => exact absurd hy (hnone hx.1)
  | lockL l next => exact absurd hy (hnone hx.1)
  | unlockL l next =>
    cases y with
    | sleepSet chan' l' next' =>
      cases hy
      exact ⟨l, rfl, rfl⟩
    | _ => cases hy
  | wakeupDone chan hi next => exact absurd hy (hnone hx.1)
  | wakeupAt chan q next => exact absurd hy (hnone hx.1)
  | sched next hlock hnoff => exact absurd hy (hnone hx.1)
  | tidyUp next => exact absurd hy (hnone hx.1)
  | _ => cases hy

/-- A thread in a call of `sleep` that stays in it has acquired its own lock. -/
theorem Goes.enters (h : Goes s c p x y) {k : Chan × Lock} (hx : x.enters.isSome)
    (hy : y.enters = some k) : x.enters = some k ∧ ∃ q, x = .lockP q y := by
  cases h with
  | lockP q next =>
    cases y with
    | unlockL l next =>
      cases next with
      | sleepSet chan l' next' => exact ⟨hy, q, rfl⟩
      | _ => cases hy
    | _ => simp [enters] at hx
  | unlockL l next =>
    cases y with
    | sleepSet chan l' next => cases hy
    | _ => simp [enters] at hx
  | timer x hnoff => cases hy
  | _ => simp [enters] at hx

end Flow

/-- A lock, a channel and a condition on the data that the lock protects. -/
structure Monitor (M : Type) where
  chan : Chan
  lk : Lock
  cond : (Slot → Proc) → M → Bool

/-- What the holder of the lock has done since it took the lock: whether it has made the
condition true, and the processes that its calls of `wakeup` have looked at. -/
structure Watch where
  raised : Bool
  seen : Slot → Bool

def Watch.fresh : Watch := ⟨false, fun _ => false⟩

/-- The process that the next statement on CPU `c` deals with in `wakeup(chan)`; the process
that calls `wakeup` is passed over. -/
def State.looksAt (s : State M) (chan : Chan) (c : Cpu) : Option Slot :=
  match s.control c with
  | .wakeup chan' i _ =>
    if h : i < nproc then
      if chan' = some chan ∧ s.cproc c = some ⟨i, h⟩ then some ⟨i, h⟩ else none
    else none
  | .wakeupAt chan' q _ => if chan' = some chan then some q else none
  | _ => none

namespace Monitor

variable (k : Monitor M)

def holds (s : State M) : Bool := k.cond s.procs s.mem

/-- The record after a step of CPU `c`. -/
def note (s : State M) (c : Cpu) (s' : State M) (w : Watch) : Watch :=
  match s.lock k.lk with
  | none => .fresh
  | some c' =>
    if c' = c then
      { raised := w.raised || (!k.holds s && k.holds s')
        seen := match s.looksAt k.chan c with
          | some q => Function.update w.seen q true
          | none => w.seen }
    else w

def step (sw : State M × Watch) (a : Act M) : Except Stop (State M × Watch) :=
  match Sched.step sw.1 a with
  | .ok s' => .ok (s', k.note sw.1 a.cpu s' sw.2)
  | .error e => .error e

/-- The threads and the handlers use the monitor as intended: the condition is made true with
the lock held, a thread calls `sleep` on the channel with the lock held and when the condition is
false, and whoever has made the condition true releases the lock after it has looked at every
process in `wakeup`. -/
def Follows (sw : State M × Watch) (a : Act M) : Prop :=
  ∀ s', Sched.step sw.1 a = .ok s' →
    (k.holds sw.1 = false → k.holds s' = true → sw.1.lock k.lk = some a.cpu) ∧
    (∀ p l, sw.1.sched a.cpu = .inside p → (sw.1.point p).enters = none →
      (s'.point p).enters = some (k.chan, l) →
        l = k.lk ∧ s'.lock k.lk = some a.cpu ∧ k.holds s' = false) ∧
    (sw.1.lock k.lk = some a.cpu → s'.lock k.lk = none → sw.2.raised = true →
      ∀ q, sw.2.seen q = true)

set_option synthInstance.maxSize 512 in
instance (sw : State M × Watch) (a : Act M) : Decidable (k.Follows sw a) :=
  match h : Sched.step sw.1 a with
  | .error _ => .isTrue fun s' hs => by rw [h] at hs; cases hs
  | .ok s' => decidable_of_iff
      ((k.holds sw.1 = false → k.holds s' = true → sw.1.lock k.lk = some a.cpu) ∧
        (∀ p, sw.1.sched a.cpu = .inside p → (sw.1.point p).enters = none →
          (s'.point p).enters.map Prod.fst = some k.chan →
            (s'.point p).enters.map Prod.snd = some k.lk ∧ s'.lock k.lk = some a.cpu ∧
              k.holds s' = false) ∧
        (sw.1.lock k.lk = some a.cpu → s'.lock k.lk = none → sw.2.raised = true →
          ∀ q, sw.2.seen q = true))
      ⟨fun hall s'' hs => by
        rw [h] at hs
        cases hs
        refine ⟨hall.1, fun p l hc hnone hl => ?_, hall.2.2⟩
        simpa [hl] using hall.2.1 p hc hnone (by simp [hl]),
      fun hall => ⟨(hall s' h).1, fun p hc hnone hp => by
        obtain ⟨e, he, hchan⟩ := map_eq_some_iff.1 hp
        have hl := (hall s' h).2.1 p e.2 hc hnone (by rw [he, ← hchan])
        simpa [he] using hl, (hall s' h).2.2⟩⟩

/-- The process sleeps on the channel, or will without looking at the condition again. -/
def Committed (s : State M) (p : Slot) : Prop :=
  (s.procs p).state = .sleeping ∧ (s.procs p).chan = some k.chan ∨ (s.point p).asleep = some k.chan

structure Sound (s : State M) (w : Watch) : Prop where
  regular : ∀ p, (s.point p).Regular
  entered : ∀ p l, (s.point p).enters = some (k.chan, l) →
    ∃ c, s.sched c = .inside p ∧ l = k.lk ∧ s.lock k.lk = some c ∧ k.holds s = false
  asleep : ∀ p, (s.point p).asleep ≠ none → ∃ c, s.sched c = .inside p
  alert : ∀ p, k.Committed s p → k.holds s = true → ∃ c, s.lock k.lk = some c ∧ w.raised = true
  passed : ∀ c p, s.lock k.lk = some c → w.seen p = true → ¬k.Committed s p

variable {k} {s s' : State M} {w : Watch} {a : Act M} {p q : Slot} {c : Cpu}

section Step

section

variable (h : k.Sound s w)

include h

/-- A process commits itself to sleep when it releases the lock in `sleep`. -/
theorem Sound.committed (hs : Sched.step s a = .ok s')
    (hp : k.Committed s' p) : k.Committed s p ∨ s.sched a.cpu = .inside p ∧
      ∃ l, (s.point p).enters = some (k.chan, l) ∧ s.point p = .unlockL l (s'.point p) := by
  rcases hp with ⟨hstate, hchan⟩ | hasleep
  · refine .inl ?_
    have hchange := step_change hs p
    generalize s'.procs p = v at hchange hstate hchan
    cases hchange with
    | same => exact .inl ⟨hstate, hchan⟩
    | kill p' hc hx =>
      split at hstate
      · cases hstate
      · exact absurd hstate ‹_›
    | setKilled hc hx => exact .inl ⟨hstate, hchan⟩
    | sleepSet chan l next hc hx =>
      refine .inr ?_
      rw [hx]
      exact hchan
    | tidyUp next hc hx => cases hchan
    | reparent p' status hc hx hparent => exact .inl ⟨hstate, hchan⟩
    | setParent p' hc hx => exact .inl ⟨hstate, hchan⟩
    | _ => cases hstate
  · by_cases hc : s.sched a.cpu = .inside p
    · obtain ⟨l, henters, hx⟩ := (step_goes hc hs).asleep (h.regular p) hasleep
      exact .inr ⟨hc, l, henters, hx⟩
    · rcases step_point hs hc with hsame | ⟨hfork, _⟩
      · exact .inl (.inr (hsame ▸ hasleep))
      · rw [hfork] at hasleep
        cases hasleep

/-- With it, the process gives up the lock, and the condition is false. -/
theorem Sound.commits (hinv : s.Inv ∧ s.Counted)
    (hs : Sched.step s a = .ok s') (hp : k.Committed s' p) :
    k.Committed s p ∨ s.sched a.cpu = .inside p ∧ (∃ next, s.point p = .unlockL k.lk next) ∧
      s.lock k.lk = some a.cpu ∧ s'.lock k.lk = none ∧ k.holds s' = false := by
  refine (h.committed hs hp).imp id ?_
  rintro ⟨hc, l, henters, hx⟩
  obtain ⟨c, hc', rfl, hlock, hfalse⟩ := h.entered p l henters
  have hcc : c = a.cpu := hinv.1.unique c a.cpu p (by rw [hc']; rfl) (by rw [hc]; rfl)
  subst hcc
  have hnoff : s.noff a.cpu ≠ 0 := fun hzero => hinv.2.free_lock hzero k.lk hlock
  obtain ⟨hnone, hprocs, hmem⟩ := step_unlockL hc hx hnoff hs
  refine ⟨hc, ⟨_, hx⟩, hlock, hnone, ?_⟩
  rw [holds, hprocs, hmem]
  exact hfalse

/-- After the holder of the lock has looked at a process in `wakeup`, the process is awake. -/
theorem Sound.looked (hinv : s.Inv ∧ s.Counted) (hs : Sched.step s a = .ok s')
    (hlock : s.lock k.lk = some a.cpu) (hq : s.looksAt k.chan a.cpu = some q) :
    ¬k.Committed s' q := by
  intro hcommitted
  have hidle := hinv.1.handlerIdle a.cpu
  have hnoff : s.noff a.cpu ≠ 0 := fun hzero => hinv.2.free_lock hzero k.lk hlock
  cases hx : s.control a.cpu with
  | wakeup chan i next =>
    simp only [looksAt, hx] at hq
    split at hq
    · split at hq
      · rename_i hi hself
        cases hq
        -- `wakeup` passes over the process that runs it.
        have hc : s.sched a.cpu = .inside ⟨i, hi⟩ := by
          have hcur := hinv.1.current a.cpu
          rw [hself.2] at hcur
          cases hsched : s.sched a.cpu with
          | inside p =>
            rw [hsched] at hcur
            cases hcur
            rfl
          | pick j =>
            rw [hsched] at hcur
            cases hcur
          | _ =>
            rw [State.control, hsched, hidle (by simp [hsched])] at hx
            cases hx
        rw [control_inside hc] at hx
        rcases h.commits hinv hs hcommitted with hold | ⟨_, ⟨next', hx'⟩, _⟩
        · rcases hold with ⟨hstate, _⟩ | hasleep
          · have hrunning := hinv.1.inside _ _ hc
            simp [hx, parking, hstate] at hrunning
          · rw [hx] at hasleep
            cases hasleep
        · rw [hx] at hx'
          cases hx'
      · cases hq
    · cases hq
  | wakeupAt chan r next =>
    simp only [looksAt, hx] at hq
    split at hq
    · rename_i hchan
      cases hq
      subst hchan
      have hprocs := step_wakeupAt hx hnoff hidle hs
      have hholding : s.holding a.cpu = some q := by
        rw [holding]
        cases hsched : s.sched a.cpu with
        | inside p =>
          rw [control_inside hsched] at hx
          simp only [hx]
          rfl
        | pick j =>
          rw [control_pick hsched] at hx
          simp only [hx]
          rfl
        | _ =>
          rw [State.control, hsched, hidle (by simp [hsched])] at hx
          cases hx
      rcases hcommitted with ⟨hstate, hchan⟩ | hasleep
      · rw [hprocs, wakeSlot] at hstate hchan
        split at hstate
        · simp [setState, setProc] at hstate
        · rename_i hnot
          rw [if_neg hnot] at hchan
          exact hnot ⟨hstate, hchan⟩
      · by_cases hc : s.sched a.cpu = .inside q
        · obtain ⟨l, _, hx'⟩ := (step_goes hc hs).asleep (h.regular q) hasleep
          rw [control_inside hc, hx'] at hx
          cases hx
        · rcases step_point hs hc with hsame | ⟨hfork, _⟩
          · -- A process past the release in `sleep` holds its own lock.
            rw [hsame] at hasleep
            obtain ⟨c', hc'⟩ := h.asleep q (by simp [hasleep])
            have hown := hinv.1.locked c' q (by
              rw [holding_inside hc', held_of_asleep hasleep])
            have hcc := some.inj (hown.symm.trans (hinv.1.locked _ q hholding))
            exact hc (hcc ▸ hc')
          · rw [hfork] at hasleep
            cases hasleep
    · cases hq
  | _ => simp [looksAt, hx] at hq

/-- A process that does not run on the CPU of the step keeps its CPU and the monitor. -/
theorem Sound.entered_step (hinv : s.Inv ∧ s.Counted)
    (hfollow : k.Follows (s, w) a) (hs : Sched.step s a = .ok s') (p : Slot) (l : Lock)
    (hp : (s'.point p).enters = some (k.chan, l)) :
    ∃ c, s'.sched c = .inside p ∧ l = k.lk ∧ s'.lock k.lk = some c ∧ k.holds s' = false := by
  obtain ⟨hraise, hsleep, _⟩ := hfollow s' hs
  by_cases hc : s.sched a.cpu = .inside p
  · have hgoes := step_goes hc hs
    have hstay : s'.sched a.cpu = .inside p := by
      rcases step_inside hs hc with hstay | ⟨_, next, hx⟩
      · exact hstay
      · have hreg := h.regular p
        rw [hx] at hreg hgoes
        generalize s'.point p = y at hgoes hp
        cases hgoes with
        | sched _ _ _ =>
          rw [hreg.2.1] at hp
          cases hp
        | timer _ _ => cases hp
    cases hold : (s.point p).enters with
    | none =>
      obtain ⟨rfl, hlock, hfalse⟩ := hsleep p l hc hold hp
      exact ⟨a.cpu, hstay, rfl, hlock, hfalse⟩
    | some old =>
      obtain ⟨hsame, q, hx⟩ := hgoes.enters (by simp [hold]) hp
      obtain ⟨c, hc', rfl, hlock, hfalse⟩ := h.entered p l hsame
      have hcc : c = a.cpu := hinv.1.unique c a.cpu p (by rw [hc']; rfl) (by rw [hc]; rfl)
      subst hcc
      obtain ⟨hlocks, hprocs, hmem⟩ := step_lockP hc hx hs
      refine ⟨a.cpu, hstay, rfl, by rw [hlocks, hlock], ?_⟩
      rw [holds, hprocs, hmem]
      exact hfalse
  · rcases step_point hs hc with hsame | ⟨hfork, _⟩
    · rw [hsame] at hp
      obtain ⟨c, hc', rfl, hlock, hfalse⟩ := h.entered p l hp
      have hne : c ≠ a.cpu := by
        rintro rfl
        exact hc hc'
      refine ⟨c, ?_, rfl, (step_locks hs).lock_other hlock hne, ?_⟩
      · exact (step_inside hs hc').resolve_right fun hcc => hne hcc.1
      · cases htrue : k.holds s' with
        | false => rfl
        | true =>
          have hheld := hraise hfalse htrue
          exact absurd (some.inj (hlock.symm.trans hheld)) hne
    · rw [hfork] at hp
      cases hp

theorem Sound.asleep_step (hs : Sched.step s a = .ok s') (p : Slot)
    (hp : (s'.point p).asleep ≠ none) : ∃ c, s'.sched c = .inside p := by
  obtain ⟨chan, hchan⟩ := ne_none_iff_exists'.1 hp
  by_cases hc : s.sched a.cpu = .inside p
  · obtain ⟨l, _, hx⟩ := (step_goes hc hs).asleep (h.regular p) hchan
    refine ⟨a.cpu, (step_inside hs hc).resolve_right ?_⟩
    rintro ⟨_, next, hx'⟩
    rw [hx] at hx'
    cases hx'
  · rcases step_point hs hc with hsame | ⟨hfork, _⟩
    · rw [hsame] at hp hchan
      obtain ⟨c, hc'⟩ := h.asleep p hp
      refine ⟨c, (step_inside hs hc').resolve_right ?_⟩
      rintro ⟨_, next, hx⟩
      rw [hx] at hchan
      cases hchan
    · rw [hfork] at hp
      exact absurd rfl hp

theorem Sound.regular_step (hinv : s.Inv ∧ s.Counted)
    (hs : Sched.step s a = .ok s') (p : Slot) : (s'.point p).Regular := by
  by_cases hc : s.sched a.cpu = .inside p
  · refine (step_goes hc hs).regular (h.regular p) fun hzero => ?_
    cases hasleep : (s.point p).asleep with
    | none => rfl
    | some chan =>
      have hlock := hinv.1.locked a.cpu p (by
        rw [holding_inside hc, held_of_asleep hasleep])
      exact absurd hlock (hinv.2.free hzero p)
  · rcases step_point hs hc with hsame | ⟨hfork, _⟩
    · rw [hsame]
      exact h.regular p
    · rw [hfork]
      exact ⟨rfl, trivial⟩

theorem Sound.alert_step (hinv : s.Inv ∧ s.Counted) (hfollow : k.Follows (s, w) a)
    (hs : Sched.step s a = .ok s') (p : Slot) (hp : k.Committed s' p) (htrue : k.holds s' = true) :
    ∃ c, s'.lock k.lk = some c ∧ (k.note s a.cpu s' w).raised = true := by
  obtain ⟨hraise, _, hrelease⟩ := hfollow s' hs
  have hlocks := step_locks hs
  have hold : k.Committed s p := by
    rcases h.commits hinv hs hp with hold | ⟨_, _, _, _, hfalse⟩
    · exact hold
    · rw [hfalse] at htrue
      cases htrue
  cases hbefore : k.holds s with
  | true =>
    obtain ⟨c, hlock, hraised⟩ := h.alert p hold hbefore
    by_cases hcc : c = a.cpu
    · subst hcc
      rcases hlocks.lock_own hlock with hkept | ⟨hnone, _⟩
      · exact ⟨_, hkept, by simp [note, hlock, hraised]⟩
      · exact absurd hold (h.passed _ p hlock (hrelease hlock hnone hraised p))
    · exact ⟨c, hlocks.lock_other hlock hcc, by simp [note, hlock, hcc, hraised]⟩
  | false =>
    have hlock : s.lock k.lk = some a.cpu := hraise hbefore htrue
    rcases hlocks.lock_own hlock with hkept | ⟨_, ⟨hprocs, hmem⟩, _⟩
    · exact ⟨_, hkept, by simp [note, hlock, hbefore, htrue]⟩
    · rw [holds, hprocs, hmem] at htrue
      rw [holds, htrue] at hbefore
      cases hbefore

theorem Sound.passed_step (hinv : s.Inv ∧ s.Counted)
    (hs : Sched.step s a = .ok s') (c : Cpu) (p : Slot) (hlock' : s'.lock k.lk = some c)
    (hseen : (k.note s a.cpu s' w).seen p = true) : ¬k.Committed s' p := by
  cases hlock : s.lock k.lk with
  | none => simp [note, hlock, Watch.fresh] at hseen
  | some c₀ =>
    have hkeep : w.seen p = true → ¬k.Committed s' p := by
      intro hw hp
      rcases h.commits hinv hs hp with hold | ⟨_, _, _, hnone, _⟩
      · exact h.passed c₀ p hlock hw hold
      · rw [hnone] at hlock'
        cases hlock'
    by_cases hcc : c₀ = a.cpu
    · subst hcc
      simp only [note, hlock, if_pos] at hseen
      cases hlook : s.looksAt k.chan a.cpu with
      | none => exact hkeep (by simpa [hlook] using hseen)
      | some q =>
        by_cases hpq : p = q
        · subst hpq
          exact h.looked hinv hs hlock hlook
        · exact hkeep (by simpa [hlook, hpq] using hseen)
    · exact hkeep (by simpa [note, hlock, hcc] using hseen)

/-- A step that uses the monitor as intended keeps its invariant. -/
theorem Sound.step (hinv : s.Inv ∧ s.Counted) (hfollow : k.Follows (s, w) a)
    (hs : Sched.step s a = .ok s') : k.Sound s' (k.note s a.cpu s' w) :=
  ⟨h.regular_step hinv hs, h.entered_step hinv hfollow hs, h.asleep_step hs,
    h.alert_step hinv hfollow hs, h.passed_step hinv hs⟩

end

theorem Sound.boot (k : Monitor M) (m : M) : k.Sound (boot m) .fresh where
  regular _ := ⟨rfl, trivial⟩
  entered _ _ h := by cases h
  asleep _ h := absurd rfl h
  alert p h _ := by
    rcases h with ⟨hstate, _⟩ | h
    · by_cases hp : p = 0
      · subst hp
        simp [Sched.boot] at hstate
      · simp [Sched.boot, hp, Proc.zero] at hstate
    · cases h
  passed _ _ h := by cases h

theorem step_ok {sw sw' : State M × Watch} (h : k.step sw a = .ok sw') :
    Sched.step sw.1 a = .ok sw'.1 ∧ sw'.2 = k.note sw.1 a.cpu sw'.1 sw.2 := by
  unfold Monitor.step at h
  split at h
  · rename_i s' hs
    cases h
    exact ⟨hs, rfl⟩
  · cases h

end Step

/-- Every run of the system is one of the system with a record. -/
theorem run_of_run (k : Monitor M) {s t : State M} (w : Watch) {as : List (Act M)}
    (h : run Sched.step s as = .ok t) : ∃ w', run k.step (s, w) as = .ok (t, w') := by
  induction as generalizing s w with
  | nil =>
    cases h
    exact ⟨w, rfl⟩
  | cons a as ih =>
    obtain ⟨s', ha, hrest⟩ := run_cons_ok_iff.mp h
    obtain ⟨w', hw'⟩ := ih (k.note s a.cpu s' w) hrest
    refine ⟨w', run_cons_ok_iff.mpr ⟨(s', k.note s a.cpu s' w), ?_, hw'⟩⟩
    simp only [Monitor.step, ha]

/-- Along every run that uses the monitor as intended. -/
theorem sound_run {m : M} {as : List (Act M)} {sw : State M × Watch}
    (hg : Guarded k.step k.Follows (boot m, .fresh) as)
    (h : run k.step (boot m, .fresh) as = .ok sw) : k.Sound sw.1 sw.2 := by
  have hstep : ∀ (sw : State M × Watch) (a : Act M) (sw' : State M × Watch),
      (sw.1.Inv ∧ sw.1.Counted) ∧ k.Sound sw.1 sw.2 → k.Follows sw a → k.step sw a = .ok sw' →
        (sw'.1.Inv ∧ sw'.1.Counted) ∧ k.Sound sw'.1 sw'.2 := by
    intro sw a sw' hi hfollow hs
    obtain ⟨hs, hw⟩ := step_ok hs
    refine ⟨inv_step hi.1 hs, ?_⟩
    rw [hw]
    exact hi.2.step hi.1 hfollow hs
  exact (run_invariant hstep ⟨⟨inv_boot m, State.Counted.boot m⟩, Sound.boot k m⟩ hg h).2

end Monitor

end FogOS.Sched
