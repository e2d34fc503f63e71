import FogOS.Sched.Running

/-!
# The statements of the threads keep the invariant
-/

namespace FogOS.Sched

open Function Library Process State

namespace State

variable {M : Type} {s s' u : State M} {c c' : Cpu} {p q t : Slot} {x next : Point} {l : Lock}

section Thread

theorem acting_of (hc : s.sched c = .inside p) (hp : (s.point p).parking = false) : s.Acting c :=
  .inr ⟨p, hc, hp⟩

theorem Inv.running_of (h : s.Inv) (hp : (s.point p).parking = false) (hc : s.sched c = .inside p) :
    (s.procs p).state = .running := by
  have hin := h.inside c p hc
  rwa [hp, if_neg (by simp)] at hin

section

variable (h : s.Inv) (hc : s.sched c = .inside p)

include h hc

/-- A thread acquires the lock of a slot. -/
theorem Inv.thread_lockP (hx : s.point p = .lockP q next)
    (hu : s.acquireP c q = .ok u) : (u.setPoint p next).Inv := by
  obtain ⟨hnone, rfl⟩ := acquireP_ok hu
  have hwf := h.wellFormed p
  rw [hx] at hwf
  refine h.thread hc rfl rfl rfl rfl (fun _ _ => rfl) ?_ ?_ ?_ hwf.2.2 ?_
  · rw [hwf.2.1]
    exact h.running_of (by rw [hx]; rfl) hc
  · exact fun c' r _ hr => plock_acquire hnone c c' r hr
  · intro r hr
    rw [hwf.1] at hr
    cases hr
    exact update_self ..
  · intro r hr
    have hold : (s.point p).forking = some r := by rw [hx]; exact hr
    exact ⟨h.forked p r hold, fun t' ht hr' => ht (h.forker t' p r hr' hold)⟩

/-- A thread releases the lock of a slot. -/
theorem Inv.thread_unlockP (hx : s.point p = .unlockP q next) (hu : s.releaseP c q = .ok u) :
    (u.setPoint p next).Inv := by
  obtain ⟨hsome, rfl⟩ := releaseP_ok hu
  have hwf := h.wellFormed p
  rw [hx] at hwf
  refine h.thread hc rfl rfl rfl rfl (fun _ _ => rfl) ?_ ?_ ?_ hwf.2.2 ?_
  · rw [hwf.2.1]
    exact h.running_of (by rw [hx]; rfl) hc
  · exact fun c' r hne hr => plock_release hsome hne r hr
  · intro r hr
    rw [hwf.1] at hr
    cases hr
  · intro r hr
    have hold : (s.point p).forking = some r := by rw [hx]; exact hr
    exact ⟨h.forked p r hold, fun t' ht hr' => ht (h.forker t' p r hr' hold)⟩

theorem Inv.thread_lockL (hx : s.point p = .lockL l next)
    (hu : s.acquireL c l = .ok u) : (u.setPoint p next).Inv := by
  obtain ⟨_, rfl⟩ := acquireL_ok hu
  have hwf := h.wellFormed p
  rw [hx] at hwf
  exact h.stay hc rfl rfl rfl rfl rfl (fun _ => rfl) (by rw [hx]; rfl) hwf.2.2
    (by rw [hx, hwf.2.1]; rfl) (fun r hr => by rw [hx]; exact hr)

theorem Inv.thread_unlockL (hx : s.point p = .unlockL l next) (hu : s.releaseL c l = .ok u) :
    (u.setPoint p next).Inv := by
  obtain ⟨_, rfl⟩ := releaseL_ok hu
  have hwf := h.wellFormed p
  rw [hx] at hwf
  exact h.stay hc rfl rfl rfl rfl rfl (fun _ => rfl) (by rw [hx]; rfl) hwf (by rw [hx]; rfl)
    (fun r hr => by rw [hx]; exact hr)

/-- A statement that only moves the thread, between points with the same locks. -/
theorem Inv.goto {y : Point} (hx : s.point p = y)
    (hheld : x.held p = y.held p) (hwf : x.WellFormed p) (hparking : x.parking = y.parking)
    (hforking : x.forking = none) : (s.setPoint p x).Inv :=
  h.stay hc rfl rfl rfl rfl rfl (fun _ => rfl) (by rw [hx, hheld]) hwf (by rw [hx, hparking])
    (fun r hr => by rw [hforking] at hr; cases hr)

/-- A statement of `fork` between points with the same locks. -/
theorem Inv.gotoFork {y : Point} (hx : s.point p = y)
    (hheld : x.held p = y.held p) (hwf : x.WellFormed p) (hparking : x.parking = y.parking)
    (hforking : x.forking = y.forking) : (s.setPoint p x).Inv :=
  h.stay hc rfl rfl rfl rfl rfl (fun _ => rfl) (by rw [hx, hheld]) hwf (by rw [hx, hparking])
    (fun r hr => by rw [hx, ← hforking, hr])

/-- `swtch` to the scheduler. -/
theorem Inv.schedSwitch (hx : s.point p = .sched next)
    (hs : s.schedSwitch c p next = .ok s') : s'.Inv := by
  obtain ⟨hlock, hs⟩ := of_guard_not hs
  obtain ⟨_, hs⟩ := of_guard_not hs
  obtain ⟨hrunning, ⟨⟩⟩ := of_guard_not hs
  have hwf := h.wellFormed p
  rw [hx] at hwf
  obtain ⟨hheld, hpark, hwf⟩ := hwf
  refine h.pair (c := c) (y := .back p) (by rw [hc]; rfl) (h.inside_ne_used hc) rfl rfl rfl ?_
    rfl (fun _ _ => rfl) (fun _ _ _ hq => hq) ?_ hrunning hwf (fun hrun => absurd hrun hrunning)
    (fun _ => ⟨hheld, hpark⟩) fun q hq => ?_
  · rw [← (h.current c).trans (by rw [hc]; rfl : _ = (SchedPoint.back p).current)]
    exact (update_eq_self c s.cproc).symm
  · intro q hq
    simp only [holding, setSched, update_self, SchedPoint.held] at hq
    cases hq
    exact not_not.mp hlock
  · have hold : (s.point p).forking = some q := by rw [hx]; exact hq
    exact ⟨h.forked p q hold, fun t ht ht' => ht (h.forker t p q ht' hold)⟩

end

/-- The invariant does not look at the other locks and at the other memory. -/
theorem Inv.of_other (h : s.Inv) (lock : Lock → Option Cpu) (noff : Cpu → Nat) (ret : Slot → Int)
    (mem : M) : ({ s with lock := lock, noff := noff, ret := ret, mem := mem } : State M).Inv :=
  ⟨h.wellFormed, h.handler, h.handlerIdle, h.locked, h.inside, h.chosen, h.assigned, h.given,
    h.running, h.unique, h.ready, h.forked, h.forker, h.current⟩

section

variable (h : s.Inv) (hc : s.sched c = .inside p)

include h hc

theorem Inv.wakeup {chan : Option Chan} {i : Nat} (hx : s.point p = .wakeup chan i next)
    (hs : s.shared c (some p) (.wakeup chan i next) = .ok s') : s'.Inv := by
  have hwf := h.wellFormed p
  rw [hx] at hwf
  obtain ⟨hheld, hpark, hfork, hwf⟩ := hwf
  simp only [shared] at hs
  split at hs
  · split at hs
    · cases hs
      refine h.goto hc hx rfl ⟨hheld, hpark, hfork, hwf⟩ rfl rfl
    · cases hs
      refine h.goto hc hx rfl ?_ rfl rfl
      simp [Point.WellFormed, Point.held, Point.parking, Point.forking, hheld, hpark, hfork, hwf]
  · cases hs
    exact h.goto hc hx hheld hwf hpark hfork

theorem Inv.wakeupAt {chan : Option Chan} (hx : s.point p = .wakeupAt chan q next) :
    ((s.wakeSlot chan q).setPoint p next).Inv := by
  have hwf := h.wellFormed p
  rw [hx] at hwf
  obtain ⟨hheld, hpark, hfork, hwf⟩ := hwf
  have hq : s.holding c = some q := by
    rw [holding_inside hc, hx]
    rfl
  have hwoken := h.wakeSlot (acting_of hc (by rw [hx]; rfl)) hq chan
  have hsched : (s.wakeSlot chan q).sched = s.sched := by
    rw [State.wakeSlot]
    split <;> rfl
  have hpoint : (s.wakeSlot chan q).point = s.point := by
    rw [State.wakeSlot]
    split <;> rfl
  have hx' : (s.wakeSlot chan q).point p = .wakeupAt chan q next := by rw [hpoint, hx]
  exact hwoken.goto (hsched ▸ hc) hx' hheld hwf hpark hfork

theorem Inv.sharedStep (hs : s.shared c (some p) (s.point p) = .ok s') : s'.Inv := by
  cases hx : s.point p with
  | lockP q next =>
    simp only [shared, hx] at hs
    split at hs
    · rename_i u hu
      cases hs
      exact h.thread_lockP hc hx hu
    · cases hs
  | unlockP q next =>
    simp only [shared, hx] at hs
    split at hs
    · rename_i u hu
      cases hs
      exact h.thread_unlockP hc hx hu
    · cases hs
  | wakeup chan i next => exact h.wakeup hc hx (hx ▸ hs)
  | wakeupAt chan q next =>
    simp only [shared, hx] at hs
    cases hs
    exact h.wakeupAt hc hx
  | _ =>
    simp only [shared, hx] at hs
    cases hs

variable {ch : Choice M}

theorem Inv.call (hx : s.point p = .run) (hs : s.call c p ch = .ok s') : s'.Inv := by
  cases ch with
  | lock l =>
    obtain ⟨_, rfl⟩ := acquireL_ok hs
    exact h.of_other _ _ _ _
  | unlock l =>
    obtain ⟨_, rfl⟩ := releaseL_ok hs
    exact h.of_other _ _ _ _
  | store m =>
    cases hs
    exact h.of_other _ _ _ _
  | wakeup chan =>
    cases hs
    exact h.goto hc hx rfl ⟨rfl, rfl, rfl, trivial⟩ rfl rfl
  | kill pid =>
    cases hs
    exact h.goto hc hx rfl trivial rfl rfl
  | setkilled =>
    cases hs
    exact h.goto hc hx rfl ⟨rfl, rfl, trivial⟩ rfl rfl
  | sleep addr l =>
    cases hs
    exact h.goto hc hx rfl ⟨rfl, rfl, rfl, rfl, rfl, trivial⟩ rfl rfl
  | fork =>
    cases hs
    exact h.goto hc hx rfl trivial rfl rfl
  | exit status =>
    obtain ⟨_, ⟨⟩⟩ := of_guard_not hs
    exact h.goto hc hx rfl ⟨rfl, rfl, trivial⟩ rfl rfl
  | wait =>
    cases hs
    exact h.goto hc hx rfl ⟨rfl, rfl, trivial⟩ rfl rfl
  | loop l =>
    cases hs
    exact h.goto hc hx rfl ⟨rfl, rfl, trivial⟩ rfl rfl
  | go => cases hs
  | yes => cases hs
  | no => cases hs

omit h hc in
theorem killSlot_control (s : State M) (q : Slot) :
    (s.killSlot q).sched = s.sched ∧ (s.killSlot q).point = s.point := by
  simp only [killSlot]
  split <;> exact ⟨rfl, rfl⟩

theorem Inv.killBody {pid : Int} (hx : s.point p = .killAt pid q) : (s.killBody p pid q).Inv := by
  have hq : s.holding c = some q := by
    rw [holding_inside hc, hx]
    rfl
  rw [State.killBody]
  split
  · obtain ⟨hsched, hpoint⟩ := killSlot_control s q
    have hx' : (s.killSlot q).point p = .killAt pid q := by rw [hpoint, hx]
    exact (h.killSlot (acting_of hc (by rw [hx]; rfl)) hq).goto (hsched ▸ hc) hx' rfl
      ⟨rfl, rfl, trivial⟩ rfl rfl
  · exact h.goto hc hx rfl ⟨rfl, rfl, trivial⟩ rfl rfl

theorem Inv.reparentStep {i : Nat} {status : Int}
    (hx : s.point p = .reparent i status) : (s.reparentStep p i status).Inv := by
  rw [State.reparentStep]
  split
  · rename_i hi
    split
    · have hfields : (s.setProc ⟨i, hi⟩
          { s.procs ⟨i, hi⟩ with parent := s.initproc }).Inv := h.fields rfl
      exact hfields.goto hc hx rfl ⟨rfl, rfl, rfl, trivial⟩ rfl rfl
    · exact h.goto hc hx rfl trivial rfl rfl
  · exact h.goto hc hx rfl ⟨rfl, rfl, rfl, rfl, rfl, trivial⟩ rfl rfl

theorem Inv.waitStep {i : Nat} {havekids : Bool}
    (hx : s.point p = .wait i havekids) : (s.waitStep p i havekids).Inv := by
  rw [State.waitStep]
  split
  · split
    · exact h.goto hc hx rfl ⟨rfl, rfl, trivial⟩ rfl rfl
    · exact h.goto hc hx rfl trivial rfl rfl
  · split
    · exact h.goto hc hx rfl trivial rfl rfl
    · exact h.goto hc hx rfl ⟨rfl, rfl, ⟨rfl, rfl, rfl, trivial⟩, rfl, rfl, rfl, rfl, rfl, rfl, rfl, rfl,
        trivial⟩ rfl rfl

/-- A thread gives up the lock of a slot that it has just freed. -/
theorem Inv.free_goto (hheld : (s.point p).held p = some q) (hpark : (s.point p).parking = false)
    (hst : (s.procs q).state ≠ .running) (hx : x.held p = some q) (hwf : x.WellFormed p)
    (hxpark : x.parking = false) (hfork : x.forking = none)
    (hforker : ∀ t, t ≠ p → (s.point t).forking ≠ some q) : ((s.freeproc q).setPoint p x).Inv := by
  have hmoved : (s.setPoint p x).Inv :=
    h.goto hc rfl (hx.trans hheld.symm) hwf (hxpark.trans hpark.symm) hfork
  have hpoint : (s.setPoint p x).point p = x := update_self ..
  have hc' : (s.setPoint p x).sched c = .inside p := hc
  refine hmoved.freeproc (acting_of hc' (by rw [hpoint]; exact hxpark))
    (by rw [holding_inside hc', hpoint]; exact hx) hst fun t ht => ?_
  by_cases htp : t = p
  · subst htp
    rw [hpoint, hfork] at ht
    cases ht
  · rw [show (s.setPoint p x).point t = s.point t from update_of_ne htp _ _] at ht
    exact hforker t htp ht

theorem Inv.waitBody (hx : s.point p = .waitAt q) : (s.waitBody p q ch).Inv := by
  unfold State.waitBody
  split
  · rename_i hzombie
    split
    · exact h.goto hc hx rfl ⟨rfl, rfl, trivial⟩ rfl rfl
    · exact h.free_goto hc (by rw [hx]; rfl) (by rw [hx]; rfl) (by simp [hzombie]) rfl
        ⟨rfl, rfl, trivial⟩ rfl rfl fun t _ => h.not_forked (by simp [hzombie]) t
  · exact h.goto hc hx rfl ⟨rfl, rfl, trivial⟩ rfl rfl

theorem Inv.allocBody (hx : s.point p = .allocAt q) : (s.allocBody p q).Inv := by
  have hq : s.holding c = some q := by
    rw [holding_inside hc, hx]
    rfl
  have hpark : (s.point p).parking = false := by
    rw [hx]
    rfl
  rw [State.allocBody]
  split
  · rename_i hunused
    have halloc := h.allocSlot (acting_of hc hpark) hq hunused
    have hrunning := h.running_of hpark hc
    have hpq : p ≠ q := by
      rintro rfl
      rw [hrunning] at hunused
      cases hunused
    have hpoint : (s.allocSlot q).point p = .allocAt q := by
      rw [← hx]
      exact update_of_ne hpq _ _
    refine halloc.thread hc rfl rfl rfl rfl (fun _ _ => rfl) ?_ (fun _ _ _ hr => hr) ?_ trivial ?_
    · exact halloc.running_of (by rw [hpoint]; rfl) hc
    · intro r hr
      cases hr
      exact h.locked c q hq
    · intro r hr
      cases hr
      refine ⟨by simp [State.allocSlot, setProc], fun t _ ht => ?_⟩
      by_cases htq : t = q
      · subst htq
        simp [State.allocSlot, Point.forkret, Point.forking] at ht
      · have htold : (s.point t).forking = some q := by
          rw [← ht]
          exact congrArg Point.forking (update_of_ne htq _ _).symm
        exact h.not_forked (by simp [hunused]) t htold
  · exact h.goto hc hx rfl ⟨rfl, rfl, trivial⟩ rfl rfl

theorem Inv.copyBody (hx : s.point p = .copying q) : (s.copyBody p q ch).Inv := by
  have hfork : (s.point p).forking = some q := by
    rw [hx]
    rfl
  have hused := h.forked p q hfork
  have hgo : (s.setPoint p (.unlockP q (.lockL .wait (.setParent q)))).Inv :=
    h.gotoFork hc hx rfl ⟨rfl, rfl, rfl, rfl, trivial⟩ rfl rfl
  cases ch with
  | no =>
    exact h.free_goto hc (by rw [hx]; rfl) (by rw [hx]; rfl) (by simp [hused]) rfl
      ⟨rfl, rfl, trivial⟩ rfl rfl fun t htp ht => htp (h.forker t p q ht hfork)
  | _ => exact hgo

theorem Inv.setRunnable {v : Int} (hx : s.point p = .setRunnable q) :
    ((s.setState q .runnable).setPoint p (.unlockP q (.ret v))).Inv := by
  have hfork : (s.point p).forking = some q := by
    rw [hx]
    rfl
  have hused := h.forked p q hfork
  have hmoved : (s.setPoint p (.unlockP q (.ret v))).Inv :=
    h.goto hc hx rfl ⟨rfl, rfl, trivial⟩ rfl rfl
  have hc' : (s.setPoint p (.unlockP q (.ret v))).sched c = .inside p := hc
  have hpoint : (s.setPoint p (.unlockP q (.ret v))).point p = .unlockP q (.ret v) :=
    update_self ..
  refine hmoved.makeRunnable (acting_of hc' (by rw [hpoint]; rfl))
    (by rw [holding_inside hc', hpoint]; rfl) hused fun t ht => ?_
  by_cases htp : t = p
  · subst htp
    rw [hpoint] at ht
    cases ht
  · rw [show (s.setPoint p (.unlockP q (.ret v))).point t = s.point t from
      update_of_ne htp _ _] at ht
    exact htp (h.forker t p q ht hfork)

theorem Inv.loopStep {l : Loop} (hx : s.point p = .loop l) : (s.loopStep p l ch).Inv := by
  simp only [State.loopStep]
  split
  · exact h.goto hc hx rfl trivial rfl rfl
  · exact h.goto hc hx rfl ⟨rfl, rfl, ⟨rfl, rfl, rfl, trivial⟩, rfl, rfl, rfl, trivial⟩ rfl rfl
  · exact h.goto hc hx rfl trivial rfl rfl
  · exact h.goto hc hx rfl ⟨rfl, rfl, ⟨rfl, rfl, rfl, trivial⟩, rfl, rfl, rfl, rfl, rfl, rfl, rfl, rfl,
      trivial⟩ rfl rfl

theorem Inv.fullStep {pi : Nat} (hx : s.point p = .full pi) : (s.fullStep p pi ch).Inv := by
  cases ch with
  | no => exact h.goto hc hx rfl ⟨rfl, rfl, rfl, rfl, rfl, rfl, rfl, rfl, trivial⟩ rfl rfl
  | _ => exact h.goto hc hx rfl trivial rfl rfl

theorem Inv.threadStep (hs : s.threadStep c p ch = .ok s') : s'.Inv := by
  have hwf := h.wellFormed p
  obtain ⟨x, hx⟩ : ∃ x, s.point p = x := ⟨_, rfl⟩
  rw [State.threadStep, hx] at hs
  rw [hx] at hwf
  cases x with
  | run =>
    exact h.call hc hx hs
  | ret v =>
    cases hs
    exact (h.of_other s.lock s.noff _ s.mem).goto hc hx rfl trivial rfl rfl
  | lockL l next =>
    dsimp only at hs
    split at hs
    · rename_i u hu
      cases hs
      exact h.thread_lockL hc hx hu
    · cases hs
  | unlockL l next =>
    dsimp only at hs
    split at hs
    · rename_i u hu
      cases hs
      exact h.thread_unlockL hc hx hu
    · cases hs
  | kill pid i =>
    cases hs
    rw [killStep]
    split
    · exact h.goto hc hx rfl ⟨rfl, rfl, trivial⟩ rfl rfl
    · exact h.goto hc hx rfl trivial rfl rfl
  | killAt pid q =>
    cases hs
    exact h.killBody hc hx
  | readKilled yes no =>
    cases hs
    obtain ⟨hyes, hno⟩ := hwf
    split
    · exact h.goto hc hx rfl ⟨hyes.1, hyes.2.1, hyes.2.2.2⟩ rfl
        hyes.2.2.1
    · exact h.goto hc hx rfl ⟨hno.1, hno.2.1, hno.2.2.2⟩ rfl hno.2.2.1
  | setKilled =>
    cases hs
    have hfields : (s.setProc p { s.procs p with killed := true }).Inv := h.fields rfl
    exact hfields.goto hc hx rfl ⟨rfl, rfl, trivial⟩ rfl rfl
  | yieldSet next =>
    cases hs
    obtain ⟨hheld, hpark, hwf⟩ := hwf
    exact h.park hc (by rw [hx]; rfl) (.inl rfl) rfl
      ⟨rfl, rfl, hheld, hpark, hwf⟩ (fun q hq => by rw [hx]; exact hq)
  | sleepSet chan l next =>
    cases hs
    obtain ⟨hheld, hpark, hfork, hwf⟩ := hwf
    exact h.park hc (by rw [hx]; rfl) (.inr (.inl rfl)) rfl
      ⟨rfl, rfl, rfl, rfl, hfork, hheld, rfl, hheld, hpark, hwf⟩ nofun
  | sched next =>
    exact h.schedSwitch hc hx hs
  | tidyUp next =>
    cases hs
    obtain ⟨hheld, hpark, hfork, hwf⟩ := hwf
    have hfields : (s.setProc p { s.procs p with chan := none }).Inv := h.fields rfl
    exact hfields.goto hc hx hheld hwf hpark hfork
  | reparent i status =>
    cases hs
    exact h.reparentStep hc hx
  | exitSet status =>
    cases hs
    exact h.park hc (by rw [hx]; rfl) (.inr (.inr rfl)) rfl ⟨rfl, rfl, trivial⟩ nofun
  | dead =>
    cases hs
  | wait i havekids =>
    cases hs
    exact h.waitStep hc hx
  | waitAt q =>
    cases hs
    exact h.waitBody hc hx
  | alloc i =>
    cases hs
    rw [allocStep]
    split
    · exact h.goto hc hx rfl ⟨rfl, rfl, trivial⟩ rfl rfl
    · exact h.goto hc hx rfl trivial rfl rfl
  | allocAt q =>
    cases hs
    exact h.allocBody hc hx
  | copying q =>
    cases hs
    exact h.copyBody hc hx
  | setParent q =>
    cases hs
    have hfields : (s.setProc q { s.procs q with parent := some p }).Inv := h.fields rfl
    exact hfields.gotoFork hc hx rfl ⟨rfl, rfl, trivial⟩ rfl rfl
  | setRunnable q =>
    cases hs
    exact h.setRunnable hc hx
  | loop l =>
    cases hs
    exact h.loopStep hc hx
  | full pi =>
    cases hs
    exact h.fullStep hc hx
  | lockP q next =>
    exact h.sharedStep hc (hx ▸ hs)
  | unlockP q next =>
    exact h.sharedStep hc (hx ▸ hs)
  | wakeup chan i next =>
    exact h.sharedStep hc (hx ▸ hs)
  | wakeupAt chan q next =>
    exact h.sharedStep hc (hx ▸ hs)

end

end Thread

end State

end FogOS.Sched
