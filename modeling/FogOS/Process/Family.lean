import FogOS.Process.Table

/-!
# Parents and children

Every process that has started has a parent that is neither free nor a zombie.
`fork` publishes the child in separate critical sections, so the invariant also says
what the table looks like between them.
-/

namespace FogOS.Process

open Function Library

namespace ProcState

/-- The process has started and has not called `exit`. -/
def Up : ProcState → Prop
  | .sleeping | .runnable | .running => True
  | _ => False

/-- The process has started and has not been reaped. -/
def Started (s : ProcState) : Prop := s.Up ∨ s = .zombie

end ProcState

/-- The thread is in `fork` and has allocated the slot `np` for the child. -/
def Phase.Forks (ph : Phase) (np : Slot) : Prop := ph = .forked np ∨ ph = .adopted np

theorem not_forks_user {np : Slot} : ¬ Phase.user.Forks np := by
  rintro (h | h) <;> cases h

/-- The thread is inside one of the calls. -/
def Phase.InCall (ph : Phase) : Prop := ph ≠ .user ∧ ph ≠ .exited

structure Family (t : Table) : Prop where
  init : (t.procs t.initproc).state.Up
  hasParent : ∀ q, q ≠ t.initproc → (t.procs q).state.Started → (t.procs q).parent ≠ none
  parentUp : ∀ q p, (t.procs q).parent = some p → (t.procs p).state.Up
  free : ∀ q, (t.procs q).state = .unused → (t.procs q).parent = none
  busy : ∀ p, (t.phase p).InCall → (t.procs p).state.Up
  child : ∀ p np, (t.phase p).Forks np → (t.procs np).state = .used
  adopted : ∀ p np, t.phase p = .adopted np → (t.procs np).parent = some p
  solo : ∀ p p' np, (t.phase p).Forks np → (t.phase p').Forks np → p = p'

theorem family_boot : Family boot := by
  have hzero : ∀ q, q ≠ 0 → boot.procs q = Proc.zero := by
    intro q hq
    simp [boot, update_of_ne hq]
  have hnone : ∀ q, (boot.procs q).parent = none := by
    intro q
    by_cases hq : q = 0
    · rw [hq]
      rfl
    · rw [hzero q hq]
      rfl
  refine ⟨trivial, fun q hq hs => ?_, fun q p hp => ?_, fun q _ => hnone q, ?_, ?_, ?_, ?_⟩
  · rw [hzero q hq] at hs
    rcases hs with hs | hs <;> cases hs
  · rw [hnone q] at hp
    cases hp
  · exact fun p hp => absurd rfl hp.1
  · rintro p np (hp | hp) <;> cases hp
  · exact fun p np hp => by cases hp
  · rintro p p' np (hp | hp) <;> cases hp

namespace Family

variable {t t' : Table}

/-- The states of processes that are up change, and nothing else does. -/
theorem restate (h : Family t) (hphase : t'.phase = t.phase) (hinit : t'.initproc = t.initproc)
    (hparent : ∀ q, (t'.procs q).parent = (t.procs q).parent)
    (hstate : ∀ q, (t'.procs q).state = (t.procs q).state ∨
      (t.procs q).state.Up ∧ (t'.procs q).state.Up) : Family t' := by
  have hup : ∀ q, (t.procs q).state.Up → (t'.procs q).state.Up := by
    intro q hq
    rcases hstate q with heq | hboth
    · rwa [heq]
    · exact hboth.2
  refine ⟨?_, fun q hq hs => ?_, fun q p hp => ?_, fun q hq => ?_, fun p hp => ?_, fun p np hp => ?_,
    fun p np hp => ?_, ?_⟩
  · rw [hinit]
    exact hup _ h.init
  · rw [hinit] at hq
    rw [hparent q]
    refine h.hasParent q hq ?_
    rcases hstate q with heq | hboth
    · rwa [heq] at hs
    · exact .inl hboth.1
  · rw [hparent q] at hp
    exact hup p (h.parentUp q p hp)
  · rw [hparent q]
    refine h.free q ?_
    rcases hstate q with heq | hboth
    · rwa [heq] at hq
    · rw [hq] at hboth
      exact hboth.2.elim
  · rw [hphase] at hp
    exact hup p (h.busy p hp)
  · rw [hphase] at hp
    have hused := h.child p np hp
    rcases hstate np with heq | hboth
    · rwa [heq]
    · rw [hused] at hboth
      exact hboth.1.elim
  · rw [hphase] at hp
    rw [hparent np]
    exact h.adopted p np hp
  · rw [hphase]
    exact h.solo

/-- The thread of `p` goes to another point. -/
theorem setPhase (h : Family t) (p : Slot) (ph : Phase) (hup : ph.InCall → (t.procs p).state.Up)
    (hph : ∀ np, ph.Forks np → (t.procs np).state = .used ∧
      (ph = .adopted np → (t.procs np).parent = some p) ∧ ∀ p', p' ≠ p → ¬ (t.phase p').Forks np) :
    Family (t.setPhase p ph) := by
  have hself : (t.setPhase p ph).phase p = ph := update_self _ _ _
  have hother : ∀ p', p' ≠ p → (t.setPhase p ph).phase p' = t.phase p' := fun p' hp' =>
    update_of_ne hp' _ _
  refine ⟨h.init, h.hasParent, h.parentUp, h.free, fun p' hp => ?_, fun p' np hf => ?_,
    fun p' np hf => ?_, fun p' p'' np hf hf' => ?_⟩
  · by_cases hpp : p' = p
    · rw [hpp, hself] at hp
      rw [hpp]
      exact hup hp
    · rw [hother p' hpp] at hp
      exact h.busy p' hp
  · by_cases hpp : p' = p
    · rw [hpp, hself] at hf
      exact (hph np hf).1
    · rw [hother p' hpp] at hf
      exact h.child p' np hf
  · by_cases hpp : p' = p
    · rw [hpp, hself] at hf
      rw [hpp]
      exact (hph np (.inr hf)).2.1 hf
    · rw [hother p' hpp] at hf
      exact h.adopted p' np hf
  · by_cases hpp : p' = p <;> by_cases hpq : p'' = p
    · rw [hpp, hpq]
    · rw [hpp, hself] at hf
      rw [hother p'' hpq] at hf'
      exact absurd hf' ((hph np hf).2.2 p'' hpq)
    · rw [hpq, hself] at hf'
      rw [hother p' hpp] at hf
      exact absurd hf ((hph np hf').2.2 p' hpp)
    · rw [hother p' hpp] at hf
      rw [hother p'' hpq] at hf'
      exact h.solo p' p'' np hf hf'

theorem emit (h : Family t) (e : Event) : Family (t.emit e) :=
  ⟨h.init, h.hasParent, h.parentUp, h.free, h.busy, h.child, h.adopted, h.solo⟩

theorem wakeup (h : Family t) (me : Slot) (chan : Option Chan) : Family (t.wakeup me chan) := by
  refine h.restate rfl rfl (t.wakeup_parent me chan) fun q => ?_
  · simp only [Table.wakeup]
    split
    · next hc =>
      rw [hc.2.1]
      exact .inr ⟨trivial, trivial⟩
    · exact .inl rfl

/-- One slot is overwritten. A process that stops being up is not `init`, has no children and is
in no call. -/
theorem setProc (h : Family t) {np : Slot} {pr : Proc}
    (hup : (t.procs np).state.Up → pr.state.Up ∨
      (np ≠ t.initproc ∧ (∀ q, (t.procs q).parent ≠ some np) ∧ ¬ (t.phase np).InCall))
    (hstart : np ≠ t.initproc → pr.state.Started → pr.parent ≠ none)
    (hpar : ∀ x, pr.parent = some x → ((t.setProc np pr).procs x).state.Up)
    (hfree : pr.state = .unused → pr.parent = none)
    (hfork : ∀ p, (t.phase p).Forks np →
      pr.state = .used ∧ (t.phase p = .adopted np → pr.parent = some p)) :
    Family (t.setProc np pr) := by
  have hself : (t.setProc np pr).procs np = pr := update_self _ _ _
  have hother : ∀ q, q ≠ np → (t.setProc np pr).procs q = t.procs q := fun q hq =>
    update_of_ne hq _ _
  refine ⟨?_, fun q hq hs => ?_, fun q p hp => ?_, fun q hq => ?_, fun p hp => ?_, fun p x hp => ?_,
    fun p x hp => ?_, h.solo⟩
  · by_cases hi : t.initproc = np
    · have hold := h.init
      rw [hi] at hold
      rw [Table.setProc_initproc, hi, hself]
      exact (hup hold).resolve_right fun hno => hno.1 hi.symm
    · rw [Table.setProc_initproc, hother _ hi]
      exact h.init
  · by_cases hqn : q = np
    · rw [hqn, hself] at hs ⊢
      exact hstart (hqn ▸ hq) hs
    · rw [hother q hqn] at hs ⊢
      exact h.hasParent q hq hs
  · by_cases hqn : q = np
    · rw [hqn, hself] at hp
      exact hpar p hp
    · rw [hother q hqn] at hp
      have hold := h.parentUp q p hp
      by_cases hpn : p = np
      · rw [hpn] at hp hold
        rw [hpn, hself]
        exact (hup hold).resolve_right fun hno => hno.2.1 q hp
      · rw [hother p hpn]
        exact hold
  · by_cases hqn : q = np
    · rw [hqn, hself] at hq ⊢
      exact hfree hq
    · rw [hother q hqn] at hq ⊢
      exact h.free q hq
  · have hold := h.busy p hp
    by_cases hpn : p = np
    · rw [hpn] at hp hold
      rw [hpn, hself]
      exact (hup hold).resolve_right fun hno => hno.2.2 hp
    · rw [hother p hpn]
      exact hold
  · by_cases hxn : x = np
    · rw [hxn] at hp ⊢
      rw [hself]
      exact (hfork p hp).1
    · rw [hother x hxn]
      exact h.child p x hp
  · by_cases hxn : x = np
    · rw [hxn] at hp ⊢
      rw [hself]
      exact (hfork p (.inr hp)).2 hp
    · rw [hother x hxn]
      exact h.adopted p x hp

/-- A process that is up is not the child of a `fork` in progress. -/
theorem not_forks (h : Family t) {np : Slot} (hne : (t.procs np).state ≠ .used) (p : Slot) :
    ¬ (t.phase p).Forks np := fun hf => hne (h.child p np hf)

variable {p : Slot}

/-- A process that is up gets another state in which it is up. -/
theorem setState (h : Family t) {pr : Proc} (hpar : pr.parent = (t.procs p).parent)
    (hold : (t.procs p).state.Up) (hnew : pr.state.Up) : Family (t.setProc p pr) := by
  have hused : (t.procs p).state ≠ .used := by
    intro hu
    rw [hu] at hold
    exact hold
  refine h.setProc (fun _ => .inl hnew) (fun hp _ => ?_) (fun x hx => ?_) (fun hu => ?_)
    fun p' hf => absurd hf (h.not_forks hused p')
  · rw [hpar]
    exact h.hasParent p hp (.inl hold)
  · by_cases hxp : x = p
    · rw [hxp, Table.setProc_procs, update_self]
      exact hnew
    · rw [Table.setProc_procs, update_of_ne hxp]
      exact h.parentUp p x (hpar ▸ hx)
  · rw [hu] at hnew
    exact hnew.elim

section Fork

theorem allocproc (h : Family t) {np : Slot} (hnp : (t.procs np).state = .unused) :
    Family (t.allocproc np) := by
  have hpar : ∀ x, { t.procs np with pid := t.nextpid, state := .used }.parent ≠ some x := by
    intro x hx
    have hnone := h.free np hnp
    simp only [hnone] at hx
    cases hx
  have hset : Family (t.setProc np { t.procs np with pid := t.nextpid, state := .used }) := by
    refine h.setProc (fun hup => ?_) (fun _ hs => ?_) (fun x hx => absurd hx (hpar x)) nofun
      fun p hf => ?_
    · rw [hnp] at hup
      exact hup.elim
    · rcases hs with hs | hs <;> cases hs
    · have hused := h.child p np hf
      rw [hnp] at hused
      cases hused
  have hphase := hset.setPhase np .user (fun hc => absurd rfl hc.1) fun _ hf => absurd hf not_forks_user
  exact ⟨hphase.init, hphase.hasParent, hphase.parentUp, hphase.free, hphase.busy, hphase.child,
    hphase.adopted, hphase.solo⟩

/-- A process that is not up and that no `fork` is making is freed. -/
theorem freeproc (h : Family t) {q : Slot} (hq : ¬ (t.procs q).state.Up)
    (hf : ∀ p, ¬ (t.phase p).Forks q) : Family (t.freeproc q) := by
  refine h.setProc (fun hup => absurd hup hq) (fun _ hs => ?_) nofun (fun _ => rfl)
    fun p hp => absurd hp (hf p)
  rcases hs with hs | hs <;> cases hs

theorem fork (h : Family t) {found : Option Slot} {memory : Bool}
    (hs : t.fork p found memory = .ok t') : Family t' := by
  obtain ⟨_, hs⟩ := of_guard hs
  next hat =>
  cases found with
  | none =>
    cases hs
    exact h
  | some np =>
    obtain ⟨_, hs⟩ := of_guard_not hs
    next hfree =>
    have hnp := not_not.mp hfree
    have hne : p ≠ np := by
      rintro rfl
      rw [hat.1] at hnp
      cases hnp
    have halloc := h.allocproc hnp
    have hused : ((t.allocproc np).procs np).state = .used := by simp [Table.allocproc]
    -- Nobody was making a child in the free slot, and the new thread is in no call.
    have hnobody : ∀ p', ¬ ((t.allocproc np).phase p').Forks np := by
      intro p' hf
      by_cases hp' : p' = np
      · simp only [Table.allocproc, Table.setPhase_phase, hp', update_self] at hf
        exact not_forks_user hf
      · simp only [Table.allocproc, Table.setPhase_phase, update_of_ne hp'] at hf
        exact h.not_forks (by rw [hnp]; exact nofun) p' hf
    split at hs
    · cases hs
      refine halloc.setPhase p (.forked np) (fun _ => ?_) fun x hx => ?_
      · simp [Table.allocproc, hne, hat.1, ProcState.Up]
      · rcases hx with hx | hx <;> cases hx
        exact ⟨hused, nofun, fun p' _ => hnobody p'⟩
    · cases hs
      exact halloc.freeproc (by rw [hused]; exact id) hnobody

theorem forkParent (h : Family t) (hs : t.forkParent p = .ok t') : Family t' := by
  unfold Table.forkParent at hs
  split at hs
  · next np hp =>
    split at hs
    · next hrun =>
      cases hs
      have hused := h.child p np (.inl hp)
      have hne : p ≠ np := by
        rintro rfl
        rw [hrun] at hused
        cases hused
      have hsolo : ∀ p', (t.phase p').Forks np → p' = p := fun p' hf => h.solo p' p np hf (.inl hp)
      have hset : Family (t.setProc np { t.procs np with parent := some p }) := by
        refine h.setProc (fun hup => .inl hup) nofun (fun x hx => ?_) (fun hu => ?_) fun p' hf => ?_
        · cases hx
          rw [Table.setProc_procs, update_of_ne hne, hrun]
          trivial
        · simp only [hused] at hu
          cases hu
        · rw [hsolo p' hf, hp]
          exact ⟨hused, nofun⟩
      refine hset.setPhase p (.adopted np) (fun _ => ?_) fun x hx => ?_
      · rw [Table.setProc_procs, update_of_ne hne, hrun]
        trivial
      · rcases hx with hx | hx <;> cases hx
        exact ⟨by simpa using hused, fun _ => by simp, fun p' hp' hf => hp' (hsolo p' hf)⟩
    · cases hs
  · cases hs

theorem forkRunnable (h : Family t) (hs : t.forkRunnable p = .ok t') : Family t' := by
  unfold Table.forkRunnable at hs
  split at hs
  · next np hp =>
    split at hs
    · next hrun =>
      cases hs
      have hpar := h.adopted p np hp
      have hsolo : ∀ p', (t.phase p').Forks np → p' = p := fun p' hf => h.solo p' p np hf (.inr hp)
      have hphase := h.setPhase p .user (fun hc => absurd rfl hc.1) fun _ hf => absurd hf not_forks_user
      -- The thread of `p` leaves `fork` before the child becomes runnable; the two commute.
      have hset : Family ((t.setPhase p .user).setProc np { t.procs np with state := .runnable }) := by
        refine hphase.setProc (fun _ => .inl trivial) (fun _ _ => ?_) (fun x hx => ?_) nofun
          fun p' hf => ?_
        · simp only [hpar]
          exact nofun
        · simp only [hpar] at hx
          cases hx
          by_cases hpn : p = np
          · rw [hpn, Table.setProc_procs, update_self]
            trivial
          · rw [Table.setProc_procs, update_of_ne hpn, Table.setPhase_procs, hrun]
            trivial
        · by_cases hp' : p' = p
          · rw [hp', Table.setPhase_phase, update_self] at hf
            exact absurd hf not_forks_user
          · rw [Table.setPhase_phase, update_of_ne hp'] at hf
            exact absurd (hsolo p' hf) hp'
      exact hset
    · cases hs
  · cases hs

end Fork

section Exit

theorem adopt (h : Family t) (hp : p ≠ t.initproc) (hphase : t.phase p = .user) :
    Family (t.adopt p) ∧ ∀ q, ((t.adopt p).procs q).parent ≠ some p := by
  have hstate : ∀ q, ((t.adopt p).procs q).state = (t.procs q).state := by
    intro q
    simp only [Table.adopt]
    split <;> rfl
  have hparent : ∀ q, ((t.adopt p).procs q).parent
      = if (t.procs q).parent = some p then some t.initproc else (t.procs q).parent := by
    intro q
    simp only [Table.adopt]
    split <;> rfl
  refine ⟨⟨?_, fun q hq hs => ?_, fun q p' hp' => ?_, fun q hq => ?_, fun p' hp' => ?_,
    fun p' np hf => ?_, fun p' np hf => ?_, h.solo⟩, fun q => ?_⟩
  · rw [hstate]
    exact h.init
  · rw [hparent]
    rw [hstate] at hs
    split
    · simp
    · exact h.hasParent q hq hs
  · rw [hstate]
    rw [hparent] at hp'
    split at hp'
    · cases hp'
      exact h.init
    · exact h.parentUp q p' hp'
  · rw [hstate] at hq
    rw [hparent, h.free q hq]
    rfl
  · rw [hstate]
    exact h.busy p' hp'
  · rw [hstate]
    exact h.child p' np hf
  · have hpar := h.adopted p' np hf
    have hne : p' ≠ p := by
      rintro rfl
      exact absurd (hphase.symm.trans hf) (by simp)
    rw [hparent, hpar, if_neg fun hc => hne (Option.some.inj hc)]
  · rw [hparent]
    split
    · exact fun hc => hp (Option.some.inj hc).symm
    · next hne => exact hne

/-- Handing over the children leaves the process without children. -/
theorem reparent (h : Family t) (hp : p ≠ t.initproc) (hphase : t.phase p = .user) :
    Family (t.reparent p) ∧ (∀ q, ((t.reparent p).procs q).parent ≠ some p) ∧
      (t.reparent p).initproc = t.initproc := by
  obtain ⟨hadopt, hnone⟩ := h.adopt hp hphase
  unfold Table.reparent
  split
  · refine ⟨hadopt.wakeup p _, fun q => ?_, rfl⟩
    rw [Table.wakeup_parent]
    exact hnone q
  · exact ⟨hadopt, hnone, rfl⟩

/-- A process without children becomes a zombie. -/
theorem zombie (h : Family t) (hp : p ≠ t.initproc)
    (hnone : ∀ q, (t.procs q).parent ≠ some p) (hrun : (t.procs p).state = .running) (status : Int) :
    Family ((t.setPhase p .exited).setProc p { t.procs p with xstate := status, state := .zombie }) := by
  have hup : (t.procs p).state.Up := by
    rw [hrun]
    trivial
  have hphase := h.setPhase p .exited (fun hc => absurd rfl hc.2) fun np hf => by
    rcases hf with hf | hf <;> cases hf
  refine hphase.setProc (fun _ => .inr ⟨hp, hnone, fun hc => ?_⟩) (fun _ _ => ?_) (fun x hx => ?_) nofun
    fun p' hf => ?_
  · rw [Table.setPhase_phase, update_self] at hc
    exact hc.2 rfl
  · exact h.hasParent p hp (.inl hup)
  · have hxp : x ≠ p := by
      rintro rfl
      exact hnone x hx
    rw [Table.setProc_procs, update_of_ne hxp]
    exact h.parentUp p x hx
  · exact absurd hf (hphase.not_forks (by rw [Table.setPhase_procs, hrun]; exact nofun) p')

theorem exit (h : Family t) {status : Int} (hs : t.exit p status = .ok t') : Family t' := by
  obtain ⟨_, hs⟩ := of_guard hs
  next hat =>
  obtain ⟨_, hs⟩ := of_guard_not hs
  next hp =>
  cases hs
  obtain ⟨hrep, hnone, hinit⟩ := h.reparent hp hat.2
  have hwake := hrep.wakeup p (((t.reparent p).procs p).parent.map .proc)
  refine Family.emit ?_ _
  refine hwake.zombie (fun hc => hp (hc.trans hinit)) (fun q => ?_) ?_ status
  · rw [Table.wakeup_parent]
    exact hnone q
  · rw [Table.wakeup_self]
    exact Table.reparent_self_state hat.1

theorem waitScan (h : Family t) {copied : Bool} (hs : t.waitScan p copied = .ok t') :
    Family t' := by
  obtain ⟨addr, hp⟩ := waitScan_phase hs
  obtain ⟨hrun, ⟨q, ⟨_, hzombie⟩, _, rfl⟩ | ⟨_, rfl⟩ | ⟨_, rfl⟩⟩ := waitScan_cases hp hs
  · have hfree := h.freeproc (q := q) (by rw [hzombie]; exact id)
      (h.not_forks (by rw [hzombie]; exact nofun))
    exact (hfree.setPhase p .user (fun hc => absurd rfl hc.1) fun _ hf =>
      absurd hf not_forks_user).emit _
  · exact (h.setPhase p .user (fun hc => absurd rfl hc.1) fun _ hf =>
      absurd hf not_forks_user).emit _
  · exact h.setState rfl (by rw [hrun]; trivial) trivial

end Exit

theorem killSlot (h : Family t) (hs : t.killSlot p = .ok t') : Family t' := by
  obtain ⟨pid, i, hp⟩ := killSlot_phase hs
  obtain ⟨q, _, rfl⟩ | rfl | rfl := killSlot_cases hp hs
  · have hmark : Family (t.setProc q { t.procs q with
        killed := true
        state := if (t.procs q).state = .sleeping then .runnable else (t.procs q).state }) := by
      refine h.restate rfl rfl (fun q' => ?_) fun q' => ?_
      · by_cases hq : q' = q
        · rw [hq, Table.setProc_procs, update_self]
        · rw [Table.setProc_procs, update_of_ne hq]
      · by_cases hq : q' = q
        · rw [hq, Table.setProc_procs, update_self]
          by_cases hsleep : (t.procs q).state = .sleeping
          · exact .inr (by simp [hsleep, ProcState.Up])
          · exact .inl (if_neg hsleep)
        · rw [Table.setProc_procs, update_of_ne hq]
          exact .inl rfl
    exact (hmark.setPhase p .user (fun hc => absurd rfl hc.1) fun _ hf =>
      absurd hf not_forks_user).emit _
  · refine h.setPhase p _ (fun _ => h.busy p ?_) fun np hf => ?_
    · rw [hp]
      exact ⟨nofun, nofun⟩
    · rcases hf with hf | hf <;> cases hf
  · exact (h.setPhase p .user (fun hc => absurd rfl hc.1) fun _ hf =>
      absurd hf not_forks_user).emit _

/-- Every step keeps the family. -/
theorem step (h : Family t) {a : Act} (hs : step t a = .ok t') : Family t' := by
  have hrunning : ∀ {p}, (t.procs p).state = .running → (t.procs p).state.Up := by
    intro p hp
    rw [hp]
    trivial
  cases a with
  | fork p found memory => exact h.fork hs
  | forkParent p => exact h.forkParent hs
  | forkRunnable p => exact h.forkRunnable hs
  | exit p status => exact h.exit hs
  | wait p addr =>
    obtain ⟨_, hs⟩ := of_guard hs
    next hat =>
    cases hs
    refine h.setPhase p (.waiting addr) (fun _ => hrunning hat.1) fun np hf => ?_
    rcases hf with hf | hf <;> cases hf
  | waitScan p copied => exact h.waitScan hs
  | kill p pid =>
    obtain ⟨_, hs⟩ := of_guard hs
    next hat =>
    cases hs
    refine h.setPhase p (.killing pid 0) (fun _ => hrunning hat.1) fun np hf => ?_
    rcases hf with hf | hf <;> cases hf
  | killSlot p => exact h.killSlot hs
  | setkilled p =>
    obtain ⟨_, hs⟩ := of_guard hs
    next hat =>
    cases hs
    exact h.setState rfl (hrunning hat.1) (hrunning hat.1)
  | sleep p chan =>
    obtain ⟨_, hs⟩ := of_guard hs
    next hat =>
    cases hs
    exact h.setState rfl (hrunning hat.1) trivial
  | wakeup p chan =>
    simp only [Process.step] at hs
    split at hs <;> cases hs
    exact h.wakeup p _
  | dispatch p =>
    obtain ⟨_, hs⟩ := of_guard hs
    next hrun =>
    cases hs
    exact h.setState rfl (by rw [hrun]; trivial) trivial
  | yield p =>
    obtain ⟨_, hs⟩ := of_guard hs
    next hrun =>
    cases hs
    exact h.setState rfl (hrunning hrun) trivial

theorem run {acts : List Act} (h : run Process.step boot acts = .ok t) : Family t :=
  run_preserves (fun _ _ _ hs hstep => hs.step hstep) family_boot h

end Family

end FogOS.Process
