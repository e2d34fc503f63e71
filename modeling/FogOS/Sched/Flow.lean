import FogOS.Sched.Locks

/-!
# What a step does to the control and to the process table

A step moves one thread from a statement to one that can follow it, and changes one slot of the
process table in one of the ways that the code has. Later invariants use these two facts and not
the step function.
-/

namespace FogOS.Sched

open Function Library Process

variable {M : Type}

/-- The calls that a thread makes from outside the code modelled here. -/
inductive Starts (p : Slot) : Point → Prop
  | kill (pid : Int) : Starts p (.kill pid 0)
  | setkilled : Starts p (.lockP p .setKilled)
  | sleep (addr : Nat) (l : Lock) : Starts p (.sleep p (.other addr) l .run)
  | fork : Starts p (.alloc 0)
  | exit (status : Int) : Starts p (.lockL .wait (.reparent 0 status))
  | wait : Starts p (.lockL .wait (.wait 0 false))
  | loop (l : Loop) : Starts p (.lockL l.lock (.loop l))
  | wakeup (chan : Chan) : Starts p (.wakeup (some chan) 0 .run)
  | other : Starts p .run

/-- The statement that follows one of the thread of `p` on CPU `c`. -/
inductive Goes (s : State M) (c : Cpu) (p : Slot) : Point → Point → Prop
  | call {x : Point} (h : Starts p x) : Goes s c p .run x
  | ret (v : Int) : Goes s c p (.ret v) .run
  | lockP (q : Slot) (next : Point) : Goes s c p (.lockP q next) next
  | unlockP (q : Slot) (next : Point) : Goes s c p (.unlockP q next) next
  | lockL (l : Lock) (next : Point) : Goes s c p (.lockL l next) next
  | unlockL (l : Lock) (next : Point) : Goes s c p (.unlockL l next) next
  | wakeupSelf (chan : Option Chan) {i : Nat} (hi : i < nproc) (next : Point)
      (hself : some ⟨i, hi⟩ = s.cproc c) :
      Goes s c p (.wakeup chan i next) (.wakeup chan (i + 1) next)
  | wakeupLook (chan : Option Chan) {i : Nat} (hi : i < nproc) (next : Point) :
      Goes s c p (.wakeup chan i next) (.lockP ⟨i, hi⟩ (.wakeupAt chan ⟨i, hi⟩
        (.unlockP ⟨i, hi⟩ (.wakeup chan (i + 1) next))))
  | wakeupDone (chan : Option Chan) {i : Nat} (hi : ¬i < nproc) (next : Point) :
      Goes s c p (.wakeup chan i next) next
  | wakeupAt (chan : Option Chan) (q : Slot) (next : Point) :
      Goes s c p (.wakeupAt chan q next) next
  | killLook (pid : Int) {i : Nat} (hi : i < nproc) :
      Goes s c p (.kill pid i) (.lockP ⟨i, hi⟩ (.killAt pid ⟨i, hi⟩))
  | killNone (pid : Int) (i : Nat) : Goes s c p (.kill pid i) (.ret (-1))
  | killHit (pid : Int) (q : Slot) : Goes s c p (.killAt pid q) (.unlockP q (.ret 0))
  | killNext (pid : Int) (q : Slot) :
      Goes s c p (.killAt pid q) (.unlockP q (.kill pid (q.val + 1)))
  | readYes (yes no : Point) : Goes s c p (.readKilled yes no) (.unlockP p yes)
  | readNo (yes no : Point) (h : (s.procs p).killed = false) :
      Goes s c p (.readKilled yes no) (.unlockP p no)
  | setKilled : Goes s c p .setKilled (.unlockP p .run)
  | yieldSet (next : Point) : Goes s c p (.yieldSet next) (.sched (.unlockP p next))
  | sleepSet (chan : Chan) (l : Lock) (next : Point) :
      Goes s c p (.sleepSet chan l next) (.sched (.wake p l next))
  | sched (next : Point) (hlock : s.plock p = some c) (hnoff : s.noff c = 1) :
      Goes s c p (.sched next) next
  | tidyUp (next : Point) : Goes s c p (.tidyUp next) next
  | reparentTo {i : Nat} (status : Int) (hi : i < nproc) :
      Goes s c p (.reparent i status) (.wakeup (s.initproc.map .proc) 0 (.reparent (i + 1) status))
  | reparentNext {i : Nat} (status : Int) (hi : i < nproc)
      (hparent : (s.procs ⟨i, hi⟩).parent ≠ some p) :
      Goes s c p (.reparent i status) (.reparent (i + 1) status)
  | reparented {i : Nat} (status : Int) (hi : ¬i < nproc) :
      Goes s c p (.reparent i status)
        (.wakeup ((s.procs p).parent.map .proc) 0 (.lockP p (.exitSet status)))
  | exitSet (status : Int) : Goes s c p (.exitSet status) (.unlockL .wait (.sched .dead))
  | waitLook {i : Nat} (havekids : Bool) (hi : i < nproc) :
      Goes s c p (.wait i havekids) (.lockP ⟨i, hi⟩ (.waitAt ⟨i, hi⟩))
  | waitSkip {i : Nat} (havekids : Bool) (hi : i < nproc)
      (hparent : (s.procs ⟨i, hi⟩).parent ≠ some p) :
      Goes s c p (.wait i havekids) (.wait (i + 1) havekids)
  | waitNone (i : Nat) (havekids : Bool) :
      Goes s c p (.wait i havekids) (.unlockL .wait (.ret (-1)))
  | waitSleep {i : Nat} (havekids : Bool) (hi : ¬i < nproc) :
      Goes s c p (.wait i havekids) (.killed p (.unlockL .wait (.ret (-1)))
        (.sleep p (.proc p) .wait (.wait 0 false)))
  | waitFound (q : Slot) (v : Int) :
      Goes s c p (.waitAt q) (.unlockP q (.unlockL .wait (.ret v)))
  | waitNext (q : Slot) (hstate : (s.procs q).state ≠ .zombie) :
      Goes s c p (.waitAt q) (.unlockP q (.wait (q.val + 1) true))
  | allocLook {i : Nat} (hi : i < nproc) :
      Goes s c p (.alloc i) (.lockP ⟨i, hi⟩ (.allocAt ⟨i, hi⟩))
  | allocNone (i : Nat) : Goes s c p (.alloc i) (.ret (-1))
  | allocFound (q : Slot) : Goes s c p (.allocAt q) (.copying q)
  | allocNext (q : Slot) : Goes s c p (.allocAt q) (.unlockP q (.alloc (q.val + 1)))
  | copyFailed (q : Slot) : Goes s c p (.copying q) (.unlockP q (.ret (-1)))
  | copied (q : Slot) : Goes s c p (.copying q) (.unlockP q (.lockL .wait (.setParent q)))
  | setParent (q : Slot) :
      Goes s c p (.setParent q) (.unlockL .wait (.lockP q (.setRunnable q)))
  | setRunnable (q : Slot) (v : Int) : Goes s c p (.setRunnable q) (.unlockP q (.ret v))
  | loopStop (l : Loop) : Goes s c p (.loop l) (.unlockL l.lock (.ret (-1)))
  | loopDone (l : Loop) : Goes s c p (.loop l) .run
  | loopFull (pi : Nat) :
      Goes s c p (.loop (.pipewrite pi)) (.killed p (.unlockL (.pipe pi) (.ret (-1))) (.full pi))
  | loopSleep (l : Loop) :
      Goes s c p (.loop l) (.killed p (.unlockL l.lock (.ret (-1)))
        (.sleep p l.chan l.lock (.loop l)))
  | fullSleep (pi : Nat) :
      Goes s c p (.full pi) (.wakeup (some (nreadChan pi)) 0
        (.sleep p (nwriteChan pi) (.pipe pi) (.loop (.pipewrite pi))))
  | fullWrite (pi : Nat) : Goes s c p (.full pi) (.loop (.pipewrite pi))
  | fullDone (pi : Nat) : Goes s c p (.full pi) .run
  | timer (x : Point) (hnoff : s.noff c = 0) : Goes s c p x (.lockP p (.yieldSet x))

namespace State

variable {s s' u : State M} {c : Cpu} {p q : Slot} {x y : Point}

section Control

@[simp] theorem setPoint_self (s : State M) (p : Slot) (x : Point) : (s.setPoint p x).point p = x :=
  update_self ..

theorem setPoint_of_ne (s : State M) {p q : Slot} (h : q ≠ p) (x : Point) :
    (s.setPoint p x).point q = s.point q :=
  update_of_ne h _ _

theorem wakeSlot_eq (s : State M) (chan : Option Chan) (q : Slot) :
    ∃ v, s.wakeSlot chan q = s.setProc q v := by
  rw [wakeSlot]
  split
  · exact ⟨_, rfl⟩
  · exact ⟨s.procs q, by simp [setProc]⟩

theorem killSlot_eq (s : State M) (q : Slot) : s.killSlot q = s.setProc q { s.procs q with
    killed := true
    state := if (s.procs q).state = .sleeping then .runnable else (s.procs q).state } := by
  simp only [killSlot, setState, setProc, update_self, update_idem]
  split <;> rfl

theorem schedSwitch_ok {next : Point} (h : s.schedSwitch c p next = .ok s') :
    s.plock p = some c ∧ s.noff c = 1 ∧ s' = (s.setPoint p next).setSched c (.back p) := by
  obtain ⟨hlock, h⟩ := of_guard_not h
  obtain ⟨hnoff, h⟩ := of_guard_not h
  obtain ⟨_, ⟨⟩⟩ := of_guard_not h
  exact ⟨by simpa using hlock, by simpa using hnoff, rfl⟩

/-- What a statement of the thread of `p` on CPU `c` leaves. -/
structure Frame (s : State M) (c : Cpu) (p : Slot) (s' : State M) : Prop where
  irq : s'.irq = s.irq
  cproc : s'.cproc = s.cproc
  initproc : s'.initproc = s.initproc
  sched : s'.sched = s.sched ∨
    ∃ next, s.point p = .sched next ∧ s'.sched = update s.sched c (.back p)
  point : ∀ q, q ≠ p → s'.point q = s.point q ∨
    s.point p = .allocAt q ∧ (s.procs q).state = .unused ∧ s'.point q = .forkret q

end Control

section Table

/-- The new value of slot `q` after a step of CPU `c`. -/
inductive Change (s : State M) (c : Cpu) (q : Slot) : Proc → Prop
  | same : Change s c q (s.procs q)
  | wake (chan : Option Chan) (next : Point) (hx : s.control c = .wakeupAt chan q next)
      (hstate : (s.procs q).state = .sleeping) (hchan : (s.procs q).chan = chan) :
      Change s c q { s.procs q with state := .runnable }
  | kill (p : Slot) (hc : s.sched c = .inside p) (hx : s.point p = .killAt (s.procs q).pid q) :
      Change s c q { s.procs q with
        killed := true
        state := if (s.procs q).state = .sleeping then .runnable else (s.procs q).state }
  | setKilled (hc : s.sched c = .inside q) (hx : s.point q = .setKilled) :
      Change s c q { s.procs q with killed := true }
  | yieldSet (next : Point) (hc : s.sched c = .inside q) (hx : s.point q = .yieldSet next) :
      Change s c q { s.procs q with state := .runnable }
  | sleepSet (chan : Chan) (l : Lock) (next : Point) (hc : s.sched c = .inside q)
      (hx : s.point q = .sleepSet chan l next) :
      Change s c q { s.procs q with chan := some chan, state := .sleeping }
  | tidyUp (next : Point) (hc : s.sched c = .inside q) (hx : s.point q = .tidyUp next) :
      Change s c q { s.procs q with chan := none }
  | reparent (p : Slot) (status : Int) (hc : s.sched c = .inside p)
      (hx : s.point p = .reparent q.val status) (hparent : (s.procs q).parent = some p) :
      Change s c q { s.procs q with parent := s.initproc }
  | exitSet (status : Int) (hc : s.sched c = .inside q) (hx : s.point q = .exitSet status) :
      Change s c q { s.procs q with xstate := status, state := .zombie }
  | reap (p : Slot) (hc : s.sched c = .inside p) (hx : s.point p = .waitAt q)
      (hstate : (s.procs q).state = .zombie) : Change s c q .zero
  | alloc (p : Slot) (hc : s.sched c = .inside p) (hx : s.point p = .allocAt q)
      (hstate : (s.procs q).state = .unused) :
      Change s c q { s.procs q with pid := s.nextpid, state := .used }
  | undo (p : Slot) (hc : s.sched c = .inside p) (hx : s.point p = .copying q) :
      Change s c q .zero
  | setParent (p : Slot) (hc : s.sched c = .inside p) (hx : s.point p = .setParent q) :
      Change s c q { s.procs q with parent := some p }
  | setRunnable (p : Slot) (hc : s.sched c = .inside p) (hx : s.point p = .setRunnable q) :
      Change s c q { s.procs q with state := .runnable }
  | choose (hc : s.sched c = .choose q) : Change s c q { s.procs q with state := .running }

/-- A step that changes slot `r` at most. -/
theorem Change.of_setProc {r : Slot} {v : Proc} (hv : Change s c r v) (q : Slot) :
    Change s c q ((s.setProc r v).procs q) := by
  by_cases hq : q = r
  · subst hq
    simp only [setProc, update_self]
    exact hv
  · simp only [setProc, update_of_ne hq]
    exact .same

theorem wakeSlot_change {chan : Option Chan} {next : Point}
    (hx : s.control c = .wakeupAt chan q next) (r : Slot) :
    Change s c r ((s.wakeSlot chan q).procs r) := by
  rw [wakeSlot]
  split
  · rename_i hg
    exact .of_setProc (.wake chan next hx hg.1 hg.2) r
  · exact .same

end Table

section Effect

/-- The control of the threads and of the CPUs stays. -/
structure SameControl (s u : State M) : Prop where
  irq : u.irq = s.irq
  cproc : u.cproc = s.cproc
  initproc : u.initproc = s.initproc
  sched : u.sched = s.sched
  point : u.point = s.point

theorem SameControl.frame (h : SameControl s u) (x : Point) : Frame s c p (u.setPoint p x) :=
  ⟨h.irq, h.cproc, h.initproc, .inl h.sched,
    fun q hq => .inl (by rw [setPoint_of_ne u hq, h.point])⟩

/-- What a statement of the thread of `p` on CPU `c` does. -/
structure Effect (s : State M) (c : Cpu) (p : Slot) (s' : State M) : Prop where
  locks : LockStep c s s'
  change : ∀ q, Change s c q (s'.procs q)
  goes : Goes s c p (s.point p) (s'.point p)
  frame : Frame s c p s'

/-- The thread changes locks or processes and goes on. -/
theorem Effect.next (hx : s.point p = x) (hgoes : Goes s c p x y) (hsame : SameControl s u)
    (hlocks : LockStep c s u) (hchange : ∀ q, Change s c q (u.procs q)) :
    Effect s c p (u.setPoint p y) where
  locks := hlocks.congr rfl rfl rfl ⟨rfl, rfl⟩
  change := hchange
  goes := by rwa [hx, setPoint_self]
  frame := hsame.frame y

theorem Effect.move (hx : s.point p = x) (hgoes : Goes s c p x y) : Effect s c p (s.setPoint p y) :=
  .next hx hgoes ⟨rfl, rfl, rfl, rfl, rfl⟩ (.keep rfl rfl rfl) fun _ => .same

/-- The thread assigns to the fields of one process. -/
theorem Effect.assign {v : Proc} (hx : s.point p = x) (hgoes : Goes s c p x y)
    (hv : Change s c q v) : Effect s c p ((s.setProc q v).setPoint p y) :=
  .next hx hgoes ⟨rfl, rfl, rfl, rfl, rfl⟩ (.keep rfl rfl rfl) (.of_setProc hv)

/-- The statements that threads and interrupt handlers share. -/
theorem shared_ok {self : Option Slot} (hx : s.control c = x) (h : s.shared c self x = .ok s') :
    ∃ u y, s' = u.put c self y ∧ SameControl s u ∧ LockStep c s u ∧
      (∀ p, Goes s c p x y) ∧ ∀ q, Change s c q (u.procs q) := by
  have hmove : ∀ y, (∀ p, Goes s c p x y) → s' = s.put c self y →
      ∃ u y, s' = u.put c self y ∧ SameControl s u ∧ LockStep c s u ∧
        (∀ p, Goes s c p x y) ∧ ∀ q, Change s c q (u.procs q) := fun y hy hs =>
    ⟨s, y, hs, ⟨rfl, rfl, rfl, rfl, rfl⟩, .keep rfl rfl rfl, hy, fun _ => .same⟩
  cases x with
  | lockP q next =>
    simp only [shared] at h
    split at h
    · rename_i u hu
      obtain ⟨hfree, rfl⟩ := acquireP_ok hu
      cases h
      exact ⟨_, next, rfl, ⟨rfl, rfl, rfl, rfl, rfl⟩, .acquireP q hfree rfl rfl rfl,
        fun _ => .lockP q next, fun _ => .same⟩
    · cases h
  | unlockP q next =>
    simp only [shared] at h
    split at h
    · rename_i u hu
      obtain ⟨hheld, rfl⟩ := releaseP_ok hu
      cases h
      exact ⟨_, next, rfl, ⟨rfl, rfl, rfl, rfl, rfl⟩, .releaseP q hheld rfl rfl rfl,
        fun _ => .unlockP q next, fun _ => .same⟩
    · cases h
  | wakeup chan i next =>
    simp only [shared] at h
    split at h
    · rename_i hi
      split at h
      · rename_i hself
        cases h
        exact hmove _ (fun _ => .wakeupSelf chan hi next hself) rfl
      · cases h
        exact hmove _ (fun _ => .wakeupLook chan hi next) rfl
    · rename_i hi
      cases h
      exact hmove _ (fun _ => .wakeupDone chan hi next) rfl
  | wakeupAt chan q next =>
    cases h
    refine ⟨_, next, rfl, ?_, ?_, fun _ => .wakeupAt chan q next, wakeSlot_change hx⟩
    · obtain ⟨v, hv⟩ := wakeSlot_eq s chan q
      rw [hv]
      exact ⟨rfl, rfl, rfl, rfl, rfl⟩
    · obtain ⟨v, hv⟩ := wakeSlot_eq s chan q
      rw [hv]
      exact .keep rfl rfl rfl
  | _ => cases h

variable {ch : Choice M}

/-- The calls that threads and interrupt handlers share. -/
theorem sharedCall_ok {self : Option Slot} (hx : s.control c = .run)
    (h : s.sharedCall c self ch = .ok s') :
    (SameControl s s' ∧ LockStep c s s' ∧ s'.procs = s.procs) ∨
      ∃ chan, s' = s.put c self (.wakeup (some chan) 0 .run) := by
  cases ch with
  | lock l =>
    obtain ⟨hfree, rfl⟩ := acquireL_ok h
    exact .inl ⟨⟨rfl, rfl, rfl, rfl, rfl⟩, .acquireL l hfree rfl rfl rfl ⟨rfl, rfl⟩, rfl⟩
  | unlock l =>
    obtain ⟨hheld, rfl⟩ := releaseL_ok h
    exact .inl ⟨⟨rfl, rfl, rfl, rfl, rfl⟩, .releaseL l hheld rfl rfl rfl ⟨rfl, rfl⟩ (.inl hx), rfl⟩
  | store m =>
    cases h
    exact .inl ⟨⟨rfl, rfl, rfl, rfl, rfl⟩, .keep rfl rfl rfl, rfl⟩
  | wakeup chan =>
    cases h
    exact .inr ⟨chan, rfl⟩
  | _ => cases h

theorem sharedCall_effect (hc : s.sched c = .inside p) (hx : s.point p = .run) (ch : Choice M)
    (h : s.sharedCall c (some p) ch = .ok s') : Effect s c p s' := by
  rcases sharedCall_ok ((control_inside hc).trans hx) h with ⟨hsame, hlocks, hprocs⟩ | ⟨chan, rfl⟩
  · refine ⟨hlocks, fun q => by rw [hprocs]; exact .same, ?_, hsame.irq, hsame.cproc,
      hsame.initproc, .inl hsame.sched, fun q _ => .inl (by rw [hsame.point])⟩
    rw [hsame.point, hx]
    exact .call .other
  · exact .move hx (.call (.wakeup chan))

theorem call_effect (hc : s.sched c = .inside p) (hx : s.point p = .run)
    (h : s.call c p ch = .ok s') : Effect s c p s' := by
  cases ch with
  | kill pid =>
    cases h
    exact .move hx (.call (.kill pid))
  | setkilled =>
    cases h
    exact .move hx (.call .setkilled)
  | sleep addr l =>
    cases h
    exact .move hx (.call (.sleep addr l))
  | fork =>
    cases h
    exact .move hx (.call .fork)
  | exit status =>
    obtain ⟨_, ⟨⟩⟩ := of_guard_not h
    exact .move hx (.call (.exit status))
  | wait =>
    cases h
    exact .move hx (.call .wait)
  | loop l =>
    cases h
    exact .move hx (.call (.loop l))
  | lock l => exact sharedCall_effect hc hx (.lock l) h
  | unlock l => exact sharedCall_effect hc hx (.unlock l) h
  | store m => exact sharedCall_effect hc hx (.store m) h
  | wakeup chan => exact sharedCall_effect hc hx (.wakeup chan) h
  | go => cases h
  | yes => cases h
  | no => cases h

theorem allocBody_effect (hc : s.sched c = .inside p) (hx : s.point p = .allocAt q) :
    Effect s c p (s.allocBody p q) := by
  rw [allocBody]
  split
  · rename_i hunused
    refine ⟨.keep rfl rfl rfl, .of_setProc (.alloc p hc hx hunused), ?_, rfl, rfl, rfl, .inl rfl,
      fun r hr => ?_⟩
    · rw [hx, setPoint_self]
      exact .allocFound q
    · rw [setPoint_of_ne _ hr]
      by_cases hrq : r = q
      · subst hrq
        exact .inr ⟨hx, hunused, update_self ..⟩
      · exact .inl (update_of_ne hrq _ _)
  · exact .move hx (.allocNext q)

theorem schedSwitch_effect {next : Point} (hx : s.point p = .sched next)
    (h : s.schedSwitch c p next = .ok s') : Effect s c p s' := by
  obtain ⟨hlock, hnoff, rfl⟩ := schedSwitch_ok h
  refine ⟨.keep rfl rfl rfl, fun _ => .same, ?_, rfl, rfl, rfl, .inr ⟨next, hx, rfl⟩,
    fun q hq => .inl (setPoint_of_ne s hq _)⟩
  rw [hx]
  show Goes s c p (.sched next) ((s.setPoint p next).point p)
  rw [setPoint_self]
  exact .sched next hlock hnoff

theorem threadStep_effect (hc : s.sched c = .inside p)
    (h : s.threadStep c p ch = .ok s') : Effect s c p s' := by
  unfold threadStep at h
  split at h
  · rename_i hx
    exact call_effect hc hx h
  · rename_i v hx
    cases h
    exact .next hx (.ret v) ⟨rfl, rfl, rfl, rfl, rfl⟩ (.keep rfl rfl rfl) fun _ => .same
  · rename_i l next hx
    split at h
    · rename_i u hu
      obtain ⟨hfree, rfl⟩ := acquireL_ok hu
      cases h
      exact .next hx (.lockL l next) ⟨rfl, rfl, rfl, rfl, rfl⟩
        (.acquireL l hfree rfl rfl rfl ⟨rfl, rfl⟩) fun _ => .same
    · cases h
  · rename_i l next hx
    split at h
    · rename_i u hu
      obtain ⟨hheld, rfl⟩ := releaseL_ok hu
      cases h
      exact .next hx (.unlockL l next) ⟨rfl, rfl, rfl, rfl, rfl⟩
        (.releaseL l hheld rfl rfl rfl ⟨rfl, rfl⟩ (.inr ⟨next, (control_inside hc).trans hx⟩))
        fun _ => .same
    · cases h
  · rename_i pid i hx
    cases h
    rw [killStep]
    split
    · exact .move hx (.killLook pid _)
    · exact .move hx (.killNone pid i)
  · rename_i pid q hx
    cases h
    rw [killBody, killSlot_eq]
    split
    · rename_i hpid
      subst hpid
      exact .assign hx (.killHit _ q) (.kill p hc hx)
    · exact .move hx (.killNext pid q)
  · rename_i yes no hx
    cases h
    split
    · exact .move hx (.readYes yes no)
    · rename_i hkilled
      exact .move hx (.readNo yes no (by simpa using hkilled))
  · rename_i hx
    cases h
    exact .assign hx .setKilled (.setKilled hc hx)
  · rename_i next hx
    cases h
    exact .assign hx (.yieldSet next) (.yieldSet next hc hx)
  · rename_i chan l next hx
    cases h
    exact .assign hx (.sleepSet chan l next) (.sleepSet chan l next hc hx)
  · rename_i next hx
    exact schedSwitch_effect hx h
  · rename_i next hx
    cases h
    exact .assign hx (.tidyUp next) (.tidyUp next hc hx)
  · rename_i i status hx
    cases h
    rw [reparentStep]
    split
    · rename_i hi
      split
      · rename_i hparent
        exact .assign hx (.reparentTo status hi) (.reparent p status hc hx hparent)
      · rename_i hparent
        exact .move hx (.reparentNext status hi hparent)
    · rename_i hi
      exact .move hx (.reparented status hi)
  · rename_i status hx
    cases h
    exact .assign hx (.exitSet status) (.exitSet status hc hx)
  · cases h
  · rename_i i havekids hx
    cases h
    rw [waitStep]
    split
    · rename_i hi
      split
      · exact .move hx (.waitLook havekids hi)
      · rename_i hparent
        exact .move hx (.waitSkip havekids hi hparent)
    · rename_i hi
      split
      · exact .move hx (.waitNone i havekids)
      · exact .move hx (.waitSleep havekids hi)
  · rename_i q hx
    cases h
    unfold waitBody
    split
    · rename_i hstate
      split
      · exact .move hx (.waitFound q _)
      · exact .assign hx (.waitFound q _) (.reap p hc hx hstate)
    · rename_i hstate
      exact .move hx (.waitNext q hstate)
  · rename_i i hx
    cases h
    rw [allocStep]
    split
    · exact .move hx (.allocLook _)
    · exact .move hx (.allocNone i)
  · rename_i q hx
    cases h
    exact allocBody_effect hc hx
  · rename_i q hx
    cases h
    unfold copyBody
    split
    · exact .assign hx (.copyFailed q) (.undo p hc hx)
    · exact .move hx (.copied q)
  · rename_i q hx
    cases h
    exact .assign hx (.setParent q) (.setParent p hc hx)
  · rename_i q hx
    cases h
    exact .assign hx (.setRunnable q _) (.setRunnable p hc hx)
  · rename_i l hx
    cases h
    simp only [loopStep]
    split
    · exact .move hx (.loopStop _)
    · exact .move hx (.loopFull _)
    · exact .move hx (.loopDone _)
    · exact .move hx (.loopSleep _)
  · rename_i pi hx
    cases h
    unfold fullStep
    split
    · exact .move hx (.fullSleep pi)
    · exact .move hx (.fullWrite pi)
    · exact .move hx (.fullDone pi)
  · obtain ⟨u, y, rfl, hsame, hlocks, hgoes, hchange⟩ := shared_ok (control_inside hc) h
    exact .next rfl (hgoes p) hsame hlocks hchange

/-- What a statement of `scheduler` on CPU `c` does. -/
structure SchedEffect (s : State M) (c : Cpu) (s' : State M) : Prop where
  locks : LockStep c s s'
  change : ∀ q, Change s c q (s'.procs q)
  point : s'.point = s.point
  other : ∀ c', c' ≠ c → s'.sched c' = s.sched c'
  outside : ∀ p, s.sched c ≠ .inside p
  enters : ∀ p, s'.sched c = .inside p → s.sched c = .switch p

theorem SchedEffect.next {y : SchedPoint} (hsched : u.sched = s.sched) (hpoint : u.point = s.point)
    (hlocks : LockStep c s u) (hchange : ∀ q, Change s c q (u.procs q))
    (hout : ∀ p, s.sched c ≠ .inside p) (hin : ∀ p, y = .inside p → s.sched c = .switch p) :
    SchedEffect s c (u.setSched c y) where
  locks := hlocks.congr rfl rfl rfl ⟨rfl, rfl⟩
  change := hchange
  point := hpoint
  other c' hc' := by
    rw [← hsched]
    exact update_of_ne hc' _ _
  outside := hout
  enters p hp := hin p ((update_self ..).symm.trans hp)

theorem schedStep_effect (h : s.schedStep c = .ok s') : SchedEffect s c s' := by
  unfold schedStep at h
  split at h
  · rename_i i hc
    obtain ⟨_, h⟩ := of_guard_not h
    split at h
    · split at h
      · rename_i u hu
        obtain ⟨hfree, rfl⟩ := acquireP_ok hu
        cases h
        exact .next rfl rfl (.acquireP _ hfree rfl rfl rfl) (fun _ => .same) (by simp [hc]) nofun
      · cases h
    · cases h
      exact .next rfl rfl (.keep rfl rfl rfl) (fun _ => .same) (by simp [hc]) nofun
  · rename_i p hc
    split at h <;>
    · cases h
      exact .next rfl rfl (.keep rfl rfl rfl) (fun _ => .same) (by simp [hc]) nofun
  · rename_i p hc
    cases h
    exact .next rfl rfl (.keep rfl rfl rfl) (.of_setProc (.choose hc)) (by simp [hc]) nofun
  · rename_i p hc
    cases h
    exact .next rfl rfl (.keep rfl rfl rfl) (fun _ => .same) (by simp [hc]) nofun
  · rename_i p hc
    cases h
    refine .next rfl rfl (.keep rfl rfl rfl) (fun _ => .same) (by simp [hc]) ?_
    rintro q ⟨⟩
    exact hc
  · cases h
  · rename_i p hc
    cases h
    exact .next rfl rfl (.keep rfl rfl rfl) (fun _ => .same) (by simp [hc]) nofun
  · rename_i p hc
    split at h
    · rename_i u hu
      obtain ⟨hheld, rfl⟩ := releaseP_ok hu
      cases h
      exact .next rfl rfl (.releaseP _ hheld rfl rfl rfl) (fun _ => .same) (by simp [hc]) nofun
    · cases h

/-- An interrupt handler leaves the threads and `scheduler` where they are. -/
theorem irqStep_effect {i : Nat} (hc : s.sched c = .pick i)
    (h : s.irqStep c ch = .ok s') : LockStep c s s' ∧ (∀ q, Change s c q (s'.procs q)) ∧
      s'.point = s.point ∧ s'.sched = s.sched := by
  simp only [irqStep] at h
  split at h
  · rename_i hx
    rcases sharedCall_ok ((control_pick hc).trans hx) h with ⟨hsame, hlocks, hprocs⟩ | ⟨chan, rfl⟩
    · exact ⟨hlocks, fun q => by rw [hprocs]; exact .same, hsame.point, hsame.sched⟩
    · exact ⟨.keep rfl rfl rfl, fun _ => .same, rfl, rfl⟩
  · obtain ⟨u, y, rfl, hsame, hlocks, _, hchange⟩ := shared_ok (control_pick hc) h
    exact ⟨hlocks.congr rfl rfl rfl ⟨rfl, rfl⟩, hchange, hsame.point, hsame.sched⟩

end Effect

section Step

variable {a : Act M}

/-- A step of a CPU that is in a thread is a statement of the thread, or a timer interrupt. -/
theorem step_thread (hc : s.sched a.cpu = .inside p) (h : step s a = .ok s') :
    (∃ ch, s.threadStep a.cpu p ch = .ok s') ∨
      s.noff a.cpu = 0 ∧ s' = s.setPoint p (.lockP p (.yieldSet (s.point p))) := by
  cases a with
  | sched c =>
    simp only [step, schedStep, show s.sched c = .inside p from hc] at h
    cases h
  | thread c ch =>
    simp only [step, show s.sched c = .inside p from hc] at h
    exact .inl ⟨ch, h⟩
  | irq c ch =>
    simp only [step, show s.sched c = .inside p from hc] at h
    cases h
  | timer c =>
    simp only [step, show s.sched c = .inside p from hc, preempt] at h
    obtain ⟨hnoff, ⟨⟩⟩ := of_guard h
    exact .inr ⟨hnoff, rfl⟩

theorem step_effect (hc : s.sched a.cpu = .inside p) (h : step s a = .ok s') :
    Effect s a.cpu p s' := by
  rcases step_thread hc h with ⟨ch, h⟩ | ⟨hnoff, rfl⟩
  · exact threadStep_effect hc h
  · exact .move rfl (.timer _ hnoff)

/-- A step of a CPU that is in no thread is one of `scheduler` or of an interrupt handler. -/
theorem step_outside (hc : ∀ p, s.sched a.cpu ≠ .inside p) (h : step s a = .ok s') :
    SchedEffect s a.cpu s' ∨ (LockStep a.cpu s s' ∧ (∀ q, Change s a.cpu q (s'.procs q)) ∧
      s'.point = s.point ∧ s'.sched = s.sched) := by
  cases a with
  | sched c => exact .inl (schedStep_effect h)
  | thread c ch =>
    simp only [step] at h
    split at h
    · rename_i p hp
      exact absurd hp (hc p)
    · cases h
  | irq c ch =>
    simp only [step] at h
    split at h
    · rename_i i hi
      exact .inr (irqStep_effect hi h)
    · cases h
  | timer c =>
    simp only [step] at h
    split at h
    · rename_i p hp
      exact absurd hp (hc p)
    · cases h

theorem step_locks (h : step s a = .ok s') : LockStep a.cpu s s' := by
  by_cases hin : ∃ p, s.sched a.cpu = .inside p
  · obtain ⟨p, hc⟩ := hin
    exact (step_effect hc h).locks
  · exact (step_outside (fun p hc => hin ⟨p, hc⟩) h).elim (·.locks) (·.1)

/-- What a step does to the process table. -/
theorem step_change (h : step s a = .ok s') (q : Slot) :
    Change s a.cpu q (s'.procs q) := by
  by_cases hin : ∃ p, s.sched a.cpu = .inside p
  · obtain ⟨p, hc⟩ := hin
    exact (step_effect hc h).change q
  · exact (step_outside (fun p hc => hin ⟨p, hc⟩) h).elim (·.change q) (·.2.1 q)

/-- Where the thread on the CPU of a step goes. -/
theorem step_goes (hc : s.sched a.cpu = .inside p) (h : step s a = .ok s') :
    Goes s a.cpu p (s.point p) (s'.point p) :=
  (step_effect hc h).goes

/-- The points of the threads that do not run on the CPU of the step. -/
theorem step_point (h : step s a = .ok s') (hq : s.sched a.cpu ≠ .inside q) :
    s'.point q = s.point q ∨ s'.point q = .forkret q ∧ (s.procs q).state = .unused := by
  by_cases hin : ∃ p, s.sched a.cpu = .inside p
  · obtain ⟨p, hc⟩ := hin
    have hne : q ≠ p := by
      rintro rfl
      exact hq hc
    exact ((step_effect hc h).frame.point q hne).imp id fun hr => ⟨hr.2.2, hr.2.1⟩
  · have hpoint := (step_outside (fun p hc => hin ⟨p, hc⟩) h).elim (·.point) (·.2.2.1)
    exact .inl (by rw [hpoint])

/-- A thread stays on its CPU until it calls `swtch`. -/
theorem step_inside {c : Cpu} (h : step s a = .ok s') (hc : s.sched c = .inside p) :
    s'.sched c = .inside p ∨ c = a.cpu ∧ ∃ next, s.point p = .sched next := by
  by_cases hin : ∃ t, s.sched a.cpu = .inside t
  · obtain ⟨t, ht⟩ := hin
    rcases (step_effect ht h).frame.sched with hsame | ⟨next, hx, hsched⟩
    · exact .inl (by rw [hsame, hc])
    · by_cases hcc : c = a.cpu
      · subst hcc
        rw [hc] at ht
        cases ht
        exact .inr ⟨rfl, next, hx⟩
      · exact .inl (by rw [hsched, update_of_ne hcc, hc])
  · have hne : c ≠ a.cpu := by
      rintro rfl
      exact hin ⟨p, hc⟩
    rcases step_outside (fun p hc => hin ⟨p, hc⟩) h with hs | ⟨_, _, _, hsched⟩
    · exact .inl ((hs.other c hne).trans hc)
    · exact .inl (by rw [hsched, hc])

/-- An `acquire` of the lock of a process leaves the other locks and the data. -/
theorem step_lockP {next : Point} (hc : s.sched a.cpu = .inside p)
    (hx : s.point p = .lockP q next) (h : step s a = .ok s') :
    s'.lock = s.lock ∧ s'.procs = s.procs ∧ s'.mem = s.mem := by
  rcases step_thread hc h with ⟨ch, h⟩ | ⟨_, rfl⟩
  · simp only [threadStep, hx, shared] at h
    split at h
    · rename_i u hu
      obtain ⟨_, rfl⟩ := acquireP_ok hu
      cases h
      exact ⟨rfl, rfl, rfl⟩
    · cases h
  · exact ⟨rfl, rfl, rfl⟩

/-- An `acquire` of another lock, if it is not interrupted. -/
theorem step_lockL {l : Lock} {next : Point} (hc : s.sched a.cpu = .inside p)
    (hx : s.point p = .lockL l next) (h : step s a = .ok s') :
    s'.lock l = some a.cpu ∨ s'.point p = .lockP p (.yieldSet (s.point p)) := by
  rcases step_thread hc h with ⟨ch, h⟩ | ⟨_, rfl⟩
  · simp only [threadStep, hx] at h
    split at h
    · rename_i u hu
      obtain ⟨_, rfl⟩ := acquireL_ok hu
      cases h
      exact .inl (update_self ..)
    · cases h
  · exact .inr (setPoint_self ..)

/-- A `release` of a lock, where interrupts are disabled. -/
theorem step_unlockL {l : Lock} {next : Point} (hc : s.sched a.cpu = .inside p)
    (hx : s.point p = .unlockL l next) (hnoff : s.noff a.cpu ≠ 0) (h : step s a = .ok s') :
    s'.lock l = none ∧ s'.procs = s.procs ∧ s'.mem = s.mem := by
  rcases step_thread hc h with ⟨ch, h⟩ | ⟨hzero, _⟩
  · simp only [threadStep, hx] at h
    split at h
    · rename_i u hu
      obtain ⟨_, rfl⟩ := releaseL_ok hu
      cases h
      exact ⟨update_self .., rfl, rfl⟩
    · cases h
  · exact absurd hzero hnoff

/-- The statement of `wakeup` on a process, where interrupts are disabled. -/
theorem step_wakeupAt {chan : Option Chan} {next : Point}
    (hx : s.control a.cpu = .wakeupAt chan q next) (hnoff : s.noff a.cpu ≠ 0)
    (hidle : (∀ i, s.sched a.cpu ≠ .pick i) → s.irq a.cpu = .run) (h : step s a = .ok s') :
    s'.procs = (s.wakeSlot chan q).procs := by
  cases a with
  | sched c =>
    by_cases hpick : ∃ i, s.sched c = .pick i
    · obtain ⟨i, hc⟩ := hpick
      have hirq : s.irq c = .wakeupAt chan q next := (control_pick hc).symm.trans hx
      simp only [step, schedStep, hc] at h
      rw [if_pos (.inl (by rw [hirq]; nofun))] at h
      cases h
    · have hrun : s.irq c = .run := hidle fun i hi => hpick ⟨i, hi⟩
      have hnot := (schedStep_effect h).outside
      have hcontrol : s.control c = s.irq c := by
        rw [control]
        split
        · rename_i p hp
          exact absurd hp (hnot p)
        · rfl
      rw [show s.control c = _ from hx, hrun] at hcontrol
      cases hcontrol
  | thread c ch =>
    simp only [step] at h
    split at h
    · rename_i p hc
      have hpoint : s.point p = .wakeupAt chan q next := (control_inside hc).symm.trans hx
      simp only [threadStep, hpoint, shared] at h
      cases h
      rfl
    · cases h
  | irq c ch =>
    simp only [step] at h
    split at h
    · rename_i i hc
      have hirq : s.irq c = .wakeupAt chan q next := (control_pick hc).symm.trans hx
      simp only [irqStep, hirq, shared] at h
      cases h
      rfl
    · cases h
  | timer c =>
    simp only [step, preempt] at h
    split at h
    · split at h
      · rename_i hzero
        exact absurd hzero hnoff
      · cases h
    · cases h

end Step

end State

end FogOS.Sched
