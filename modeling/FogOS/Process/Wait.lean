import FogOS.Process.Family

/-!
# Every exit is reaped once

The events of a run keep the account of each process: before `exit` there is no
event for it, a zombie has one `exit` and no `wait`, and a process that has been
reaped has one of each, with the same process id and status.
-/

namespace FogOS.Process

open Function Library List

/-- The event is an `exit` of the process that used slot `q` for the `n`-th time. -/
def Event.isExit (q : Slot) (n : Nat) : Event → Bool
  | .exited q' n' _ _ => q' == q && n' == n
  | _ => false

/-- The event is a `wait` that freed the process that used slot `q` for the `n`-th time. -/
def Event.isReap (q : Slot) (n : Nat) : Event → Bool
  | .reaped _ q' n' _ _ => q' == q && n' == n
  | _ => false

namespace Table

def exits (t : Table) (q : Slot) (n : Nat) : Nat := t.events.countP (Event.isExit q n)

def reaps (t : Table) (q : Slot) (n : Nat) : Nat := t.events.countP (Event.isReap q n)

@[simp] theorem exits_setProc (t : Table) (q : Slot) (pr : Proc) : (t.setProc q pr).exits = t.exits := rfl

@[simp] theorem reaps_setProc (t : Table) (q : Slot) (pr : Proc) : (t.setProc q pr).reaps = t.reaps := rfl

@[simp] theorem exits_setPhase (t : Table) (p : Slot) (ph : Phase) :
    (t.setPhase p ph).exits = t.exits := rfl

@[simp] theorem reaps_setPhase (t : Table) (p : Slot) (ph : Phase) :
    (t.setPhase p ph).reaps = t.reaps := rfl

theorem exits_emit (t : Table) (e : Event) (q : Slot) (n : Nat) :
    (t.emit e).exits q n = t.exits q n + if e.isExit q n then 1 else 0 := by
  simp [exits, countP_append, countP_singleton]

theorem reaps_emit (t : Table) (e : Event) (q : Slot) (n : Nat) :
    (t.emit e).reaps q n = t.reaps q n + if e.isReap q n then 1 else 0 := by
  simp [reaps, countP_append, countP_singleton]

end Table

structure Ledger (t : Table) : Prop where
  later : ∀ q n, t.lives q < n → t.exits q n = 0 ∧ t.reaps q n = 0
  past : ∀ q n, n < t.lives q → t.reaps q n = t.exits q n ∧ t.exits q n ≤ 1
  free : ∀ q, (t.procs q).state = .unused →
    t.reaps q (t.lives q) = t.exits q (t.lives q) ∧ t.exits q (t.lives q) ≤ 1
  live : ∀ q, (t.procs q).state ≠ .unused → (t.procs q).state ≠ .zombie →
    t.exits q (t.lives q) = 0 ∧ t.reaps q (t.lives q) = 0
  zombie : ∀ q, (t.procs q).state = .zombie →
    t.exits q (t.lives q) = 1 ∧ t.reaps q (t.lives q) = 0 ∧
      .exited q (t.lives q) (t.procs q).pid (t.procs q).xstate ∈ t.events
  paid : ∀ p q n pid status, .reaped p q n pid status ∈ t.events →
    ∃ s, .exited q n pid s ∈ t.events ∧ ∀ s', status = some s' → s' = s

theorem ledger_boot : Ledger boot := by
  refine ⟨fun _ _ _ => ⟨rfl, rfl⟩, fun _ _ _ => ⟨rfl, zero_le⟩, fun _ _ => ⟨rfl, zero_le⟩,
    fun _ _ _ => ⟨rfl, rfl⟩, fun q hq => ?_, nofun⟩
  by_cases h0 : q = 0
  · rw [h0] at hq
    cases hq
  · simp [boot, update_of_ne h0, Proc.zero] at hq

namespace Ledger

variable {t t' : Table}

section

variable (h : Ledger t)

include h

/-- No process starts, exits or is reaped, and there is no event. -/
theorem restate (hlives : t'.lives = t.lives) (hevents : t'.events = t.events)
    (hfree : ∀ q, (t'.procs q).state = .unused ↔ (t.procs q).state = .unused)
    (hback : ∀ q, (t.procs q).state = .zombie → (t'.procs q).state = .zombie)
    (hzombie : ∀ q, (t'.procs q).state = .zombie → (t.procs q).state = .zombie ∧
      (t'.procs q).pid = (t.procs q).pid ∧ (t'.procs q).xstate = (t.procs q).xstate) :
    Ledger t' := by
  have hexits : t'.exits = t.exits := by
    funext q n
    rw [Table.exits, Table.exits, hevents]
  have hreaps : t'.reaps = t.reaps := by
    funext q n
    rw [Table.reaps, Table.reaps, hevents]
  refine ⟨?_, ?_, fun q hq => ?_, fun q hq hq' => ?_, fun q hq => ?_, ?_⟩
  · rw [hlives, hexits, hreaps]
    exact h.later
  · rw [hlives, hexits, hreaps]
    exact h.past
  · rw [hlives, hexits, hreaps]
    exact h.free q ((hfree q).mp hq)
  · rw [hlives, hexits, hreaps]
    exact h.live q (fun hu => hq ((hfree q).mpr hu)) fun hz => hq' (hback q hz)
  · obtain ⟨hz, hpid, hx⟩ := hzombie q hq
    rw [hlives, hexits, hreaps, hpid, hx, hevents]
    exact h.zombie q hz
  · rw [hevents]
    exact h.paid

theorem setPhase (p : Slot) (ph : Phase) : Ledger (t.setPhase p ph) :=
  ⟨h.later, h.past, h.free, h.live, h.zombie, h.paid⟩

/-- An event that is neither an `exit` nor a successful `wait`. -/
theorem emit {e : Event} (hexit : ∀ q n, e.isExit q n = false)
    (hreap : ∀ q n, e.isReap q n = false) : Ledger (t.emit e) := by
  have hexits : (t.emit e).exits = t.exits := by
    funext q n
    simp [Table.exits_emit, hexit q n]
  have hreaps : (t.emit e).reaps = t.reaps := by
    funext q n
    simp [Table.reaps_emit, hreap q n]
  refine ⟨?_, ?_, fun q hq => ?_, fun q hq hq' => ?_, fun q hq => ?_, fun p q n pid status he => ?_⟩
  · rw [hexits, hreaps]
    exact h.later
  · rw [hexits, hreaps]
    exact h.past
  · rw [hexits, hreaps]
    exact h.free q hq
  · rw [hexits, hreaps]
    exact h.live q hq hq'
  · obtain ⟨h1, h0, hmem⟩ := h.zombie q hq
    rw [hexits, hreaps]
    exact ⟨h1, h0, mem_append_left _ hmem⟩
  · rcases mem_append.mp he with he | he
    · obtain ⟨s, hs, hstatus⟩ := h.paid p q n pid status he
      exact ⟨s, mem_append_left _ hs, hstatus⟩
    · have hno := hreap q n
      rw [← mem_singleton.mp he] at hno
      simp [Event.isReap] at hno

variable {p : Slot}

/-- A slot in use is overwritten, and it was and is no zombie. -/
theorem setProc {pr : Proc} (hold : (t.procs p).state ≠ .unused) (hz : (t.procs p).state ≠ .zombie)
    (hnew : pr.state ≠ .unused) (hz' : pr.state ≠ .zombie) : Ledger (t.setProc p pr) := by
  have hself : (t.setProc p pr).procs p = pr := update_self _ _ _
  have hother : ∀ q, q ≠ p → (t.setProc p pr).procs q = t.procs q := fun q hq =>
    update_of_ne hq _ _
  refine h.restate rfl rfl (fun q => ?_) (fun q hq => ?_) fun q hq => ?_
  · by_cases hqp : q = p
    · rw [hqp, hself]
      exact iff_of_false hnew hold
    · rw [hother q hqp]
  · by_cases hqp : q = p
    · rw [hqp] at hq
      exact absurd hq hz
    · rwa [hother q hqp]
  · by_cases hqp : q = p
    · rw [hqp, hself] at hq
      exact absurd hq hz'
    · rw [hother q hqp] at hq ⊢
      exact ⟨hq, rfl, rfl⟩

theorem wakeup (me : Slot) (chan : Option Chan) : Ledger (t.wakeup me chan) := by
  refine h.restate rfl rfl (fun q => ?_) (fun q hq => ?_) fun q hq => ?_
  · simp only [Table.wakeup]
    split
    · next hc => simp [hc.2.1]
    · rfl
  · simp only [Table.wakeup]
    rw [if_neg fun hc => by rw [hq] at hc; cases hc.2.1]
    exact hq
  · simp only [Table.wakeup] at hq ⊢
    split at hq
    · cases hq
    · next hc =>
      rw [if_neg hc]
      exact ⟨hq, rfl, rfl⟩

theorem adopt (p : Slot) : Ledger (t.adopt p) := by
  have hfields : ∀ q, ((t.adopt p).procs q).state = (t.procs q).state ∧
      ((t.adopt p).procs q).pid = (t.procs q).pid ∧
      ((t.adopt p).procs q).xstate = (t.procs q).xstate := by
    intro q
    simp only [Table.adopt]
    split <;> exact ⟨rfl, rfl, rfl⟩
  refine h.restate rfl rfl (fun q => by rw [(hfields q).1]) (fun q hq => by rwa [(hfields q).1])
    fun q hq => ?_
  rw [(hfields q).1] at hq
  exact ⟨hq, (hfields q).2⟩

theorem reparent (p : Slot) : Ledger (t.reparent p) := by
  unfold Table.reparent
  split
  · exact (h.adopt p).wakeup p _
  · exact h.adopt p

/-- A free slot is allocated, and is then in use or free again. -/
theorem alloc {np : Slot} (hnp : (t.procs np).state = .unused)
    (hlives : t'.lives = update t.lives np (t.lives np + 1)) (hevents : t'.events = t.events)
    (hother : ∀ q, q ≠ np → t'.procs q = t.procs q) (hself : (t'.procs np).state ≠ .zombie) :
    Ledger t' := by
  have hexits : t'.exits = t.exits := by
    funext q n
    rw [Table.exits, Table.exits, hevents]
  have hreaps : t'.reaps = t.reaps := by
    funext q n
    rw [Table.reaps, Table.reaps, hevents]
  obtain ⟨hlives_self, hlives_other⟩ := eq_update_iff.mp hlives
  -- The new life has no events yet.
  obtain ⟨hexit0, hreap0⟩ := h.later np (t.lives np + 1) (Nat.lt_succ_self _)
  refine ⟨fun q n hn => ?_, fun q n hn => ?_, fun q hq => ?_, fun q hq hq' => ?_, fun q hq => ?_, ?_⟩
  · rw [hexits, hreaps]
    by_cases hqn : q = np
    · rw [hqn, hlives_self] at hn
      rw [hqn]
      exact h.later np n (by omega)
    · rw [hlives_other q hqn] at hn
      exact h.later q n hn
  · rw [hexits, hreaps]
    by_cases hqn : q = np
    · rw [hqn, hlives_self] at hn
      rw [hqn]
      rcases Nat.lt_or_ge n (t.lives np) with hlt | hge
      · exact h.past np n hlt
      · obtain rfl : n = t.lives np := by omega
        exact h.free np hnp
    · rw [hlives_other q hqn] at hn
      exact h.past q n hn
  · rw [hexits, hreaps]
    by_cases hqn : q = np
    · rw [hqn, hlives_self, hexit0, hreap0]
      exact ⟨rfl, zero_le⟩
    · rw [hother q hqn] at hq
      rw [hlives_other q hqn]
      exact h.free q hq
  · rw [hexits, hreaps]
    by_cases hqn : q = np
    · rw [hqn, hlives_self]
      exact ⟨hexit0, hreap0⟩
    · rw [hother q hqn] at hq hq'
      rw [hlives_other q hqn]
      exact h.live q hq hq'
  · by_cases hqn : q = np
    · rw [hqn] at hq
      exact absurd hq hself
    · rw [hother q hqn] at hq ⊢
      rw [hexits, hreaps, hlives_other q hqn, hevents]
      exact h.zombie q hq
  · rw [hevents]
    exact h.paid

/-- One event is about the current life of the slot `p`, and only that slot changes. -/
theorem entry {e : Event} (hlives : t'.lives = t.lives)
    (hevents : t'.events = t.events ++ [e]) (hother : ∀ q, q ≠ p → t'.procs q = t.procs q)
    (hmiss : ∀ q n, q ≠ p ∨ n ≠ t.lives p → e.isExit q n = false ∧ e.isReap q n = false)
    (hfree : (t'.procs p).state = .unused →
      t'.reaps p (t.lives p) = t'.exits p (t.lives p) ∧ t'.exits p (t.lives p) ≤ 1)
    (hstate : (t'.procs p).state = .unused ∨ (t'.procs p).state = .zombie)
    (hzombie : (t'.procs p).state = .zombie →
      t'.exits p (t.lives p) = 1 ∧ t'.reaps p (t.lives p) = 0 ∧
        .exited p (t.lives p) (t'.procs p).pid (t'.procs p).xstate ∈ t'.events)
    (hpaid : ∀ p' q n pid status, e = .reaped p' q n pid status →
      ∃ s, .exited q n pid s ∈ t.events ∧ ∀ s', status = some s' → s' = s) : Ledger t' := by
  have hexits : ∀ q n, t'.exits q n = t.exits q n + if e.isExit q n then 1 else 0 := fun q n => by
    rw [← Table.exits_emit, Table.exits, Table.exits, hevents, Table.emit_events]
  have hreaps : ∀ q n, t'.reaps q n = t.reaps q n + if e.isReap q n then 1 else 0 := fun q n => by
    rw [← Table.reaps_emit, Table.reaps, Table.reaps, hevents, Table.emit_events]
  have hsame : ∀ q n, q ≠ p ∨ n ≠ t.lives p → t'.exits q n = t.exits q n ∧ t'.reaps q n = t.reaps q n := by
    intro q n hne
    obtain ⟨hx, hr⟩ := hmiss q n hne
    rw [hexits, hreaps, hx, hr]
    exact ⟨rfl, rfl⟩
  have hapart : ∀ {q n}, n ≠ t.lives q → q ≠ p ∨ n ≠ t.lives p := by
    intro q n hne
    by_cases hqp : q = p
    · exact .inr (hqp ▸ hne)
    · exact .inl hqp
  refine ⟨fun q n hn => ?_, fun q n hn => ?_, fun q hq => ?_, fun q hq hq' => ?_, fun q hq => ?_,
    fun p' q n pid status he => ?_⟩
  · rw [hlives] at hn
    obtain ⟨hx, hr⟩ := hsame q n (hapart (Nat.ne_of_gt hn))
    rw [hx, hr]
    exact h.later q n hn
  · rw [hlives] at hn
    obtain ⟨hx, hr⟩ := hsame q n (hapart (Nat.ne_of_lt hn))
    rw [hx, hr]
    exact h.past q n hn
  · rw [hlives]
    by_cases hqp : q = p
    · rw [hqp] at hq ⊢
      exact hfree hq
    · obtain ⟨hx, hr⟩ := hsame q (t.lives q) (.inl hqp)
      rw [hother q hqp] at hq
      rw [hx, hr]
      exact h.free q hq
  · rw [hlives]
    by_cases hqp : q = p
    · rw [hqp] at hq hq'
      exact absurd hstate (not_or.mpr ⟨hq, hq'⟩)
    · obtain ⟨hx, hr⟩ := hsame q (t.lives q) (.inl hqp)
      rw [hother q hqp] at hq hq'
      rw [hx, hr]
      exact h.live q hq hq'
  · rw [hlives]
    by_cases hqp : q = p
    · rw [hqp] at hq ⊢
      exact hzombie hq
    · obtain ⟨hx, hr⟩ := hsame q (t.lives q) (.inl hqp)
      rw [hother q hqp] at hq ⊢
      obtain ⟨h1, h0, hmem⟩ := h.zombie q hq
      rw [hx, hr, hevents]
      exact ⟨h1, h0, mem_append_left _ hmem⟩
  · rw [hevents] at he ⊢
    obtain ⟨s, hs, hstatus⟩ : ∃ s, .exited q n pid s ∈ t.events ∧ ∀ s', status = some s' → s' = s := by
      rcases mem_append.mp he with he | he
      · exact h.paid p' q n pid status he
      · exact hpaid p' q n pid status (mem_singleton.mp he).symm
    exact ⟨s, mem_append_left _ hs, hstatus⟩

/-- A running process becomes a zombie. -/
theorem exited (hp : (t.procs p).state = .running) (status : Int) :
    Ledger (((t.setProc p { t.procs p with xstate := status, state := .zombie }).setPhase p
      .exited).emit (.exited p (t.lives p) (t.procs p).pid status)) := by
  obtain ⟨hexit0, hreap0⟩ := h.live p (by rw [hp]; exact nofun) (by rw [hp]; exact nofun)
  refine h.entry (p := p) rfl rfl (fun q hq => update_of_ne hq _ _) (fun q n hne => ?_)
    (fun hu => ?_) (.inr ?_) (fun _ => ⟨?_, ?_, ?_⟩) nofun
  · refine ⟨?_, rfl⟩
    simp only [Event.isExit, Bool.and_eq_false_iff, beq_eq_false_iff_ne]
    exact hne.imp Ne.symm Ne.symm
  · simp at hu
  · simp
  · rw [Table.exits_emit]
    simpa [Event.isExit] using hexit0
  · rw [Table.reaps_emit]
    simpa [Event.isReap] using hreap0
  · simp

/-- A zombie is freed by a `wait` that returns its id and its status, if it was asked for. -/
theorem reaped {q : Slot} (hq : (t.procs q).state = .zombie) {status : Option Int}
    (hstatus : ∀ s, status = some s → s = (t.procs q).xstate) :
    Ledger (((t.freeproc q).setPhase p .user).emit
      (.reaped p q (t.lives q) (t.procs q).pid status)) := by
  obtain ⟨hexit1, hreap0, hmem⟩ := h.zombie q hq
  have hexits : (((t.freeproc q).setPhase p .user).emit
      (.reaped p q (t.lives q) (t.procs q).pid status)).exits q (t.lives q) = 1 := by
    rw [Table.exits_emit]
    simpa [Event.isExit, Table.freeproc] using hexit1
  have hreaps : (((t.freeproc q).setPhase p .user).emit
      (.reaped p q (t.lives q) (t.procs q).pid status)).reaps q (t.lives q) = 1 := by
    rw [Table.reaps_emit]
    simpa [Event.isReap, Table.freeproc] using hreap0
  refine h.entry (p := q) rfl rfl (fun q' hq' => update_of_ne hq' _ _) (fun q' n hne => ?_)
    (fun _ => ?_) (.inl ?_) (fun hz => ?_) fun p' q' n pid st he => ?_
  · refine ⟨rfl, ?_⟩
    simp only [Event.isReap, Bool.and_eq_false_iff, beq_eq_false_iff_ne]
    exact hne.imp Ne.symm Ne.symm
  · rw [hexits, hreaps]
    exact ⟨rfl, le_refl _⟩
  · simp [Table.freeproc]
  · simp [Table.freeproc] at hz
  · cases he
    exact ⟨_, hmem, hstatus⟩

theorem fork {found : Option Slot} {memory : Bool}
    (hs : t.fork p found memory = .ok t') : Ledger t' := by
  obtain ⟨_, hs⟩ := of_guard hs
  cases found with
  | none =>
    cases hs
    exact h
  | some np =>
    obtain ⟨_, hs⟩ := of_guard_not hs
    next hfree =>
    have hother : ∀ q, q ≠ np → (t.allocproc np).procs q = t.procs q := fun q hq =>
      update_of_ne hq _ _
    split at hs
    · cases hs
      exact h.alloc (not_not.mp hfree) rfl rfl hother (by simp [Table.allocproc])
    · cases hs
      refine h.alloc (not_not.mp hfree) rfl rfl (fun q hq => ?_) (by simp [Table.freeproc])
      rw [← hother q hq]
      exact update_of_ne hq _ _

theorem exit {status : Int} (hs : t.exit p status = .ok t') : Ledger t' := by
  obtain ⟨_, hs⟩ := of_guard hs
  next hat =>
  obtain ⟨_, ⟨⟩⟩ := of_guard_not hs
  have hrun : (((t.reparent p).wakeup p (((t.reparent p).procs p).parent.map .proc)).procs
      p).state = .running := by
    rw [Table.wakeup_self]
    exact Table.reparent_self_state hat.1
  have hexit := ((h.reparent p).wakeup p _).exited hrun status
  simpa using hexit

theorem waitScan {copied : Bool} (hs : t.waitScan p copied = .ok t') : Ledger t' := by
  obtain ⟨addr, hp⟩ := waitScan_phase hs
  obtain ⟨hrun, ⟨q, ⟨_, hzombie⟩, _, rfl⟩ | ⟨_, rfl⟩ | ⟨_, rfl⟩⟩ := waitScan_cases hp hs
  · refine h.reaped hzombie fun s hstatus => ?_
    split at hstatus
    · exact (Option.some.inj hstatus).symm
    · cases hstatus
  · exact (h.setPhase p .user).emit (fun _ _ => rfl) fun _ _ => rfl
  · exact h.setProc (by rw [hrun]; exact nofun) (by rw [hrun]; exact nofun) nofun nofun

theorem killSlot (hs : t.killSlot p = .ok t') : Ledger t' := by
  obtain ⟨pid, i, hp⟩ := killSlot_phase hs
  obtain ⟨q, _, rfl⟩ | rfl | rfl := killSlot_cases hp hs
  · refine Ledger.emit (Ledger.setPhase ?_ p .user) (fun _ _ => rfl) fun _ _ => rfl
    refine h.restate rfl rfl (fun q' => ?_) (fun q' hq' => ?_) fun q' hq' => ?_
    all_goals by_cases hq : q' = q
    · rw [hq, Table.setProc_procs, update_self]
      by_cases hsleep : (t.procs q).state = .sleeping <;> simp [hsleep]
    · rw [Table.setProc_procs, update_of_ne hq]
    · rw [hq] at hq'
      rw [hq, Table.setProc_procs, update_self]
      simp [hq']
    · rwa [Table.setProc_procs, update_of_ne hq]
    · rw [hq, Table.setProc_procs, update_self] at hq' ⊢
      by_cases hsleep : (t.procs q).state = .sleeping
      · simp [hsleep] at hq'
      · simp only [if_neg hsleep] at hq'
        exact ⟨hq', rfl, rfl⟩
    · rw [Table.setProc_procs, update_of_ne hq] at hq' ⊢
      exact ⟨hq', rfl, rfl⟩
  · exact h.setPhase p _
  · exact (h.setPhase p .user).emit (fun _ _ => rfl) fun _ _ => rfl

/-- Every step keeps the account. -/
theorem step (hf : Family t) {a : Act} (hs : step t a = .ok t') : Ledger t' := by
  have hset : ∀ {p s} {pr : Proc}, (t.procs p).state = s → s ≠ .unused → s ≠ .zombie →
      pr.state ≠ .unused → pr.state ≠ .zombie → Ledger (t.setProc p pr) := by
    intro p s pr hold hu hz hu' hz'
    exact h.setProc (by rwa [hold]) (by rwa [hold]) hu' hz'
  cases a with
  | fork p found memory => exact h.fork hs
  | forkParent p =>
    simp only [Process.step, Table.forkParent] at hs
    split at hs
    · next np hp =>
      have hused := hf.child p np (.inl hp)
      split at hs <;> cases hs
      refine (hset hused (by simp) (by simp) ?_ ?_).setPhase p _
      · simp [hused]
      · simp [hused]
    · cases hs
  | forkRunnable p =>
    simp only [Process.step, Table.forkRunnable] at hs
    split at hs
    · next np hp =>
      split at hs <;> cases hs
      refine (hset (hf.child p np (.inr hp)) (by simp) (by simp) ?_ ?_).setPhase p _
      · simp
      · simp
    · cases hs
  | exit p status => exact h.exit hs
  | wait p addr =>
    simp only [Process.step, Table.wait] at hs
    split at hs <;> cases hs
    exact h.setPhase p _
  | waitScan p copied => exact h.waitScan hs
  | kill p pid =>
    simp only [Process.step, Table.kill] at hs
    split at hs <;> cases hs
    exact h.setPhase p _
  | killSlot p => exact h.killSlot hs
  | setkilled p =>
    simp only [Process.step, Table.setkilled] at hs
    split at hs
    · next hat =>
      cases hs
      exact hset hat.1 (by simp) (by simp) (by simp [hat.1]) (by simp [hat.1])
    · cases hs
  | sleep p chan =>
    simp only [Process.step] at hs
    split at hs
    · next hat =>
      cases hs
      exact hset hat.1 (by simp) (by simp) (by simp) (by simp)
    · cases hs
  | wakeup p chan =>
    simp only [Process.step] at hs
    split at hs <;> cases hs
    exact h.wakeup p _
  | dispatch p =>
    simp only [Process.step, Table.dispatch] at hs
    split at hs
    · next hrun =>
      cases hs
      exact hset hrun (by simp) (by simp) (by simp) (by simp)
    · cases hs
  | yield p =>
    simp only [Process.step, Table.yield] at hs
    split at hs
    · next hrun =>
      cases hs
      exact hset hrun (by simp) (by simp) (by simp) (by simp)
    · cases hs

end

theorem run {acts : List Act} (h : run Process.step boot acts = .ok t) : Ledger t := by
  have hstep : ∀ s a s', Family s ∧ Ledger s → Process.step s a = .ok s' → Family s' ∧ Ledger s' :=
    fun _ _ _ hs ha => ⟨hs.1.step ha, hs.2.step hs.1 ha⟩
  exact (run_preserves hstep ⟨family_boot, ledger_boot⟩ h).2

end Ledger

/-- The events of a list that satisfy `f` are one event if their number is one. -/
theorem eq_of_countP_eq_one {f : Event → Bool} {es : List Event} {a b : Event} (h : es.countP f = 1)
    (ha : a ∈ es) (hb : b ∈ es) (hfa : f a = true) (hfb : f b = true) : a = b := by
  rw [countP_eq_length_filter] at h
  obtain ⟨x, hx⟩ := length_eq_one_iff.mp h
  have hmem : ∀ {c}, c ∈ es → f c = true → c = x := fun hc hfc =>
    mem_singleton.mp (hx ▸ mem_filter.mpr ⟨hc, hfc⟩)
  rw [hmem ha hfa, hmem hb hfb]

/-- The account of a process that has called `exit`. -/
theorem Ledger.of_exited {t : Table} (h : Ledger t) {q : Slot} {n : Nat} {pid s : Int}
    (he : .exited q n pid s ∈ t.events) :
    t.exits q n = 1 ∧ ((n = t.lives q ∧ (t.procs q).state = .zombie ∧ (t.procs q).pid = pid ∧
        (t.procs q).xstate = s ∧ t.reaps q n = 0) ∨ t.reaps q n = 1) := by
  have hexit : (Event.exited q n pid s).isExit q n = true := by simp [Event.isExit]
  have hpos : 0 < t.exits q n := countP_pos_iff.mpr ⟨_, he, hexit⟩
  rcases Nat.lt_trichotomy n (t.lives q) with hlt | rfl | hgt
  · obtain ⟨heq, hle⟩ := h.past q n hlt
    exact ⟨by omega, .inr (by omega)⟩
  · by_cases hz : (t.procs q).state = .zombie
    · obtain ⟨h1, h0, hmem⟩ := h.zombie q hz
      have hsame := eq_of_countP_eq_one h1 hmem he (by simp [Event.isExit]) hexit
      cases hsame
      exact ⟨h1, .inl ⟨rfl, hz, rfl, rfl, h0⟩⟩
    · by_cases hu : (t.procs q).state = .unused
      · obtain ⟨heq, hle⟩ := h.free q hu
        exact ⟨by omega, .inr (by omega)⟩
      · have := (h.live q hu hz).1
        omega
  · have := (h.later q n hgt).1
    omega

/-- In every state that the system reaches: every process but `init` that has started has a
parent that is neither free nor a zombie; every process that has called `exit` has done so
once, and is a zombie with the status it gave or has been reaped once, by a `wait` that
returned its id and, if asked, its status; and the next round of any `wait` reaps a zombie
child of the caller, or returns -1 because the caller has no children, is killed or cannot
receive the status of a zombie that stays as it is, or sleeps. -/
theorem exits_reaped_once_by_parent {acts : List Act} {t : Table} (h : run step boot acts = .ok t) :
    (∀ q, q ≠ t.initproc → (t.procs q).state.Started →
      ∃ p, (t.procs q).parent = some p ∧ (t.procs p).state ≠ .unused ∧ (t.procs p).state ≠ .zombie) ∧
    (∀ q n pid s, .exited q n pid s ∈ t.events → t.exits q n = 1 ∧
      ((n = t.lives q ∧ (t.procs q).state = .zombie ∧ (t.procs q).pid = pid ∧
          (t.procs q).xstate = s ∧ t.reaps q n = 0) ∨ t.reaps q n = 1)) ∧
    (∀ p q n pid status, .reaped p q n pid status ∈ t.events →
      ∃ s, .exited q n pid s ∈ t.events ∧ (status = none ∨ status = some s)) ∧
    (∀ p addr copied t', t.phase p = .waiting addr → step t (.waitScan p copied) = .ok t' →
      (∃ q, (t.procs q).parent = some p ∧ (t.procs q).state = .zombie ∧
        (t'.procs q).state = .unused ∧
        t'.events = t.events ++ [.reaped p q (t.lives q) (t.procs q).pid
          (if addr ≠ 0 then some (t.procs q).xstate else none)]) ∨
      (t'.events = t.events ++ [.waitFailed p] ∧ t'.procs = t.procs ∧
        ((∀ q, (t.procs q).parent ≠ some p) ∨ (t.procs p).killed = true ∨
          (addr ≠ 0 ∧ copied = false ∧
            ∃ q, (t'.procs q).parent = some p ∧ (t'.procs q).state = .zombie))) ∨
      (t'.events = t.events ∧ (t'.procs p).state = .sleeping)) := by
  have hfamily := Family.run h
  have hledger := Ledger.run h
  refine ⟨fun q hq hs => ?_, fun q n pid s he => ?_, fun p q n pid status he => ?_,
    fun p addr copied t' hp hs => ?_⟩
  · obtain ⟨p, hp⟩ := Option.ne_none_iff_exists'.mp (hfamily.hasParent q hq hs)
    have hup := hfamily.parentUp q p hp
    refine ⟨p, hp, fun hu => ?_, fun hz => ?_⟩
    · rw [hu] at hup
      exact hup
    · rw [hz] at hup
      exact hup
  · exact hledger.of_exited he
  · obtain ⟨s, hs, hstatus⟩ := hledger.paid p q n pid status he
    refine ⟨s, hs, ?_⟩
    cases status with
    | none => exact .inl rfl
    | some s' => exact .inr (by rw [hstatus s' rfl])
  · obtain ⟨hrun, ⟨q, ⟨hpar, hzombie⟩, _, rfl⟩ | ⟨hwhy, rfl⟩ | ⟨_, rfl⟩⟩ := waitScan_cases hp hs
    · exact .inl ⟨q, hpar, hzombie, by simp [Table.freeproc], rfl⟩
    · refine .inr (.inl ⟨rfl, rfl, ?_⟩)
      rcases hwhy with ⟨q, hq, hcopy⟩ | hnone | hkilled
      · exact .inr (.inr ⟨hcopy.1, hcopy.2, q, hq⟩)
      · exact .inl hnone
      · exact .inr (.inl hkilled)
    · exact .inr (.inr ⟨rfl, by simp [Table.sleep]⟩)

/-- `init` forks a child, which exits with status 7 before `init` waits for it. -/
theorem exits_reaped_once_by_parent_child :
    ∃ t, run step boot [.dispatch 0, .fork 0 (some 1) true, .forkParent 0, .forkRunnable 0,
        .dispatch 1, .exit 1 7, .wait 0 4096, .waitScan 0 true] = .ok t ∧
      t.events = [.exited 1 1 2 7, .reaped 0 1 1 2 (some 7)] ∧ t.exits 1 1 = 1 := by
  have hrun : Ends (fun t => t.events = [.exited 1 1 2 7, .reaped 0 1 1 2 (some 7)])
      (run step boot [.dispatch 0, .fork 0 (some 1) true, .forkParent 0, .forkRunnable 0,
        .dispatch 1, .exit 1 7, .wait 0 4096, .waitScan 0 true]) := by
    decide +kernel
  obtain ⟨t, ht, hevents⟩ := hrun.exists
  refine ⟨t, ht, hevents, ?_⟩
  exact ((exits_reaped_once_by_parent ht).2.1 1 1 2 7 (by rw [hevents]; simp)).1

end FogOS.Process
