import FogOS.Library.Transition

/-!
# Interrupts across nesting and context switches

`push_off` and `pop_off` keep their depth and the remembered interrupt state in the CPU, while the
nesting belongs to a kernel thread, which may leave one CPU through `sched` and go on on another.
Any number of threads take any steps here: they open and close sections, hold locks, trap and
switch. Of `p->state` only this is kept: `scheduler` picks a thread that does not run.
-/

namespace FogOS.Sched.Interrupts

open Function Library

/-- `struct cpu`, with `SSTATUS_SIE` as `intr`. -/
structure Cpu where
  noff : Int
  intena : Bool
  intr : Bool

/-- A kernel thread: `old` is the variable of `push_off` until `intr_off`, and `trapped` is the
`old` of the code that `kerneltrap` has interrupted. The code does not read the last two fields:
the number of its open `push_off`, and what the outermost of them found. -/
structure Thread where
  old : Option Bool := none
  trapped : Option (Option Bool) := none
  depth : Nat
  outer : Option Bool := none

/-- A thread off the CPUs is in `sched`, whose variable it restores, or else it goes on with what
the CPU remembers: `scheduler` behind `swtch`, and a new process in `forkret`. -/
inductive Place (C : Type)
  | running (c : C)
  | parked (intena : Bool)
  | waiting

/-- The threads are those of the processes and the one of `scheduler` on each CPU. -/
structure State (C T L : Type) where
  cpu : C → Cpu
  runner : C → T ⊕ C
  place : T ⊕ C → Place C
  thread : T ⊕ C → Thread
  lock : L → Option C

inductive Stop
  | disabled
  | panicAcquire
  | panicRelease
  | panicInterruptible
  | panicPopOff
  | panicSchedLock
  | panicSchedLocks
  | panicSchedInterruptible
  deriving DecidableEq

/-- `intrGet` and `pushOff` are the two halves of `push_off`; `take` and `give` are what `acquire`
and `release` do to the lock itself. -/
inductive Act (C T L : Type)
  | intrGet (c : C)
  | pushOff (c : C)
  | popOff (c : C)
  | setIntr (c : C) (b : Bool)
  | trap (c : C)
  | sret (c : C)
  | take (c : C) (l : L)
  | give (c : C) (l : L)
  | sched (c : C)
  | swtch (c : C) (t : T)
  | allocproc (t : T)

def Cpu.pushOff (k : Cpu) (old : Bool) : Cpu where
  noff := k.noff + 1
  intena := if k.noff = 0 then old else k.intena
  intr := false

def Cpu.popOff (k : Cpu) : Cpu where
  noff := k.noff - 1
  intena := k.intena
  intr := if k.noff - 1 = 0 ∧ k.intena = true then true else k.intr

def Thread.pushOff (th : Thread) (old : Bool) : Thread where
  trapped := th.trapped
  depth := th.depth + 1
  outer := if th.depth = 0 then some old else th.outer

/-- Outside `push_off` and the trap handler. -/
def Thread.Plain (th : Thread) : Prop := th.old = none ∧ th.trapped = none

instance (th : Thread) : Decidable th.Plain := inferInstanceAs (Decidable (_ ∧ _))

section Model

variable {C T L : Type} [DecidableEq C] [DecidableEq T] [DecidableEq L]

namespace State

variable (s : State C T L) (c : C)

def current : Thread := s.thread (s.runner c)

/-- A step of the thread on `c` that does not switch. -/
def put (k : Cpu) (th : Thread) : State C T L :=
  { s with cpu := update s.cpu c k, thread := update s.thread (s.runner c) th }

/-- The thread on `c` is left at `p` as `th`, and `r` goes on in its stead. -/
def switch (p : Place C) (th : Thread) (r : T ⊕ C) (k : Cpu) : State C T L :=
  { s.put c k th with
    runner := update s.runner c r
    place := update (update s.place (s.runner c) p) r (.running c) }

end State

variable (plock : T → L) (s : State C T L)

/-- `sched` by the thread of `t`. -/
def sched (c : C) (t : T) : Except Stop (State C T L) :=
  if s.lock (plock t) ≠ some c then .error .panicSchedLock
  else if (s.cpu c).noff ≠ 1 then .error .panicSchedLocks
  else if (s.cpu c).intr = true then .error .panicSchedInterruptible
  else .ok (s.switch c (.parked (s.cpu c).intena) (s.current c) (.inr c) (s.cpu c))

/-- `swtch` from `scheduler`, which holds the lock of `t` and no other one. What `scheduler`
found when it acquired the lock is not restored to it. -/
def swtch (c : C) (t : T) : Except Stop (State C T L) :=
  if s.runner c = .inr c ∧ (s.current c).Plain ∧ (s.current c).depth = 1 ∧
      s.lock (plock t) = some c then
    let left := { s.current c with outer := none }
    match s.place (.inl t) with
    | .running _ => .error .disabled
    | .parked intena => .ok (s.switch c .waiting left (.inl t) { s.cpu c with intena := intena })
    | .waiting => .ok (s.switch c .waiting left (.inl t) (s.cpu c))
  else .error .disabled

def step : Act C T L → Except Stop (State C T L)
  | .intrGet c =>
    if (s.current c).old = none then
      .ok (s.put c (s.cpu c) { s.current c with old := some (s.cpu c).intr })
    else .error .disabled
  | .pushOff c =>
    match (s.current c).old with
    | some old => .ok (s.put c ((s.cpu c).pushOff old) ((s.current c).pushOff old))
    | none => .error .disabled
  | .popOff c =>
    if (s.current c).old ≠ none then .error .disabled
    else if (s.cpu c).intr = true then .error .panicInterruptible
    else if (s.cpu c).noff < 1 then .error .panicPopOff
    else .ok (s.put c (s.cpu c).popOff { s.current c with depth := (s.current c).depth - 1 })
  -- `intr_on` and `intr_off` in `scheduler`, in `usertrap` and on the way back to user space
  | .setIntr c b =>
    if (s.current c).Plain ∧ (s.current c).depth = 0 then
      .ok (s.put c { s.cpu c with intr := b } (s.current c))
    else .error .disabled
  | .trap c =>
    if (s.cpu c).intr = true then
      .ok (s.put c { s.cpu c with intr := false }
        { s.current c with old := none, trapped := some (s.current c).old })
    else .error .disabled
  | .sret c =>
    match (s.current c).trapped with
    | some old =>
      if (s.current c).old = none ∧ (s.current c).depth = 0 then
        .ok (s.put c { s.cpu c with intr := true }
          { s.current c with old := old, trapped := none })
      else .error .disabled
    | none => .error .disabled
  | .take c l =>
    match s.lock l with
    | none => .ok { s with lock := update s.lock l (some c) }
    | some c' => .error (if c' = c then .panicAcquire else .disabled)
  | .give c l =>
    if s.lock l = some c then .ok { s with lock := update s.lock l none }
    else .error .panicRelease
  | .sched c =>
    match s.runner c with
    | .inl t => if (s.current c).old = none then sched plock s c t else .error .disabled
    | .inr _ => .error .disabled
  | .swtch c t => swtch plock s c t
  | .allocproc t =>
    match s.place (.inl t) with
    | .running _ => .error .disabled
    | _ => .ok { s with
      place := update s.place (.inl t) .waiting
      thread := update s.thread (.inl t) { depth := 1 } }

/-- Every CPU enters `scheduler`, and no process has run. -/
def boot : State C T L where
  cpu _ := ⟨0, false, false⟩
  runner := .inr
  place
    | .inl _ => .waiting
    | .inr c => .running c
  thread
    | .inl _ => { depth := 1 }
    | .inr _ => { depth := 0 }
  lock _ := none

end Model

/-- What the registers of a CPU say about the thread that it runs. -/
structure Fits (k : Cpu) (th : Thread) : Prop where
  nesting : k.noff = th.depth
  off : 0 < k.noff → k.intr = false
  old : ∀ b, th.old = some b → k.intr = b
  outer : 0 < th.depth → ∀ b, th.outer = some b → k.intena = b
  masked : th.trapped ≠ none → k.intr = false ∧ (0 < th.depth → k.intena = false)
  trapped : ∀ b, th.trapped = some (some b) → b = true

/-- A thread in one section that does not know what was found at its entry. -/
theorem fits_of_plain {k : Cpu} {th : Thread} (hnoff : k.noff = 1) (hintr : k.intr = false)
    (hplain : th.Plain) (hdepth : th.depth = 1) (houter : th.outer = none) : Fits k th := by
  obtain ⟨hold, htrap⟩ := hplain
  refine ⟨by simp [hnoff, hdepth], fun _ => hintr, ?_, ?_, fun hn => absurd htrap hn, ?_⟩
  all_goals simp [hold, htrap, houter]

section Local

variable {k : Cpu} {th : Thread} (h : Fits k th)

include h

theorem Fits.pushOff {old : Bool} (hold : th.old = some old) :
    Fits (k.pushOff old) (th.pushOff old) := by
  have hnesting := h.nesting
  refine ⟨?_, fun _ => rfl, nofun, fun _ b hb => ?_, fun htrap => ⟨rfl, fun _ => ?_⟩, h.trapped⟩
  · simp [Cpu.pushOff, Thread.pushOff, hnesting]
  · simp only [Cpu.pushOff, Thread.pushOff] at hb ⊢
    by_cases hzero : th.depth = 0
    · rw [if_pos hzero] at hb
      rw [if_pos (by omega), Option.some.inj hb]
    · rw [if_neg hzero] at hb
      rw [if_neg (by omega), h.outer (by omega) b hb]
  · obtain ⟨hoff, hintena⟩ := h.masked htrap
    simp only [Cpu.pushOff]
    split
    · rw [← h.old old hold, hoff]
    · exact hintena (by omega)

theorem Fits.popOff (hold : th.old = none) (hoff : k.intr = false) (hpos : 1 ≤ k.noff) :
    Fits k.popOff { th with depth := th.depth - 1 } := by
  have hnesting := h.nesting
  have hdepth : 0 < th.depth := by omega
  refine ⟨?_, fun hmore => ?_, fun b hb => ?_, fun _ => h.outer hdepth, fun htrap => ?_, h.trapped⟩
  · simp only [Cpu.popOff]
    omega
  · simp only [Cpu.popOff] at hmore ⊢
    rw [if_neg (by omega), hoff]
  · rw [hold] at hb
    cases hb
  · have hintena := (h.masked htrap).2 hdepth
    refine ⟨?_, fun _ => hintena⟩
    simp [Cpu.popOff, hintena, hoff]

theorem Fits.trap (hon : k.intr = true) :
    Fits { k with intr := false } { th with old := none, trapped := some th.old } := by
  have hzero : ¬0 < k.noff := fun hpos => by
    rw [h.off hpos] at hon
    cases hon
  have hnesting := h.nesting
  refine ⟨hnesting, fun _ => rfl, nofun, h.outer, fun _ => ⟨rfl, fun hpos => ?_⟩, fun b hb => ?_⟩
  · dsimp only at hpos
    omega
  · rw [← h.old b (Option.some.inj hb), hon]

/-- Outside every section the thread may set the interrupts. -/
theorem Fits.setIntr {old : Option Bool} {b : Bool} (hzero : th.depth = 0)
    (hold : ∀ b', old = some b' → b = b') :
    Fits { k with intr := b } { th with old := old, trapped := none } := by
  have hnesting := h.nesting
  refine ⟨hnesting, fun hpos => ?_, hold, h.outer, fun hn => absurd rfl hn, nofun⟩
  dsimp only at hpos
  omega

end Local

section Steps

variable {C T L : Type} {s s' : State C T L} {c : C} {t : T} {r : T ⊕ C} {k : Cpu} {th : Thread}

/-- The registers with which a thread goes on. -/
def Place.Sees (cpu : C → Cpu) : Place C → Cpu → Prop
  | .running c, k => k = cpu c
  | .parked intena, k => k = ⟨1, intena, false⟩
  | .waiting, k => k.noff = 1 ∧ k.intr = false

structure Inv (s : State C T L) : Prop where
  runner : ∀ c r, s.runner c = r ↔ s.place r = .running c
  home : ∀ c, s.place (.inr c) = .running c ∨ s.place (.inr c) = .waiting
  fits : ∀ r k, (s.place r).Sees s.cpu k → Fits k (s.thread r)

theorem Inv.current (h : Inv s) (c : C) : Fits (s.cpu c) (s.current c) :=
  h.fits _ _ (by rw [(h.runner c _).mp rfl]; rfl)

theorem Inv.boot : Inv (boot : State C T L) := by
  refine ⟨fun c r => ?_, fun c => .inl rfl, fun r k hk => ?_⟩
  · cases r <;> simp [Interrupts.boot, eq_comm]
  · cases r with
    | inl t => exact fits_of_plain hk.1 hk.2 ⟨rfl, rfl⟩ rfl rfl
    | inr c =>
      cases hk
      exact ⟨rfl, nofun, nofun, nofun, fun hn => absurd rfl hn, nofun⟩

variable [DecidableEq C] [DecidableEq T]

/-- Registers of another CPU do not matter to a thread. -/
theorem Place.Sees.of_update {p : Place C} {cpu : C → Cpu} {k' : Cpu} (hp : p ≠ .running c)
    (hk : p.Sees (update cpu c k') k) : p.Sees cpu k := by
  cases p with
  | running d => exact hk.trans (update_of_ne (fun hd => hp (congrArg _ hd)) _ _)
  | parked b => exact hk
  | waiting => exact hk

/-- A step that does not switch has only to keep the CPU and its thread in accord. -/
theorem Inv.put (h : Inv s) (hfits : Fits k th) : Inv (s.put c k th) := by
  refine ⟨h.runner, h.home, fun r k' hk => ?_⟩
  simp only [State.put] at hk ⊢
  by_cases hr : r = s.runner c
  · subst hr
    rw [(h.runner c _).mp rfl] at hk
    rw [update_self, hk.trans (update_self ..)]
    exact hfits
  · rw [update_of_ne hr]
    exact h.fits r k' (hk.of_update fun hrun => hr ((h.runner c r).mpr hrun).symm)

/-- The thread on `c` leaves at `p`, which lets it go on, and `r` comes to `c`. -/
theorem Inv.switch {p : Place C} (h : Inv s) (hp : ∀ d, p ≠ .running d)
    (hleft : ∀ k', p.Sees (update s.cpu c k) k' → Fits k' th)
    (hhome : ∀ d, s.runner c = .inr d → p = .waiting) (hr : ∀ d, s.place r ≠ .running d)
    (hrhome : ∀ d, r = .inr d → d = c) (hfits : Fits k (s.thread r)) :
    Inv (s.switch c p th r k) := by
  have hrunner := h.runner
  have hplace : s.place (s.runner c) = .running c := (hrunner c _).mp rfl
  have hne : r ≠ s.runner c := fun hr' => hr c (by rw [hr', hplace])
  refine ⟨fun d q => ?_, fun d => ?_, fun q k' hk => ?_⟩
  · simp only [State.switch, update_apply]
    grind
  · have hd := h.home d
    simp only [State.switch, update_apply]
    grind
  · simp only [State.switch, State.put] at hk ⊢
    by_cases hqr : q = r
    · subst hqr
      rw [update_self] at hk
      rw [hk.trans (update_self ..), update_of_ne hne]
      exact hfits
    · rw [update_of_ne hqr] at hk
      by_cases hq : q = s.runner c
      · subst hq
        rw [update_self] at hk ⊢
        exact hleft k' hk
      · rw [update_of_ne hq] at hk ⊢
        exact h.fits q k' (hk.of_update fun hrun => hq ((hrunner c q).mpr hrun).symm)

variable {plock : T → L}

theorem Inv.sched (h : Inv s) (hc : s.runner c = .inl t) (hs : sched plock s c t = .ok s') :
    Inv s' := by
  obtain ⟨_, hs⟩ := of_guard_not hs
  obtain ⟨hnoff, hs⟩ := of_guard_not hs
  obtain ⟨hintr, ⟨⟩⟩ := of_guard_not hs
  rw [not_not] at hnoff
  rw [Bool.not_eq_true] at hintr
  have hback : s.place (.inr c) = .waiting := (h.home c).resolve_left fun hrun => by
    cases hc.symm.trans ((h.runner c _).mpr hrun)
  refine h.switch nofun ?_ (fun d hd => by cases hc.symm.trans hd) (by simp [hback]) (by simp)
    (h.fits _ _ (hback ▸ ⟨hnoff, hintr⟩))
  rintro k' ⟨⟩
  have hcurrent := h.current c
  rwa [show s.cpu c = ⟨1, (s.cpu c).intena, false⟩ by rw [← hnoff, ← hintr]] at hcurrent

theorem Inv.swtch (h : Inv s) (hs : swtch plock s c t = .ok s') : Inv s' := by
  obtain ⟨⟨hc, hplain, hdepth, _⟩, hs⟩ := of_guard hs
  have hcurrent := h.current c
  have hnoff : (s.cpu c).noff = 1 := by
    rw [hcurrent.nesting, hdepth]
    rfl
  have hintr := hcurrent.off (by omega)
  have hgo {k} (hk : Fits k (s.thread (.inl t))) (ht : ∀ d, s.place (.inl t) ≠ .running d) :
      Inv (s.switch c .waiting { s.current c with outer := none } (.inl t) k) :=
    h.switch nofun (fun k' hk' => fits_of_plain hk'.1 hk'.2 hplain hdepth rfl) (fun _ _ => rfl) ht
      nofun hk
  split at hs
  · cases hs
  · rename_i intena hplace
    cases hs
    refine hgo (h.fits _ _ ?_) (by simp [hplace])
    rw [hplace]
    exact congr (congrArg (Cpu.mk · intena) hnoff) hintr
  · rename_i hplace
    cases hs
    exact hgo (h.fits _ _ (hplace ▸ ⟨hnoff, hintr⟩)) (by simp [hplace])

variable [DecidableEq L]

theorem Inv.allocproc (h : Inv s) (hs : Interrupts.step plock s (.allocproc t) = .ok s') :
    Inv s' := by
  have hne : ∀ c, s.place (.inl t) ≠ .running c := fun c hc => by
    simp [Interrupts.step, hc] at hs
  simp only [Interrupts.step] at hs
  cases hs
  have hrunner := h.runner
  refine ⟨fun c r => ?_, fun c => ?_, fun r k hk => ?_⟩
  · simp only [update_apply]
    grind
  · simpa using h.home c
  · by_cases hr : r = .inl t
    · subst hr
      simp only [update_self] at hk ⊢
      exact fits_of_plain hk.1 hk.2 ⟨rfl, rfl⟩ rfl rfl
    · simp only [update_of_ne hr] at hk ⊢
      exact h.fits r k hk

theorem Inv.step (h : Inv s) (a : Act C T L) (hs : step plock s a = .ok s') : Inv s' := by
  have hfits := h.current
  cases a with
  | intrGet c =>
    obtain ⟨_, ⟨⟩⟩ := of_guard hs
    obtain ⟨hnesting, hoff, _, houter, hmasked, htrapped⟩ := hfits c
    exact h.put ⟨hnesting, hoff, fun _ hb => Option.some.inj hb, houter, hmasked, htrapped⟩
  | pushOff c =>
    simp only [Interrupts.step] at hs
    split at hs
    · rename_i old hold
      cases hs
      exact h.put ((hfits c).pushOff hold)
    · cases hs
  | popOff c =>
    obtain ⟨hold, hs⟩ := of_guard_not hs
    obtain ⟨hoff, hs⟩ := of_guard_not hs
    obtain ⟨hpos, ⟨⟩⟩ := of_guard_not hs
    exact h.put ((hfits c).popOff (not_not.mp hold) (eq_false_of_ne_true hoff) (not_lt.mp hpos))
  | setIntr c b =>
    obtain ⟨⟨⟨hold, htrap⟩, hzero⟩, ⟨⟩⟩ := of_guard hs
    have hset := @Fits.setIntr _ _ (hfits c) none b hzero nofun
    rw [← hold, ← htrap] at hset
    exact h.put hset
  | trap c =>
    obtain ⟨hon, ⟨⟩⟩ := of_guard hs
    exact h.put ((hfits c).trap hon)
  | sret c =>
    simp only [Interrupts.step] at hs
    split at hs
    · rename_i old htrap
      obtain ⟨⟨_, hzero⟩, ⟨⟩⟩ := of_guard hs
      refine h.put ((hfits c).setIntr hzero fun b hb => ?_)
      exact ((hfits c).trapped b (htrap.trans (congrArg some hb))).symm
    · cases hs
  | take c l =>
    simp only [Interrupts.step] at hs
    split at hs
    · cases hs
      exact ⟨h.runner, h.home, h.fits⟩
    · cases hs
  | give c l =>
    obtain ⟨_, ⟨⟩⟩ := of_guard hs
    exact ⟨h.runner, h.home, h.fits⟩
  | sched c =>
    simp only [Interrupts.step] at hs
    split at hs
    · rename_i t ht
      exact h.sched ht (of_guard hs).2
    · cases hs
  | swtch c t => exact h.swtch hs
  | allocproc t => exact h.allocproc hs

/-- Along every run, interrupts are off inside a section, the depth is not negative, and the
`pop_off` that closes the outermost section of a process leaves interrupts as its `push_off` found
them, on whatever CPU the thread is by then. -/
theorem interrupts_restored {as : List (Act C T L)} (hrun : run (step plock) boot as = .ok s)
    (c : C) :
    0 ≤ (s.cpu c).noff ∧ (0 < (s.cpu c).noff → (s.cpu c).intr = false) ∧
      ∀ t b, s.runner c = .inl t → (s.current c).old = none → (s.current c).depth = 1 →
        (s.current c).outer = some b →
        ∃ s', step plock s (.popOff c) = .ok s' ∧ (s'.cpu c).intr = b := by
  have h : Inv s := run_preserves (fun _ _ _ hi => hi.step _) .boot hrun
  have hfits := h.current c
  refine ⟨by rw [hfits.nesting]; exact Int.natCast_nonneg _, hfits.off, ?_⟩
  intro t b _ hold hdepth houter
  have hnoff : (s.cpu c).noff = 1 := by
    rw [hfits.nesting, hdepth]
    rfl
  have hintr := hfits.off (by omega)
  have hintena := hfits.outer (by omega) b houter
  refine ⟨s.put c (s.cpu c).popOff { s.current c with depth := (s.current c).depth - 1 }, ?_, ?_⟩
  · simp [Interrupts.step, hold, hintr, hnoff]
  · cases b <;> simp [State.put, Cpu.popOff, hnoff, hintena, hintr]

/-- The first process opens a section on CPU `c`, yields in it and goes on on CPU `d`. -/
def migration (c d : C) : List (Act C Unit Unit) :=
  [.intrGet c, .pushOff c, .take c (), .swtch c (), .give c (), .popOff c, .setIntr c true,
    .intrGet c, .pushOff c, .take c (), .sched c, .give c (), .popOff c,
    .intrGet d, .pushOff d, .take d (), .swtch d (), .give d ()]

theorem interrupts_restored_elsewhere :
    ∃ s s', run (step id) boot (migration (0 : Fin 2) 1) = .ok s ∧ step id s (.popOff 1) = .ok s' ∧
      (s'.cpu 1).intr = true := by
  obtain ⟨s, hs, hproc, hold, hdepth, houter⟩ := (by decide : Ends
    (fun s : State (Fin 2) Unit Unit => s.runner 1 = .inl () ∧ (s.current 1).old = none ∧
      (s.current 1).depth = 1 ∧ (s.current 1).outer = some true)
    (run (step id) boot (migration 0 1))).exists
  obtain ⟨s', hpop⟩ := (interrupts_restored hs 1).2.2 () true hproc hold hdepth houter
  exact ⟨s, s', hs, hpop⟩

end Steps

end FogOS.Sched.Interrupts
