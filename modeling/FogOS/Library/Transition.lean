import Mathlib

/-!
# Runs of a fallible step function

A system is a step function from a state and an action to the next state or a
failure. Nondeterminism is carried by the actions, so a run is a list of
actions. Safety over every run is reduced here to one obligation per step.
-/

namespace FogOS.Library

variable {σ α ε : Type*}

section Bind

universe u v

variable {ε : Type u} {α β : Type v}

@[simp] theorem ok_bind (a : α) (f : α → Except ε β) : (Except.ok a >>= f) = f a := rfl

@[simp] theorem error_bind (e : ε) (f : α → Except ε β) :
    (Except.error e >>= f) = Except.error e := rfl

theorem bind_eq_ok_iff {x : Except ε α} {f : α → Except ε β} {b : β} :
    (x >>= f) = .ok b ↔ ∃ a, x = .ok a ∧ f a = .ok b := by
  cases x with
  | ok a => simp
  | error e => simp

/-- What lies behind a test that has not failed. -/
theorem of_guard {c : Prop} [Decidable c] {x : Except ε α} {e : ε} {a : α}
    (h : (if c then x else .error e) = .ok a) : c ∧ x = .ok a := by
  split at h
  · exact ⟨‹c›, h⟩
  · cases h

theorem of_guard_not {c : Prop} [Decidable c] {x : Except ε α} {e : ε} {a : α}
    (h : (if c then .error e else x) = .ok a) : ¬c ∧ x = .ok a := by
  split at h
  · cases h
  · exact ⟨‹¬c›, h⟩

end Bind

section Decides

universe u v

variable {ε : Type u} {σ τ : Type v} {c c' : Prop} {P : σ → Prop} {r : Except ε σ}

/-- The result is a value that satisfies `P` where `c` holds, and a failure elsewhere. -/
inductive Decides (c : Prop) (P : σ → Prop) : Except ε σ → Prop
  | ok {s : σ} (hc : c) (h : P s) : Decides c P (.ok s)
  | error {e : ε} (hc : ¬c) : Decides c P (.error e)

theorem Decides.of_ok {s : σ} (h : Decides c P r) (hr : r = .ok s) : c ∧ P s := by
  cases h with
  | ok hc h =>
    cases hr
    exact ⟨hc, h⟩
  | error hn => cases hr

theorem Decides.exists (h : Decides c P r) (hc : c) : ∃ s, r = .ok s ∧ P s := by
  cases h with
  | ok _ h => exact ⟨_, rfl, h⟩
  | error hn => exact absurd hc hn

/-- A part whose condition follows from that of the whole. -/
theorem Decides.seq {Q : τ → Prop} {f : σ → Except ε τ} (h : Decides c P r) (hc : c' → c)
    (hf : ∀ s, c → P s → Decides c' Q (f s)) : Decides c' Q (r >>= f) := by
  cases h with
  | ok hc₀ h => exact hf _ hc₀ h
  | error hn => exact .error (mt hc hn)

theorem Decides.imp {Q : σ → Prop} (h : Decides c P r) (hc : c ↔ c') (hP : ∀ s, c → P s → Q s) :
    Decides c' Q r := by
  cases h with
  | ok hc₀ h => exact .ok (hc.mp hc₀) (hP _ hc₀ h)
  | error hn => exact .error (mt hc.mpr hn)

end Decides

/-- Perform the actions in order and stop at the first failure. -/
def run (step : σ → α → Except ε σ) : σ → List α → Except ε σ
  | s, [] => .ok s
  | s, a :: as =>
    match step s a with
    | .ok s' => run step s' as
    | .error e => .error e

variable {step : σ → α → Except ε σ} {G H : σ → α → Prop} {inv : σ → Prop} {s s' t : σ} {a : α}
  {as : List α} {e : ε}

theorem run_cons_of_ok (h : step s a = .ok s') (as : List α) :
    run step s (a :: as) = run step s' as := by
  simp only [run, h]

theorem run_cons_of_error (h : step s a = .error e) (as : List α) :
    run step s (a :: as) = .error e := by
  simp only [run, h]

theorem run_cons_ok_iff :
    run step s (a :: as) = .ok t ↔ ∃ s', step s a = .ok s' ∧ run step s' as = .ok t := by
  cases h : step s a with
  | ok s' => simp [run, h]
  | error e => simp [run, h]

theorem run_append_of_ok (h : run step s as = .ok t) (bs : List α) :
    run step s (as ++ bs) = run step t bs := by
  induction as generalizing s with
  | nil =>
    cases h
    rfl
  | cons a as ih =>
    obtain ⟨s', ha, hrest⟩ := run_cons_ok_iff.mp h
    rw [List.cons_append, run_cons_of_ok ha]
    exact ih hrest

/-- The result is a state that satisfies `P`. -/
inductive Ends (P : σ → Prop) : Except ε σ → Prop
  | ok {s : σ} (h : P s) : Ends P (.ok s)

instance {P : σ → Prop} [DecidablePred P] : ∀ r : Except ε σ, Decidable (Ends P r)
  | .ok s => decidable_of_iff (P s) ⟨.ok, fun | .ok h => h⟩
  | .error _ => .isFalse fun h => by cases h

theorem Ends.exists {P : σ → Prop} {r : Except ε σ} (h : Ends P r) : ∃ s, r = .ok s ∧ P s := by
  cases h with
  | ok h => exact ⟨_, rfl, h⟩

theorem Ends.of_ok {P : σ → Prop} {r : Except ε σ} (h : Ends P r) (hr : r = .ok s) : P s := by
  cases h with
  | ok h =>
    cases hr
    exact h

instance decidableEqError [DecidableEq ε] (e : ε) : ∀ r : Except ε σ, Decidable (r = .error e)
  | .ok _ => .isFalse fun h => by cases h
  | .error e' => decidable_of_iff (e' = e) ⟨fun h => by rw [h], fun h => by cases h; rfl⟩

/-- Every action of the run meets `G` in the state it is performed in. -/
def Guarded (step : σ → α → Except ε σ) (G : σ → α → Prop) : σ → List α → Prop
  | _, [] => True
  | s, a :: as => G s a ∧ ∀ s', step s a = .ok s' → Guarded step G s' as

/-- A guard that can be checked in each state can be checked along a list. -/
instance Guarded.decidable {G : σ → α → Prop} [∀ s a, Decidable (G s a)] :
    ∀ (s : σ) (as : List α), Decidable (Guarded step G s as)
  | _, [] => .isTrue trivial
  | s, a :: as =>
    match h : step s a with
    | .error _ => decidable_of_iff (G s a) ⟨fun hg => ⟨hg, fun s' h' => by rw [h] at h'; cases h'⟩,
        fun hg => hg.1⟩
    | .ok s' =>
      have := Guarded.decidable (G := G) s' as
      decidable_of_iff (G s a ∧ Guarded step G s' as)
        ⟨fun hg => ⟨hg.1, fun s'' h' => by rw [h] at h'; cases h'; exact hg.2⟩,
          fun hg => ⟨hg.1, hg.2 s' h⟩⟩

/-- A property kept by every guarded step holds at the end of every guarded run. -/
theorem run_invariant (hstep : ∀ s a s', inv s → G s a → step s a = .ok s' → inv s') {s t : σ}
    {as : List α} (hs : inv s) (hg : Guarded step G s as) (h : run step s as = .ok t) : inv t := by
  induction as generalizing s with
  | nil =>
    cases h
    exact hs
  | cons a as ih =>
    obtain ⟨s', ha, hrest⟩ := run_cons_ok_iff.mp h
    exact ih (hstep s a s' hs hg.1 ha) (hg.2 s' ha) hrest

theorem Guarded.and (hg : Guarded step G s as)
    (hh : Guarded step H s as) : Guarded step (fun s a => G s a ∧ H s a) s as := by
  induction as generalizing s with
  | nil => trivial
  | cons a as ih => exact ⟨⟨hg.1, hh.1⟩, fun s' hs => ih (hg.2 s' hs) (hh.2 s' hs)⟩

theorem guarded_true (s : σ) (as : List α) : Guarded step (fun _ _ => True) s as := by
  induction as generalizing s with
  | nil => trivial
  | cons a as ih => exact ⟨trivial, fun s' _ => ih s'⟩

/-- A guard on the actions alone is checked action by action. -/
theorem guarded_of_forall {P : α → Prop} (s : σ) {as : List α} (h : ∀ a ∈ as, P a) :
    Guarded step (fun _ a => P a) s as := by
  induction as generalizing s with
  | nil => trivial
  | cons a as ih =>
    exact ⟨h a List.mem_cons_self, fun s' _ => ih s' fun b hb => h b (List.mem_cons_of_mem _ hb)⟩

/-- The unguarded form of `run_invariant`. -/
theorem run_preserves (hstep : ∀ s a s', inv s → step s a = .ok s' → inv s')
    {s t : σ} {as : List α} (hs : inv s) (h : run step s as = .ok t) : inv t :=
  run_invariant (fun s a s' hi _ => hstep s a s' hi) hs (guarded_true s as) h

/-- The form of `run_preserves` for a property of the state and of the actions so far. -/
theorem run_history {I : List α → σ → Prop} (h₀ : I [] s)
    (hstep : ∀ pre u a u', I pre u → step u a = .ok u' → I (pre ++ [a]) u')
    {as : List α} (h : run step s as = .ok t) : I as t := by
  have hgen : ∀ pre u, I pre u → ∀ bs, run step u bs = .ok t → I (pre ++ bs) t := by
    intro pre u hu bs
    induction bs generalizing pre u with
    | nil =>
      intro hrun
      cases hrun
      simpa using hu
    | cons a bs ih =>
      intro hrun
      obtain ⟨u', ha, hrest⟩ := run_cons_ok_iff.mp hrun
      simpa using ih (pre ++ [a]) u' (hstep pre u a u' hu ha) hrest
  simpa using hgen [] s h₀ as h

/-- A failing run has a first failing action, performed in a state it reached. -/
theorem run_error_split (h : run step s as = .error e) :
    ∃ pre a post t, as = pre ++ a :: post ∧ run step s pre = .ok t ∧ step t a = .error e := by
  induction as generalizing s with
  | nil => cases h
  | cons a as ih =>
    cases ha : step s a with
    | error e' =>
      rw [run_cons_of_error ha] at h
      cases h
      exact ⟨[], a, as, s, rfl, rfl, ha⟩
    | ok s' =>
      rw [run_cons_of_ok ha] at h
      obtain ⟨pre, b, post, t, rfl, hpre, hb⟩ := ih h
      exact ⟨a :: pre, b, post, t, rfl, by rw [run_cons_of_ok ha, hpre], hb⟩

/-- A guard that holds along a list holds at any action the run reaches. -/
theorem Guarded.at_split {pre post : List α} (hg : Guarded step G s (pre ++ a :: post))
    (h : run step s pre = .ok t) : G t a := by
  induction pre generalizing s with
  | nil =>
    cases h
    exact hg.1
  | cons b pre ih =>
    obtain ⟨s', hb, hrest⟩ := run_cons_ok_iff.mp h
    exact ih (hg.2 s' hb) hrest

theorem Guarded.of_append {bs : List α} (hg : Guarded step G s (as ++ bs)) : Guarded step G s as := by
  induction as generalizing s with
  | nil => trivial
  | cons a as ih => exact ⟨hg.1, fun s' ha => ih (hg.2 s' ha)⟩

/-- No guarded run fails with `e` when no guarded step out of the invariant does. -/
theorem run_ne_error (hstep : ∀ s a s', inv s → G s a → step s a = .ok s' → inv s')
    (hsafe : ∀ s a, inv s → G s a → step s a ≠ .error e) {s : σ} {as : List α} (hs : inv s)
    (hg : Guarded step G s as) : run step s as ≠ .error e := by
  intro h
  obtain ⟨pre, a, post, t, rfl, hpre, hfail⟩ := run_error_split h
  have ht : inv t := run_invariant hstep hs hg.of_append hpre
  exact hsafe t a ht (hg.at_split hpre) hfail

end FogOS.Library
