import Mathlib

/-!
# Programs that may be cut between atomic effects

A program works on a state and a budget. Every atomic effect takes one unit of
the budget; a program that finds none left is cut and keeps the state it had
reached. Every way of cutting a program is therefore one choice of its budget.

The triples below carry two postconditions, one for completion and one for a
cut, and each program former has one rule.
-/

namespace FogOS.Library

variable {σ ι : Type*}

/-- How a program ended: with part of the budget left, or cut. -/
inductive Outcome (σ : Type*) where
  | done (s : σ) (left : Nat)
  | crashed (s : σ)

namespace Outcome

/-- The state at the end, whether the program was completed or cut. -/
def state : Outcome σ → σ
  | done s _ => s
  | crashed s => s

end Outcome

/-- A program over the state `σ`. -/
def Program (σ : Type*) : Type _ := σ → Nat → Outcome σ

namespace Program

/-- A change of the volatile part of the state; it cannot be cut. -/
def modify (f : σ → σ) : Program σ := fun s n => .done (f s) n

/-- One atomic effect: it happens entirely or the program is cut before it. -/
def atomic (f : σ → σ) : Program σ := fun s n =>
  match n with
  | 0 => .crashed s
  | n + 1 => .done (f s) n

def seq (p q : Program σ) : Program σ := fun s n =>
  match p s n with
  | .done s' n' => q s' n'
  | .crashed s' => .crashed s'

/-- Choose the program from the current state. -/
def read (f : σ → Program σ) : Program σ := fun s => f s s

def skip : Program σ := fun s n => .done s n

/-- Run the body once for each item, in order. -/
def forEach (body : ι → Program σ) : List ι → Program σ
  | [] => skip
  | x :: xs => seq (body x) (forEach body xs)

end Program

/-- From `P`, the program ends in `Q` if it is completed and in `C` if it is cut. -/
def Triple (P : σ → Prop) (p : Program σ) (Q C : σ → Prop) : Prop :=
  ∀ s n, P s →
    match p s n with
    | .done s' _ => Q s'
    | .crashed s' => C s'

namespace Triple

variable {P Q R C : σ → Prop} {p q : Program σ}

theorem done (h : Triple P p Q C) {s s' : σ} {n n' : Nat} (hs : P s)
    (hp : p s n = .done s' n') : Q s' := by
  have := h s n hs
  rwa [hp] at this

theorem crashed (h : Triple P p Q C) {s s' : σ} {n : Nat} (hs : P s)
    (hp : p s n = .crashed s') : C s' := by
  have := h s n hs
  rwa [hp] at this

/-- Either way the program ends in a state that satisfies the weaker of its two ends. -/
theorem state (h : Triple P p Q C) (hQ : ∀ s, Q s → C s) {s : σ} (n : Nat)
    (hs : P s) : C (p s n).state := by
  cases hp : p s n with
  | done s' n' => exact hQ s' (h.done hs hp)
  | crashed s' => exact h.crashed hs hp

theorem weaken {P' Q' C' : σ → Prop} (h : Triple P p Q C) (hP : ∀ s, P' s → P s)
    (hQ : ∀ s, Q s → Q' s) (hC : ∀ s, C s → C' s) : Triple P' p Q' C' := by
  intro s n hs
  cases hp : p s n with
  | done s' n' => exact hQ s' (h.done (hP s hs) hp)
  | crashed s' => exact hC s' (h.crashed (hP s hs) hp)

theorem skip (P C : σ → Prop) : Triple P Program.skip P C :=
  fun _ _ hs => hs

theorem modify {f : σ → σ} (h : ∀ s, P s → Q (f s)) : Triple P (Program.modify f) Q C :=
  fun s _ hs => h s hs

/-- The state before an atomic effect must be fit to be left behind. -/
theorem atomic {f : σ → σ} (hC : ∀ s, P s → C s) (h : ∀ s, P s → Q (f s)) :
    Triple P (Program.atomic f) Q C := by
  intro s n hs
  cases n with
  | zero => exact hC s hs
  | succ n => exact h s hs

theorem seq (hp : Triple P p R C) (hq : Triple R q Q C) : Triple P (Program.seq p q) Q C := by
  intro s n hs
  cases h : p s n with
  | done s' n' =>
    simp only [Program.seq, h]
    exact hq s' n' (hp.done hs h)
  | crashed s' =>
    simp only [Program.seq, h]
    exact hp.crashed hs h

theorem read {f : σ → Program σ} (h : ∀ t, Triple (fun s => P s ∧ s = t) (f t) Q C) :
    Triple P (Program.read f) Q C :=
  fun s n hs => h s s n ⟨hs, rfl⟩

/-- A precondition with a witness is one triple for each witness. -/
theorem of_forall {K : ι → σ → Prop} (h : ∀ i, Triple (K i) p Q C) :
    Triple (fun s => ∃ i, K i s) p Q C := by
  rintro s n ⟨i, hs⟩
  exact h i s n hs

/-- A precondition on the program's parameters alone may be assumed. -/
theorem of_imp {a : Prop} (h : a → Triple P p Q C) : Triple (fun s => a ∧ P s) p Q C := by
  rintro s n ⟨ha, hs⟩
  exact h ha s n hs

/-- A loop keeps an invariant indexed by the items that remain. -/
theorem forEach {b : ι → Program σ} {I : List ι → σ → Prop}
    (hb : ∀ x xs, Triple (I (x :: xs)) (b x) (I xs) C) (xs : List ι) :
    Triple (I xs) (Program.forEach b xs) (I []) C := by
  induction xs with
  | nil => exact skip _ _
  | cons x xs ih => exact (hb x xs).seq ih

end Triple

end FogOS.Library
