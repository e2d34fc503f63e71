import Mathlib

/-!
# Weakest preconditions of stateful programs that can fail

A program takes a state and returns a result and a new state, or fails. `wp m Q E`
holds in a state from which `m` either returns with `Q` or fails with `E`.
-/

namespace FogOS.Library

universe u

variable {σ : Type u} {ε : Type u} {α β : Type u}

/-- From `t`, the program returns with `Q` or fails with `E`. -/
def wp (m : StateT σ (Except ε) α) (Q : α → σ → Prop) (E : ε → Prop) (t : σ) : Prop :=
  match m t with
  | .ok (a, s) => Q a s
  | .error e => E e

/-- From `t`, the program does not fail, and returns with `Q`. -/
abbrev Returns (m : StateT σ (Except ε) α) (Q : α → σ → Prop) (t : σ) : Prop :=
  wp m Q (fun _ => False) t

variable {m : StateT σ (Except ε) α} {Q Q' : α → σ → Prop} {E E' : ε → Prop} {t : σ}

theorem wp_mono (h : wp m Q E t) (hQ : ∀ a s, Q a s → Q' a s) (hE : ∀ e, E e → E' e) :
    wp m Q' E' t := by
  unfold wp at h ⊢
  cases hm : m t with
  | ok r =>
    rw [hm] at h
    exact hQ r.1 r.2 h
  | error e =>
    rw [hm] at h
    exact hE e h

theorem wp_of_ok {a : α} {s : σ} (h : wp m Q E t) (hm : m t = .ok (a, s)) : Q a s := by
  unfold wp at h
  rw [hm] at h
  exact h

theorem wp_of_error {e : ε} (h : wp m Q E t) (hm : m t = .error e) : E e := by
  unfold wp at h
  rw [hm] at h
  exact h

/-- A program that cannot fail returns. -/
theorem exists_ok_of_wp (h : Returns m Q t) : ∃ a s, m t = .ok (a, s) ∧ Q a s := by
  unfold Returns wp at h
  cases hm : m t with
  | ok r =>
    rw [hm] at h
    exact ⟨r.1, r.2, rfl, h⟩
  | error e =>
    rw [hm] at h
    exact h.elim

@[simp] theorem wp_pure (a : α) : wp (pure a) Q E t ↔ Q a t := Iff.rfl

@[simp] theorem wp_throw (e : ε) : wp (throw e : StateT σ (Except ε) α) Q E t ↔ E e := Iff.rfl

@[simp] theorem wp_bind {f : α → StateT σ (Except ε) β} {R : β → σ → Prop} :
    wp (m >>= f) R E t ↔ wp m (fun a s => wp (f a) R E s) E t := by
  have hbind : (m >>= f) t = (m t >>= fun r => f r.1 r.2) := rfl
  unfold wp
  rw [hbind]
  cases m t with
  | ok r => exact Iff.rfl
  | error e => exact Iff.rfl

/-- The rule of sequence. -/
theorem wp_seq {f : α → StateT σ (Except ε) β} {R : β → σ → Prop} (h : wp m Q E t)
    (hf : ∀ a s, Q a s → wp (f a) R E s) : wp (m >>= f) R E t :=
  wp_bind.mpr (wp_mono h hf fun _ he => he)

/-- The rule of sequence for two programs before the rest. -/
theorem wp_seq_two {γ : Type u} {n : α → StateT σ (Except ε) β} {f : β → StateT σ (Except ε) γ}
    {S : β → σ → Prop} {R : γ → σ → Prop} (h : wp (m >>= n) S E t)
    (hf : ∀ b s, S b s → wp (f b) R E s) : wp (m >>= fun a => n a >>= f) R E t := by
  rw [← bind_assoc]
  exact wp_seq h hf

section State

variable {Q : σ → σ → Prop} {R : PUnit → σ → Prop}

@[simp] theorem wp_get : wp (get : StateT σ (Except ε) σ) Q E t ↔ Q t t := Iff.rfl

@[simp] theorem wp_set (s : σ) : wp (set s : StateT σ (Except ε) PUnit) R E t ↔ R ⟨⟩ s := Iff.rfl

@[simp] theorem wp_modify (f : σ → σ) :
    wp (modify f : StateT σ (Except ε) PUnit) R E t ↔ R ⟨⟩ (f t) := Iff.rfl

end State

theorem wp_ite {c : Prop} [Decidable c] {n : StateT σ (Except ε) α} :
    wp (if c then m else n) Q E t ↔ (c → wp m Q E t) ∧ (¬ c → wp n Q E t) := by
  by_cases h : c <;> simp [h]

/-- The rule of sequence for a program that is skipped unless `c` holds. -/
theorem wp_seq_when {c : Prop} [Decidable c] {n : StateT σ (Except ε) PUnit}
    {k : StateT σ (Except ε) β} {S : PUnit → σ → Prop} {R : β → σ → Prop}
    (h : wp (if c then n else pure ⟨⟩) S E t) (hk : ∀ s, S ⟨⟩ s → wp k R E s) :
    wp (if c then n >>= fun _ => k else k) R E t := by
  by_cases hc : c
  · rw [if_pos hc] at h ⊢
    exact wp_seq h fun _ s hs => hk s hs
  · rw [if_neg hc] at h ⊢
    exact hk t h

end FogOS.Library
