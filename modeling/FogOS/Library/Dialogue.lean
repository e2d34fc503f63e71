import Mathlib

/-!
# Programs as dialogues

A program performs atomic operations one by one and goes on with their replies. A protocol
describes, in terms of what the program can know, which operations it may perform, which replies it
can get and what it knows then. `Safe m Q v` holds when `m`, started with knowledge `v`, performs
only allowed operations and ends with `Q`.
-/

namespace FogOS.Library

/-- A tree of operations, with one branch for each reply. -/
inductive Dialogue (Op : Type) (Reply : Op → Type) (α : Type)
  | ret (a : α)
  | act (o : Op) (k : Reply o → Dialogue Op Reply α)

namespace Dialogue

variable {Op : Type} {Reply : Op → Type} {α β : Type}

def bind : Dialogue Op Reply α → (α → Dialogue Op Reply β) → Dialogue Op Reply β
  | .ret a, f => f a
  | .act o k, f => .act o fun r => (k r).bind f

instance : Monad (Dialogue Op Reply) where
  pure := .ret
  bind := bind

/-- The program that performs one operation. -/
def perform (o : Op) : Dialogue Op Reply (Reply o) := .act o .ret

end Dialogue

structure Protocol (Op : Type) (Reply : Op → Type) (V : Type) where
  allowed : V → Op → Prop
  reply : V → (o : Op) → Reply o → Prop
  next : V → (o : Op) → Reply o → V

namespace Protocol

open Dialogue

variable {Op : Type} {Reply : Op → Type} {α β V : Type} {S : Protocol Op Reply V}

variable (S) in
def Safe : Dialogue Op Reply α → (α → V → Prop) → V → Prop
  | .ret a, Q, v => Q a v
  | .act o k, Q, v => S.allowed v o ∧ ∀ r, S.reply v o r → Safe (k r) Q (S.next v o r)

variable {Q Q' : α → V → Prop} {R : β → V → Prop} {v : V}

@[simp] theorem safe_pure (a : α) : S.Safe (pure a) Q v ↔ Q a v := Iff.rfl

theorem Safe.mono {m : Dialogue Op Reply α} (h : S.Safe m Q v)
    (hQ : ∀ a v, Q a v → Q' a v) : S.Safe m Q' v := by
  induction m generalizing v with
  | ret a => exact hQ a v h
  | act o k ih => exact ⟨h.1, fun r hr => ih r (h.2 r hr)⟩

theorem safe_bind {m : Dialogue Op Reply α} {f : α → Dialogue Op Reply β} :
    S.Safe (m >>= f) R v ↔ S.Safe m (fun a w => S.Safe (f a) R w) v := by
  induction m generalizing v with
  | ret a => exact Iff.rfl
  | act o k ih => exact and_congr_right fun _ => forall₂_congr fun r _ => ih r

/-- The rule of sequence. -/
theorem Safe.seq {m : Dialogue Op Reply α} {f : α → Dialogue Op Reply β} (h : S.Safe m Q v)
    (hf : ∀ a w, Q a w → S.Safe (f a) R w) : S.Safe (m >>= f) R v :=
  safe_bind.2 (h.mono hf)

/-- The rule of sequence for one operation. -/
theorem safe_act {o : Op} {f : Reply o → Dialogue Op Reply β} (h : S.allowed v o)
    (hf : ∀ r, S.reply v o r → S.Safe (f r) R (S.next v o r)) : S.Safe (perform o >>= f) R v :=
  ⟨h, hf⟩

end Protocol

end FogOS.Library
