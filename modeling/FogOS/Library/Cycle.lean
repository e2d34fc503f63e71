import Mathlib

/-!
# Singly linked circular lists

A linked list is a function `link` on nodes. `Linked link l e` says that every node of `l` is
linked to the one behind it and the last one to `e`; a circular list is one whose last node is
linked to its first.
-/

namespace FogOS.Library.Cycle

variable {N : Type*} {link link' : N → N} {l l₁ l₂ : List N} {a e x : N}

/-- The first node of a list that is followed by `e`. -/
def first (l : List N) (e : N) : N := l.headD e

@[simp] theorem first_nil (e : N) : first [] e = e := rfl

@[simp] theorem first_cons (a : N) (l : List N) (e : N) : first (a :: l) e = a := rfl

theorem first_append (l₁ l₂ : List N) (e : N) : first (l₁ ++ l₂) e = first l₁ (first l₂ e) := by
  cases l₁ with
  | nil => rfl
  | cons a l => rfl

/-- The nodes of `l` are linked in order, and the last one to `e`. -/
def Linked (link : N → N) : List N → N → Prop
  | [], _ => True
  | a :: l, e => link a = first l e ∧ Linked link l e

theorem linked_append :
    Linked link (l₁ ++ l₂) e ↔ Linked link l₁ (first l₂ e) ∧ Linked link l₂ e := by
  induction l₁ with
  | nil => exact (true_and _).symm.to_iff
  | cons a l ih => simp only [List.cons_append, Linked, ih, first_append, and_assoc]

theorem Linked.congr (h : Linked link l e) (heq : ∀ a ∈ l, link' a = link a) :
    Linked link' l e := by
  induction l with
  | nil => trivial
  | cons a l ih =>
    refine ⟨(heq a List.mem_cons_self).trans h.1, ih h.2 fun b hb => ?_⟩
    exact heq b (List.mem_cons_of_mem _ hb)

/-- A part of a list is replaced. -/
theorem Linked.splice {pre mid mid' post : List N} (h : Linked link (pre ++ x :: mid ++ post) e)
    (hmid : Linked link' (x :: mid') (first post e)) (hpre : ∀ a ∈ pre, link' a = link a)
    (hpost : ∀ a ∈ post, link' a = link a) : Linked link' (pre ++ x :: mid' ++ post) e := by
  rw [linked_append, linked_append] at h ⊢
  exact ⟨⟨h.1.1.congr hpre, hmid⟩, h.2.congr hpost⟩

/-- A circular list may be entered at any of its nodes. -/
theorem Linked.rotate (h : Linked link (l₁ ++ a :: l₂) (first (l₁ ++ a :: l₂) e)) :
    Linked link (a :: l₂ ++ l₁) a := by
  obtain ⟨h₁, h₂⟩ := linked_append.1 h
  refine linked_append.2 ⟨?_, h₁⟩
  rwa [first_append, first_cons] at h₂

end FogOS.Library.Cycle
