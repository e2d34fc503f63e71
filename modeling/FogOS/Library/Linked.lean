import Mathlib

/-!
# Doubly linked lists

A doubly linked list is two functions `next` and `prev` on nodes. `Seg next prev a l b` says that
following `next` from `a` visits the nodes of `l` in order and then reaches `b`, and that
`prev` leads back the same way. A circular list with a sentinel `h` is a segment from `h` to
`h`.
-/

namespace FogOS.Library.Linked

open Function List Nat

variable {N : Type*} {next prev next' prev' : N → N} {a b x : N} {l l₁ l₂ : List N}

/-- The nodes of `l` are linked in order between `a` and `b`. -/
def Seg (next prev : N → N) : N → List N → N → Prop
  | a, [], b => next a = b ∧ prev b = a
  | a, x :: l, b => (next a = x ∧ prev x = a) ∧ Seg next prev x l b

theorem seg_append : Seg next prev a (l₁ ++ x :: l₂) b ↔ Seg next prev a l₁ x ∧ Seg next prev x l₂ b := by
  induction l₁ generalizing a with
  | nil => exact Iff.rfl
  | cons y l ih => simp only [cons_append, Seg, ih, and_assoc]

/-- A segment is a segment in the other direction. -/
theorem seg_reverse : Seg next prev a l b ↔ Seg prev next b l.reverse a := by
  induction l generalizing a with
  | nil => exact and_comm
  | cons x l ih =>
    rw [reverse_cons, seg_append, ← ih]
    simp only [Seg]
    rw [and_comm, and_comm (a := next a = x)]

/-- A segment depends on the links of its own nodes. -/
theorem Seg.congr (h : Seg next prev a l b) (hnext : ∀ y ∈ a :: l, next' y = next y)
    (hprev : ∀ y ∈ l ++ [b], prev' y = prev y) : Seg next' prev' a l b := by
  induction l generalizing a with
  | nil =>
    exact ⟨(hnext a (by simp)).trans h.1, (hprev b (by simp)).trans h.2⟩
  | cons x l ih =>
    obtain ⟨⟨hn, hp⟩, hrest⟩ := h
    refine ⟨⟨(hnext a (by simp)).trans hn, (hprev x (by simp)).trans hp⟩, ih hrest ?_ ?_⟩
    · exact fun y hy => hnext y (mem_cons_of_mem _ hy)
    · exact fun y hy => hprev y (mem_cons_of_mem _ hy)

theorem Seg.next_mem (h : Seg next prev a l b) : next a ∈ l ++ [b] := by
  cases l with
  | nil => simp [h.1]
  | cons x l => simp [h.1.1]

theorem Seg.prev_mem (h : Seg next prev a l b) : prev b ∈ a :: l := by
  have hmem := (seg_reverse.mp h).next_mem
  simpa [or_comm] using hmem

variable [DecidableEq N]

/-- Taking a node out of a list: its neighbours are linked to each other. -/
theorem Seg.unlink (h₁ : Seg next prev a l₁ x) (h₂ : Seg next prev x l₂ b)
    (hnd : (l₁ ++ x :: l₂).Nodup) (ha : a ∉ l₁ ++ x :: l₂) (hb : b ∉ l₁ ++ x :: l₂) :
    Seg (update next (prev x) (next x)) (update prev (next x) (prev x)) a (l₁ ++ l₂) b := by
  induction l₁ generalizing a with
  | nil =>
    have hpx : prev x = a := h₁.2
    rw [hpx]
    cases l₂ with
    | nil =>
      have hnx : next x = b := h₂.1
      simp [Seg, hnx]
    | cons y l₂ =>
      obtain ⟨⟨hnx, _⟩, hrest⟩ := h₂
      rw [hnx]
      refine ⟨⟨by simp, by simp⟩, hrest.congr (fun z hz => ?_) fun z hz => ?_⟩
      · refine update_of_ne ?_ _ _
        rintro rfl
        exact ha (mem_cons_of_mem _ hz)
      · refine update_of_ne ?_ _ _
        rintro rfl
        rcases mem_append.mp hz with hz | hz
        · exact (nodup_cons.mp (nodup_cons.mp hnd).2).1 hz
        · rw [mem_singleton] at hz
          exact hb (by simp [← hz])
  | cons z l₁ ih =>
    obtain ⟨⟨hna, hpz⟩, hrest⟩ := h₁
    obtain ⟨hz, hnd'⟩ := nodup_cons.mp hnd
    refine ⟨⟨?_, ?_⟩, ih hrest hnd' hz fun hm => hb (mem_cons_of_mem _ hm)⟩
    · have hne : a ≠ prev x := by
        intro heq
        have hmem := hrest.prev_mem
        rw [← heq] at hmem
        refine ha ?_
        rcases mem_cons.mp hmem with rfl | hmem
        · exact mem_cons_self
        · exact mem_cons_of_mem _ (mem_append_left _ hmem)
      rw [update_of_ne hne, hna]
    · have hne : z ≠ next x := by
        intro heq
        have hmem := h₂.next_mem
        rw [← heq] at hmem
        rcases mem_append.mp hmem with hmem | hmem
        · exact hz (mem_append_right _ (mem_cons_of_mem _ hmem))
        · rw [mem_singleton] at hmem
          exact hb (by simp [← hmem])
      rw [update_of_ne hne, hpz]

/-- Putting a node in front of a circular list. -/
theorem Seg.pushFront {h : N} (hs : Seg next prev h l h) (hx : x ≠ h) (hxl : x ∉ l) (hl : h ∉ l)
    (hnd : l.Nodup) :
    Seg (update (update next x (next h)) h x)
      (update (update prev x h) (next h) x) h (x :: l) h := by
  cases l with
  | nil =>
    have hn : next h = h := hs.1
    simp [Seg, hn, hx]
  | cons y l =>
    obtain ⟨⟨hn, _⟩, hrest⟩ := hs
    have hxy : x ≠ y := fun he => hxl (by simp [he])
    have hhy : h ≠ y := fun he => hl (by simp [he])
    rw [hn]
    refine ⟨⟨by simp, by simp [hxy]⟩, ⟨by simp [hx], by simp⟩,
      hrest.congr (fun z hz => ?_) fun z hz => ?_⟩
    · have hzh : z ≠ h := fun he => hl (he ▸ hz)
      have hzx : z ≠ x := fun he => hxl (he ▸ hz)
      rw [update_of_ne hzh, update_of_ne hzx]
    · have hzy : z ≠ y := by
        rintro rfl
        rcases mem_append.mp hz with hz | hz
        · exact (nodup_cons.mp hnd).1 hz
        · exact hhy (mem_singleton.mp hz).symm
      have hzx : z ≠ x := by
        rintro rfl
        rcases mem_append.mp hz with hz | hz
        · exact hxl (mem_cons_of_mem _ hz)
        · exact hx (mem_singleton.mp hz)
      rw [update_of_ne hzy, update_of_ne hzx]

section Search

variable {β : Type*}

/-- Follow `next` from `n` to the sentinel `h`, at most `fuel` nodes, and stop at the first node
on which `f` has a result; `none` if the fuel runs out. -/
def search (next : N → N) (h : N) (f : N → Option β) : Nat → N → Option (Option β)
  | 0, _ => none
  | fuel + 1, n =>
    if n = h then some none
    else
      match f n with
      | some r => some (some r)
      | none => search next h f fuel (next n)

/-- A search along a segment that ends at the sentinel is a search in the list. -/
theorem Seg.search_eq {h : N} (hs : Seg next prev a l h) (hl : h ∉ l) (f : N → Option β)
    {fuel : Nat} (hfuel : l.length < fuel) :
    search next h f fuel (next a) = some (l.findSome? f) := by
  induction l generalizing a fuel with
  | nil =>
    obtain ⟨fuel, rfl⟩ := exists_eq_succ_of_ne_zero (ne_of_gt hfuel)
    rw [hs.1]
    simp [search]
  | cons x l ih =>
    obtain ⟨fuel, rfl⟩ := exists_eq_succ_of_ne_zero (ne_of_gt (zero_lt_of_lt hfuel))
    obtain ⟨⟨hn, _⟩, hrest⟩ := hs
    have hxh : x ≠ h := fun he => hl (by simp [he])
    rw [hn, search, if_neg hxh]
    cases hf : f x with
    | some r => simp [hf]
    | none =>
      simp only [length_cons] at hfuel
      rw [findSome?_cons, hf]
      exact ih hrest (fun hm => hl (mem_cons_of_mem _ hm)) (by omega)

end Search

end FogOS.Library.Linked
