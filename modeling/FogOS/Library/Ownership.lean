import Mathlib

/-!
# Sets of units that are owned

Each holder owns a set of units. The accounts are exact when no unit is owned twice and every unit
is either free or owned.
-/

namespace FogOS.Library

open Function Finset

variable {T U : Type*} [DecidableEq T] [DecidableEq U]

/-- The units are the free ones and those of the holders, each of which has one owner. -/
structure Owners (units free : Finset U) (own : T → Finset U) (holders : Finset T) : Prop where
  mem_holders : ∀ t, t ∈ holders ↔ own t ≠ ∅
  unique : ∀ t u x, x ∈ own t → x ∈ own u → t = u
  mem_units : ∀ x, x ∈ units ↔ x ∈ free ∨ ∃ t, x ∈ own t
  not_free : ∀ t x, x ∈ own t → x ∉ free

namespace Owners

variable {units free : Finset U} {own : T → Finset U} {holders : Finset T} {t : T} {xs : Finset U}

section

variable (h : Owners units free own holders)

include h

omit [DecidableEq T] [DecidableEq U] in
theorem mem_units_of_own {x : U} (hx : x ∈ own t) : x ∈ units :=
  (h.mem_units x).2 (.inr ⟨t, hx⟩)

/-- Free units are given to a holder that has none. -/
theorem attach (ht : own t = ∅) (hxs : xs ⊆ free) (hne : xs ≠ ∅) :
    Owners units (free \ xs) (update own t xs) (insert t holders) := by
  have hown (u : T) (x : U) : x ∈ update own t xs u ↔ u = t ∧ x ∈ xs ∨ u ≠ t ∧ x ∈ own u := by
    by_cases hu : u = t
    · subst hu
      simp
    · simp [hu]
  refine ⟨fun u => ?_, fun u v x hu hv => ?_, fun x => ?_, fun u x hu => ?_⟩
  · by_cases hu : u = t
    · subst hu
      simp [hne]
    · simp [hu, h.mem_holders]
  · rcases (hown u x).1 hu with ⟨rfl, hx⟩ | ⟨-, hx⟩
    · rcases (hown v x).1 hv with ⟨rfl, -⟩ | ⟨-, hx'⟩
      · rfl
      · exact absurd (hxs hx) (h.not_free v x hx')
    · rcases (hown v x).1 hv with ⟨rfl, hx'⟩ | ⟨-, hx'⟩
      · exact absurd (hxs hx') (h.not_free u x hx)
      · exact h.unique u v x hx hx'
  · rw [h.mem_units, mem_sdiff]
    constructor
    · rintro (hx | ⟨u, hx⟩)
      · by_cases hxs' : x ∈ xs
        · exact .inr ⟨t, (hown t x).2 (.inl ⟨rfl, hxs'⟩)⟩
        · exact .inl ⟨hx, hxs'⟩
      · have hu : u ≠ t := by
          rintro rfl
          rw [ht] at hx
          exact absurd hx (notMem_empty x)
        exact .inr ⟨u, (hown u x).2 (.inr ⟨hu, hx⟩)⟩
    · rintro (⟨hx, -⟩ | ⟨u, hu⟩)
      · exact .inl hx
      · rcases (hown u x).1 hu with ⟨-, hx⟩ | ⟨-, hx⟩
        · exact .inl (hxs hx)
        · exact .inr ⟨u, hx⟩
  · rw [mem_sdiff, not_and_not_right]
    rcases (hown u x).1 hu with ⟨-, hx⟩ | ⟨-, hx⟩
    · exact fun _ => hx
    · exact fun hfree => absurd hfree (h.not_free u x hx)

/-- A holder gives all its units back. -/
theorem detach (t : T) : Owners units (free ∪ own t) (update own t ∅) (holders.erase t) := by
  have hown (u : T) (x : U) : x ∈ update own t ∅ u ↔ u ≠ t ∧ x ∈ own u := by
    by_cases hu : u = t
    · subst hu
      simp
    · simp [hu]
  refine ⟨fun u => ?_, fun u v x hu hv => ?_, fun x => ?_, fun u x hu => ?_⟩
  · by_cases hu : u = t
    · subst hu
      simp
    · simp [hu, h.mem_holders]
  · exact h.unique u v x ((hown u x).1 hu).2 ((hown v x).1 hv).2
  · rw [h.mem_units, mem_union]
    constructor
    · rintro (hx | ⟨u, hx⟩)
      · exact .inl (.inl hx)
      · by_cases hu : u = t
        · exact .inl (.inr (hu ▸ hx))
        · exact .inr ⟨u, (hown u x).2 ⟨hu, hx⟩⟩
    · rintro ((hx | hx) | ⟨u, hu⟩)
      · exact .inl hx
      · exact .inr ⟨t, hx⟩
      · exact .inr ⟨u, ((hown u x).1 hu).2⟩
  · obtain ⟨hne, hx⟩ := (hown u x).1 hu
    rw [mem_union, not_or]
    exact ⟨h.not_free u x hx, fun hx' => hne (h.unique u t x hx hx')⟩

omit [DecidableEq T] in
/-- If every holder has `n` units, the free ones are the others. -/
theorem card {n : Nat} (hn : ∀ t ∈ holders, (own t).card = n) :
    free.card + n * holders.card = units.card := by
  have hunits : units = free ∪ holders.biUnion own := by
    ext x
    rw [h.mem_units, mem_union, mem_biUnion]
    refine or_congr_right ⟨fun ⟨u, hu⟩ => ⟨u, ?_, hu⟩, fun ⟨u, _, hu⟩ => ⟨u, hu⟩⟩
    rw [h.mem_holders]
    rintro hempty
    rw [hempty] at hu
    exact absurd hu (notMem_empty x)
  have hdisjoint : Disjoint free (holders.biUnion own) := by
    rw [disjoint_right]
    intro x hx
    obtain ⟨u, -, hu⟩ := mem_biUnion.1 hx
    exact h.not_free u x hu
  have hpairwise : (holders : Set T).PairwiseDisjoint own := by
    intro u _ v _ huv
    refine disjoint_left.2 fun x hu hv => huv ?_
    exact h.unique u v x hu hv
  rw [hunits, card_union_of_disjoint hdisjoint, card_biUnion hpairwise,
    sum_congr rfl hn, sum_const, smul_eq_mul, mul_comm]

end

end Owners

end FogOS.Library
