import Mathlib

/-!
# The matcher of `grep`

`match`, `matchhere` and `matchstar` of `grep.c`. A string is the list of its characters up to
the null character. The matcher is compared with the language of the items of the pattern.
-/

namespace FogOS.Grep

open List

def caret : UInt8 := 94

def dollar : UInt8 := 36

def star : UInt8 := 42

def dot : UInt8 := 46

/-- A character of the pattern stands for a character of the text. -/
def Accepts (c t : UInt8) : Prop := c = dot ∨ c = t

instance (c t : UInt8) : Decidable (Accepts c t) := inferInstanceAs (Decidable (_ ∨ _))

/-- `matchstar`, with `matchhere` for the pattern behind the star. -/
def matchstar (here : List UInt8 → Bool) (c : UInt8) : List UInt8 → Bool
  | [] => here []
  | t :: text => here (t :: text) || decide (Accepts c t) && matchstar here c text

/-- The last test of `matchhere`, with `matchhere` for the pattern behind the character. -/
def matchone (here : List UInt8 → Bool) (c : UInt8) : List UInt8 → Bool
  | [] => false
  | t :: text => decide (Accepts c t) && here text

def matchhere : List UInt8 → List UInt8 → Bool
  | [], _ => true
  | [c], text => if c = dollar then text.isEmpty else matchone (fun _ => true) c text
  | c :: d :: re, text =>
    if d = star then matchstar (matchhere re) c text else matchone (matchhere (d :: re)) c text

/-- `match`; its loop tries every end of the text, the empty one included. -/
def matchText (re text : List UInt8) : Bool :=
  if re.head? = some caret then matchhere re.tail text else text.tails.any (matchhere re)

section Language

/-- The items of a pattern. -/
inductive Item
  | many (c : UInt8)
  | one (c : UInt8)
  | atEnd
  deriving DecidableEq

def items : List UInt8 → List Item
  | [] => []
  | [c] => if c = dollar then [.atEnd] else [.one c]
  | c :: d :: re => if d = star then .many c :: items re else .one c :: items (d :: re)

/-- The item `$` stands for no character; it says where the match ends. -/
def Item.language : Item → Language UInt8
  | many c => {w | ∀ t ∈ w, Accepts c t}
  | one c => {w | ∃ t, Accepts c t ∧ w = [t]}
  | atEnd => 1

def language (xs : List Item) : Language UInt8 := (xs.map Item.language).prod

/-- A beginning of the text is in the language, and all of it if the last item is `$`. -/
def MatchesHere (xs : List Item) (text : List UInt8) : Prop :=
  ∃ w post, text = w ++ post ∧ w ∈ language xs ∧ (xs.getLast? = some .atEnd → post = [])

variable {here : List UInt8 → Bool} {c : UInt8} {text : List UInt8} {xs : List Item}

theorem mem_language_cons {x : Item} {w : List UInt8} :
    w ∈ language (x :: xs) ↔ ∃ u ∈ x.language, ∃ v ∈ language xs, u ++ v = w := by
  rfl

theorem getLast?_cons_atEnd {x : Item} (hx : x ≠ .atEnd) :
    (x :: xs).getLast? = some .atEnd ↔ xs.getLast? = some .atEnd := by
  cases xs with
  | nil => simpa using hx
  | cons y ys => rw [getLast?_cons_cons]

/-- An item in front takes a beginning of the text. -/
theorem matchesHere_cons {x : Item} (hx : x ≠ .atEnd) :
    MatchesHere (x :: xs) text ↔ ∃ u rest, text = u ++ rest ∧ u ∈ x.language ∧ MatchesHere xs rest := by
  constructor
  · rintro ⟨w, post, rfl, hw, hend⟩
    obtain ⟨u, hu, v, hv, rfl⟩ := mem_language_cons.mp hw
    rw [getLast?_cons_atEnd hx] at hend
    exact ⟨u, v ++ post, append_assoc u v post, hu, v, post, rfl, hv, hend⟩
  · rintro ⟨u, rest, rfl, hu, v, post, rfl, hv, hend⟩
    refine ⟨u ++ v, post, (append_assoc u v post).symm, ?_, ?_⟩
    · exact mem_language_cons.mpr ⟨u, hu, v, hv, rfl⟩
    · rwa [getLast?_cons_atEnd hx]

/-- The loop of `matchstar` drops the characters that the star takes. -/
theorem matchstar_iff (hhere : ∀ t, here t = true ↔ MatchesHere xs t) :
    matchstar here c text = true ↔ MatchesHere (.many c :: xs) text := by
  rw [matchesHere_cons (by simp)]
  induction text with
  | nil =>
    rw [matchstar, hhere]
    constructor
    · exact fun h => ⟨[], [], rfl, nofun, h⟩
    · rintro ⟨u, rest, hnil, -, h⟩
      rwa [(append_eq_nil_iff.mp hnil.symm).2] at h
  | cons t text ih =>
    rw [matchstar, Bool.or_eq_true, Bool.and_eq_true, decide_eq_true_iff, hhere, ih]
    constructor
    · rintro (h | ⟨ht, u, rest, rfl, hu, h⟩)
      · exact ⟨[], t :: text, rfl, nofun, h⟩
      · exact ⟨t :: u, rest, rfl, forall_mem_cons.mpr ⟨ht, hu⟩, h⟩
    · rintro ⟨u, rest, heq, hu, h⟩
      cases u with
      | nil => exact .inl (heq ▸ h)
      | cons t' u =>
        obtain ⟨rfl, rfl⟩ := List.cons.inj heq
        obtain ⟨ht, hu⟩ := forall_mem_cons.mp hu
        exact .inr ⟨ht, u, rest, rfl, hu, h⟩

theorem matchone_iff (hhere : ∀ t, here t = true ↔ MatchesHere xs t) :
    matchone here c text = true ↔ MatchesHere (.one c :: xs) text := by
  rw [matchesHere_cons (by simp)]
  cases text with
  | nil =>
    constructor
    · exact fun h => absurd h (by simp [matchone])
    · rintro ⟨u, rest, hnil, ⟨t, -, rfl⟩, -⟩
      cases hnil
  | cons t text =>
    rw [matchone, Bool.and_eq_true, decide_eq_true_iff, hhere]
    constructor
    · exact fun h => ⟨[t], text, rfl, ⟨t, h.1, rfl⟩, h.2⟩
    · rintro ⟨u, rest, heq, ⟨t', ht, rfl⟩, h⟩
      obtain ⟨rfl, rfl⟩ := List.cons.inj heq
      exact ⟨ht, h⟩

theorem matchesHere_nil (text : List UInt8) : MatchesHere [] text :=
  ⟨[], text, rfl, rfl, nofun⟩

theorem matchesHere_atEnd : MatchesHere [.atEnd] text ↔ text = [] := by
  constructor
  · rintro ⟨w, post, rfl, hw, hend⟩
    obtain ⟨u, hu, v, hv, rfl⟩ := mem_language_cons.mp hw
    obtain rfl : u = [] := hu
    obtain rfl : v = [] := hv
    exact hend rfl
  · rintro rfl
    exact ⟨[], [], rfl, mem_language_cons.mpr ⟨[], rfl, [], rfl, rfl⟩, fun _ => rfl⟩

theorem matchhere_iff (re text : List UInt8) :
    matchhere re text = true ↔ MatchesHere (items re) text := by
  -- The induction follows the two ways in which `matchhere` goes on.
  induction re using items.induct generalizing text with
  | case1 => simp [matchhere, items, matchesHere_nil]
  | case2 => simp [matchhere, items, matchesHere_atEnd]
  | case3 c hc =>
    rw [matchhere, items, if_neg hc, if_neg hc]
    exact matchone_iff fun t => by simp [matchesHere_nil]
  | case4 c re ih =>
    exact matchstar_iff ih
  | case5 c d re hd ih =>
    rw [matchhere, items, if_neg hd, if_neg hd]
    exact matchone_iff ih

/-- The pattern without the `^` in front. -/
def body (re : List UInt8) : List UInt8 := if re.head? = some caret then re.tail else re

/-- The matcher finds a part of the text in the language of the items, which is a beginning of the
text for a pattern with `^` and an end of it for a pattern whose last item is `$`. -/
theorem match_correct (re text : List UInt8) :
    matchText re text = true ↔ ∃ pre w post, text = pre ++ w ++ post ∧
      w ∈ language (items (body re)) ∧ (re.head? = some caret → pre = []) ∧
      ((items (body re)).getLast? = some .atEnd → post = []) := by
  unfold matchText body
  by_cases hcaret : re.head? = some caret
  · rw [if_pos hcaret, if_pos hcaret, matchhere_iff]
    constructor
    · rintro ⟨w, post, htext, hw, hend⟩
      exact ⟨[], w, post, htext, hw, fun _ => rfl, hend⟩
    · rintro ⟨pre, w, post, rfl, hw, hpre, hend⟩
      rw [hpre hcaret]
      exact ⟨w, post, rfl, hw, hend⟩
  · rw [if_neg hcaret, if_neg hcaret, any_eq_true]
    constructor
    · rintro ⟨rest, hrest, h⟩
      obtain ⟨pre, rfl⟩ := (mem_tails rest text).mp hrest
      obtain ⟨w, post, rfl, hw, hend⟩ := (matchhere_iff re rest).mp h
      exact ⟨pre, w, post, (append_assoc pre w post).symm, hw, fun h => absurd h hcaret, hend⟩
    · rintro ⟨pre, w, post, rfl, hw, -, hend⟩
      refine ⟨w ++ post, (mem_tails _ _).mpr ⟨pre, (append_assoc pre w post).symm⟩, ?_⟩
      exact (matchhere_iff re _).mpr ⟨w, post, rfl, hw, hend⟩

/-- `b.*$` in `abc`, and `^b` not. -/
example : matchText [98, 46, 42, 36] [97, 98, 99] = true ∧ matchText [94, 98] [97, 98, 99] = false := by
  decide

end Language

end FogOS.Grep
