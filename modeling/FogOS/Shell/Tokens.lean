import FogOS.Shell.Model

/-!
# Tokens of a line

The tokens of a line are the symbols, with `>>` as one, and the words, which are maximal runs of
other characters than whitespace and symbols. `gettoken` takes one token off the front and `peek`
looks at it.
-/

namespace FogOS.Shell

open List Option Nat

inductive Token
  | bar
  | lparen
  | rparen
  | semi
  | amp
  | lt
  | gt
  | append
  | word (w : List Char)
  deriving DecidableEq

/-- The token of one symbol. -/
def symbolToken (c : Char) : Option Token :=
  if c = '|' then some .bar
  else if c = '(' then some .lparen
  else if c = ')' then some .rparen
  else if c = ';' then some .semi
  else if c = '&' then some .amp
  else if c = '<' then some .lt
  else if c = '>' then some .gt
  else none

def tokens : List Char → List Token
  | [] => []
  | c :: s =>
    if isSpace c then tokens s
    else if c = '>' ∧ s.head? = some '>' then .append :: tokens s.tail
    else
      match symbolToken c with
      | some t => t :: tokens s
      | none => .word (c :: s.takeWhile isWord) :: tokens (s.dropWhile isWord)
termination_by s => s.length
decreasing_by
  · exact Nat.lt_succ_self _
  · exact Nat.lt_succ_of_le (tail_suffix _).length_le
  · exact Nat.lt_succ_self _
  · exact Nat.lt_succ_of_le (dropWhile_suffix _).length_le

namespace Token

/-- What `gettoken` returns for a token. -/
def code : Token → Char
  | bar => '|'
  | lparen => '('
  | rparen => ')'
  | semi => ';'
  | amp => '&'
  | lt => '<'
  | gt => '>'
  | append => '+'
  | word _ => 'a'

/-- The symbol with which a token begins. -/
def symbol : Token → Option Char
  | bar => some '|'
  | lparen => some '('
  | rparen => some ')'
  | semi => some ';'
  | amp => some '&'
  | lt => some '<'
  | gt => some '>'
  | append => some '>'
  | word _ => none

end Token

/-- The words of the line: a maximal run of word characters, up to `eq`. -/
structure WordAt (s : Ptr) (w : Span) (x : List Char) : Prop where
  suffix : w.q <:+ s
  split : w.q = x ++ w.eq
  chars : ∀ c ∈ x, isWord c
  maximal : w.eq.head?.all fun c => !isWord c

theorem WordAt.mono {s t : Ptr} {w : Span} {x : List Char} (h : WordAt s w x) (hs : s <:+ t) :
    WordAt t w x :=
  ⟨h.suffix.trans hs, h.split, h.chars, h.maximal⟩

section Chars

variable {c : Char} {s r : List Char}

theorem symbol_of_symbolToken {t : Token} (h : symbolToken c = some t) :
    isSpace c = false ∧ t.symbol = some c ∧ t.code = c ∧ ∀ x, t ≠ .word x := by
  simp only [symbolToken] at h
  split_ifs at h <;> cases h <;> subst_vars <;> exact ⟨by decide, rfl, rfl, nofun⟩

theorem symbolToken_eq_none (h : isWord c) : symbolToken c = none := by
  simp only [symbolToken]
  split_ifs <;> subst_vars <;> first | rfl | exact absurd h (by decide)

theorem isSpace_or_symbol_or_word (c : Char) :
    isSpace c ∨ (∃ t, symbolToken c = some t) ∨ isWord c := by
  by_cases hspace : isSpace c
  · exact .inl hspace
  · by_cases hsymbol : isSymbol c
    · refine .inr (.inl ?_)
      simp only [isSymbol, symbols, contains_iff_mem, mem_cons, not_mem_nil, or_false] at hsymbol
      rcases hsymbol with rfl | rfl | rfl | rfl | rfl | rfl | rfl <;> exact ⟨_, rfl⟩
    · refine .inr (.inr ?_)
      rw [isWord, eq_false_of_ne_true hspace, eq_false_of_ne_true hsymbol]
      rfl

theorem not_isSpace_of_isWord (h : isWord c) : isSpace c = false := by
  simp only [isWord, Bool.and_eq_true, Bool.not_eq_true'] at h
  exact h.1

theorem tokens_nil : tokens [] = [] := by
  rw [tokens]

theorem tokens_space (h : isSpace c) : tokens (c :: s) = tokens s := by
  rw [tokens, if_pos h]

theorem tokens_append : tokens ('>' :: '>' :: s) = .append :: tokens s := by
  rw [tokens, if_neg (by decide), if_pos ⟨rfl, rfl⟩, tail_cons]

theorem tokens_symbol {t : Token} (h : symbolToken c = some t)
    (hne : ¬(c = '>' ∧ s.head? = some '>')) : tokens (c :: s) = t :: tokens s := by
  rw [tokens, (symbol_of_symbolToken h).1, if_neg nofun, if_neg hne, h]

theorem tokens_word (h : isWord c) :
    tokens (c :: s) = .word (c :: s.takeWhile isWord) :: tokens (s.dropWhile isWord) := by
  have hne : ¬(c = '>' ∧ s.head? = some '>') := by
    rintro ⟨rfl, -⟩
    exact absurd h (by decide)
  rw [tokens, not_isSpace_of_isWord h, if_neg nofun, if_neg hne, symbolToken_eq_none h]

theorem tokens_dropWhile (s : List Char) : tokens (s.dropWhile isSpace) = tokens s := by
  induction s with
  | nil => rfl
  | cons c s ih =>
    by_cases h : isSpace c
    · rw [dropWhile_cons_of_pos h, ih, tokens_space h]
    · rw [dropWhile_cons_of_neg h]

/-- Behind whitespace there is nothing, or a character of a token. -/
theorem not_isSpace_of_dropWhile (h : s.dropWhile isSpace = c :: r) : isSpace c = false := by
  have hhead := head?_dropWhile_not isSpace s
  rw [h] at hhead
  simpa using hhead

end Chars

/-- What there is behind the whitespace at a pointer. -/
inductive Front (s : Ptr) : Prop
  | nil (hq : s.dropWhile isSpace = []) (ht : tokens s = [])
  | append (r : Ptr) (hq : s.dropWhile isSpace = '>' :: '>' :: r)
      (ht : tokens s = .append :: tokens r)
  | symbol (c : Char) (t : Token) (r : Ptr) (hq : s.dropWhile isSpace = c :: r)
      (hc : symbolToken c = some t) (hne : ¬(c = '>' ∧ r.head? = some '>'))
      (ht : tokens s = t :: tokens r)
  | word (c : Char) (r : Ptr) (hq : s.dropWhile isSpace = c :: r) (hc : isWord c)
      (ht : tokens s = .word (c :: r.takeWhile isWord) :: tokens (r.dropWhile isWord))

theorem front (s : Ptr) : Front s := by
  have htokens := tokens_dropWhile s
  cases hq : s.dropWhile isSpace with
  | nil =>
    rw [hq, tokens_nil] at htokens
    exact .nil hq htokens.symm
  | cons c r =>
    rw [hq] at htokens
    rcases isSpace_or_symbol_or_word c with hc | ⟨t, hc⟩ | hc
    · exact absurd (hc.symm.trans (not_isSpace_of_dropWhile hq)) nofun
    · by_cases hne : c = '>' ∧ r.head? = some '>'
      · obtain ⟨rfl, hr⟩ := hne
        cases r with
        | nil => cases hr
        | cons d r =>
          obtain rfl : d = '>' := Option.some.inj hr
          rw [tokens_append] at htokens
          exact .append r hq htokens.symm
      · rw [tokens_symbol hc hne] at htokens
        exact .symbol c t r hq hc hne htokens.symm
    · rw [tokens_word hc] at htokens
      exact .word c r hq hc htokens.symm

section Scan

variable {c : Char} {r : Ptr}

theorem scanToken_symbol {t : Token} (hc : symbolToken c = some t)
    (hne : ¬(c = '>' ∧ r.head? = some '>')) : scanToken (c :: r) = (c, r) := by
  rw [scanToken]
  by_cases hgt : c = '>'
  · rw [if_pos hgt, if_neg fun hr => hne ⟨hgt, hr⟩, hgt]
  · rw [if_neg hgt, if_pos]
    simp only [symbolToken] at hc
    split_ifs at hc <;> subst_vars <;> decide

theorem scanToken_word (hc : isWord c) : scanToken (c :: r) = ('a', r.dropWhile isWord) := by
  have hgt : c ≠ '>' := by
    rintro rfl
    exact absurd hc (by decide)
  have hsymbol : c ∉ ['|', '(', ')', ';', '&', '<'] := by
    simp only [mem_cons, not_mem_nil, or_false]
    rintro (rfl | rfl | rfl | rfl | rfl | rfl) <;> exact absurd hc (by decide)
  rw [scanToken, if_neg hgt, if_neg hsymbol, dropWhile_cons_of_pos hc]

end Scan

/-- One token, taken off the front of the rest of the line. -/
structure Taken (s : Ptr) (t : Token) (ts : List Token) : Prop where
  ret : (gettoken s).ret = t.code
  rest : tokens (gettoken s).ps = ts
  suffix : (gettoken s).ps <:+ s
  shorter : (gettoken s).ps.length < s.length
  word : ∀ x, t = .word x → WordAt s (gettoken s).span x

theorem gettoken_nil {s : Ptr} (h : tokens s = []) :
    (gettoken s).ret = nul ∧ (gettoken s).ps = [] := by
  cases front s with
  | nil hq _ =>
    simp only [gettoken, hq, scanToken, dropWhile_nil, and_self]
  | append r _ ht => exact absurd (ht.symm.trans h) nofun
  | symbol c t r _ _ _ ht => exact absurd (ht.symm.trans h) nofun
  | word c r _ _ ht => exact absurd (ht.symm.trans h) nofun

/-- What `gettoken` has read is in front of the rest. -/
theorem suffix_of_scan {s q e x : Ptr} {c : Char} (hq : s.dropWhile isSpace = q)
    (hsplit : q = (c :: x) ++ e) :
    e.dropWhile isSpace <:+ s ∧ (e.dropWhile isSpace).length < s.length := by
  have hqs : q <:+ s := hq ▸ dropWhile_suffix _
  have heq : e <:+ q := ⟨c :: x, hsplit.symm⟩
  have hde : e.dropWhile isSpace <:+ e := dropWhile_suffix _
  refine ⟨hde.trans (heq.trans hqs), ?_⟩
  have hlen := hde.length_le
  have hlenq := hqs.length_le
  rw [hsplit, length_append, length_cons] at hlenq
  omega

theorem gettoken_cons {s : Ptr} {t : Token} {ts : List Token} (h : tokens s = t :: ts) :
    Taken s t ts := by
  cases front s with
  | nil _ ht => exact absurd (ht.symm.trans h) nofun
  | append r hq ht =>
    obtain ⟨rfl, rfl⟩ := List.cons.inj (ht.symm.trans h)
    have hscan : scanToken (s.dropWhile isSpace) = ('+', r) := by rw [hq]; rfl
    obtain ⟨hsuffix, hshorter⟩ := suffix_of_scan (x := ['>']) hq rfl
    refine ⟨?_, ?_, ?_, ?_, nofun⟩ <;> simp only [gettoken, hscan]
    · rfl
    · exact tokens_dropWhile r
    · exact hsuffix
    · exact hshorter
  | symbol c t' r hq hc hne ht =>
    obtain ⟨rfl, rfl⟩ := List.cons.inj (ht.symm.trans h)
    have hscan : scanToken (s.dropWhile isSpace) = (c, r) := by rw [hq, scanToken_symbol hc hne]
    obtain ⟨-, -, hcode, hword⟩ := symbol_of_symbolToken hc
    obtain ⟨hsuffix, hshorter⟩ := suffix_of_scan (x := []) hq rfl
    refine ⟨?_, ?_, ?_, ?_, fun x hx => absurd hx (hword x)⟩ <;> simp only [gettoken, hscan]
    · exact hcode.symm
    · exact tokens_dropWhile r
    · exact hsuffix
    · exact hshorter
  | word c r hq hc ht =>
    obtain ⟨rfl, rfl⟩ := List.cons.inj (ht.symm.trans h)
    have hscan : scanToken (s.dropWhile isSpace) = ('a', r.dropWhile isWord) := by
      rw [hq, scanToken_word hc]
    have hsplit : c :: r = (c :: r.takeWhile isWord) ++ r.dropWhile isWord := by
      rw [cons_append, takeWhile_append_dropWhile]
    obtain ⟨hsuffix, hshorter⟩ := suffix_of_scan hq hsplit
    refine ⟨?_, ?_, ?_, ?_, fun x hx => ?_⟩
    · simp only [gettoken, hscan]
      rfl
    · simp only [gettoken, hscan]
      exact tokens_dropWhile _
    · simp only [gettoken, hscan]
      exact hsuffix
    · simp only [gettoken, hscan]
      exact hshorter
    · obtain rfl := Token.word.inj hx
      have hspan : (gettoken s).span = ⟨c :: r, r.dropWhile isWord⟩ := by
        simp only [gettoken, Scan.span, hq, scanToken_word hc]
      rw [hspan]
      refine ⟨hq ▸ dropWhile_suffix _, hsplit, ?_, ?_⟩
      · intro d hd
        rcases mem_cons.1 hd with rfl | hd
        · exact hc
        · exact mem_takeWhile_imp hd
      · have hhead := head?_dropWhile_not isWord r
        cases hr : (r.dropWhile isWord).head? with
        | none => rfl
        | some d =>
          rw [hr] at hhead
          simpa using hhead

/-- What `peek` sees. -/
theorem peek_fst {toks : List Char} {s : Ptr} (htoks : ∀ c ∈ toks, isSymbol c) :
    (peek toks s).1 = ((tokens s).head?.bind Token.symbol).any toks.contains := by
  have hword {c : Char} (hc : isWord c) : toks.contains c = false := by
    refine eq_false_of_ne_true fun hmem => ?_
    have := htoks c (by simpa using hmem)
    simp only [isWord, this, Bool.not_true, Bool.and_false, Bool.false_eq_true] at hc
  cases front s with
  | nil hq ht => simp only [peek, hq, ht, head?_nil, bind_none, any_none]
  | append r hq ht =>
    simp only [peek, hq, ht, head?_cons, bind_some, Token.symbol, any_some]
  | symbol c t r hq hc _ ht =>
    simp only [peek, hq, ht, head?_cons, bind_some, (symbol_of_symbolToken hc).2.1, any_some]
  | word c r hq hc ht =>
    simp only [peek, hq, ht, head?_cons, bind_some, Token.symbol, any_none, any_some, hword hc]

theorem tokens_peek (toks : List Char) (s : Ptr) : tokens (peek toks s).2 = tokens s :=
  tokens_dropWhile s

theorem peek_suffix (toks : List Char) (s : Ptr) : (peek toks s).2 <:+ s :=
  dropWhile_suffix _

/-- `peek` reaches the end of the line exactly when no token is left. -/
theorem peek_snd_eq_nil {toks : List Char} {s : Ptr} : (peek toks s).2 = [] ↔ tokens s = [] := by
  show s.dropWhile isSpace = [] ↔ tokens s = []
  cases front s with
  | nil hq ht => simp only [hq, ht]
  | append r hq ht => simp [hq, ht]
  | symbol c t r hq _ _ ht => simp [hq, ht]
  | word c r hq _ ht => simp [hq, ht]

end FogOS.Shell
