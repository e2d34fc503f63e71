import FogOS.Shell.Loops

/-!
# The parser accepts its grammar

What `parseline` and the functions below it return is derived by the tokens that they have read;
where the tokens derive a tree and what follows cannot be part of it, they return that tree. With
fuel of four calls for each character they never run out.
-/

namespace FogOS.Shell

open List Nat List Token

/-- A function of the parser has read tokens that derive its result. -/
def Reads (x : Symbol) (s : Ptr) (cmd : Cmd Span) (s' : Ptr) : Prop :=
  ∃ ts c, tokens s = ts ++ tokens s' ∧ Derives x ts c ∧ cmd.Rel (WordAt s) c ∧ s' <:+ s

section Peek

variable {s : Ptr}

/-- `peek` for one symbol. -/
theorem peek_one {c : Char} {t : Token} (hc : isSymbol c) (ht : ∀ u : Token, u.symbol = some c ↔ u = t)
    (s : Ptr) : ∃ s₁, peek [c] s = (decide ((tokens s).head? = some t), s₁) ∧ tokens s₁ = tokens s ∧
      s₁ <:+ s := by
  refine peek_spec (by rw [all_cons, hc]; rfl) ?_
  cases h : (tokens s).head? with
  | none => rfl
  | some u =>
    by_cases hu : u = t
    · subst hu
      simp [(ht u).2 rfl]
    · have hsymbol : u.symbol ≠ some c := fun h => hu ((ht u).1 h)
      cases hs : u.symbol with
      | none => simp [hs, hu]
      | some d =>
        have hd : d ≠ c := fun h => hsymbol (hs.trans (congrArg some h))
        simp [hs, hu, hd]

theorem peek_semi (s : Ptr) : ∃ s₁, peek [';'] s = (decide ((tokens s).head? = some .semi), s₁) ∧
    tokens s₁ = tokens s ∧ s₁ <:+ s :=
  peek_one rfl (fun u => by cases u <;> simp [symbol]) s

theorem peek_bar (s : Ptr) : ∃ s₁, peek ['|'] s = (decide ((tokens s).head? = some .bar), s₁) ∧
    tokens s₁ = tokens s ∧ s₁ <:+ s :=
  peek_one rfl (fun u => by cases u <;> simp [symbol]) s

theorem peek_lparen (s : Ptr) : ∃ s₁, peek ['('] s = (decide ((tokens s).head? = some .lparen), s₁) ∧
    tokens s₁ = tokens s ∧ s₁ <:+ s :=
  peek_one rfl (fun u => by cases u <;> simp [symbol]) s

theorem peek_rparen (s : Ptr) : ∃ s₁, peek [')'] s = (decide ((tokens s).head? = some .rparen), s₁) ∧
    tokens s₁ = tokens s ∧ s₁ <:+ s :=
  peek_one rfl (fun u => by cases u <;> simp [symbol]) s

end Peek

theorem Cmd.Rel.wordAt {s s₁ : Ptr} {cmd : Cmd Span} {c : Cmd Word} (h : cmd.Rel (WordAt s₁) c)
    (hs : s₁ <:+ s) : cmd.Rel (WordAt s) c :=
  h.mono fun _ _ hw => hw.mono hs

/-- The result of a function of the parser: a tree that the tokens read derive, a panic, or too
little fuel. -/
def Outcome (x : Symbol) (n k : Nat) (s : Ptr) : Except Stop (Cmd Span × Ptr) → Prop
  | .ok (cmd, s') => Reads x s cmd s'
  | .error (.panic _) => True
  | .error .fuel => n < 4 * s.length + k

section Sound

variable {n m k l : Nat} {x y : Symbol} {s s' : Ptr} {e : Stop}

/-- An error of a function is an error of its caller. -/
theorem Outcome.error (h : Outcome x n k s (.error e))
    (hfuel : n < 4 * s.length + k → m < 4 * s'.length + l) : Outcome y m l s' (.error e) := by
  cases e with
  | panic p => trivial
  | fuel => exact hfuel h

theorem outcome_of_ne_fuel (h : e ≠ .fuel) : Outcome x n k s (.error e) := by
  cases e with
  | panic p => trivial
  | fuel => exact absurd rfl h

theorem parseline_outcome (hpipe : ∀ s, Outcome .pipe n 3 s (parsepipe n s))
    (hline : ∀ s, Outcome .line n 4 s (parseline n s)) :
    Outcome .line (n + 1) 4 s (parseline (n + 1) s) := by
  have hleft := hpipe s
  rw [parseline]
  cases hcmd : parsepipe n s with
  | error e =>
    rw [hcmd] at hleft
    exact hleft.error (by omega)
  | ok r =>
    obtain ⟨cmd, s₁⟩ := r
    rw [hcmd] at hleft
    obtain ⟨ts, c, hts, hc, hrel, hs₁⟩ := hleft
    obtain ⟨m, s₂, heq, hm, hs₂, -⟩ := parsebacks_spec cmd (lt_succ_self s₁.length)
    obtain ⟨s₃, hpeek, htok, hs₃⟩ := peek_semi s₂
    simp only [heq, hpeek]
    have hs : s₃ <:+ s := hs₃.trans (hs₂.trans hs₁)
    by_cases hsemi : (tokens s₂).head? = some .semi
    · obtain ⟨us, hus⟩ := head?_eq_some_iff.1 hsemi
      have htaken := gettoken_cons (htok.trans hus)
      have hshorter := htaken.shorter
      have hlen := hs.length_le
      have hright := hline (gettoken s₃).ps
      simp only [hsemi, decide_true]
      cases hd : parseline n (gettoken s₃).ps with
      | error e =>
        rw [hd] at hright
        exact hright.error (by omega)
      | ok r =>
        rw [hd] at hright
        obtain ⟨vs, d, hvs, hd, hreld, hs₄⟩ := hright
        have hps : (gettoken s₃).ps <:+ s := htaken.suffix.trans hs
        refine ⟨ts ++ replicate m .amp ++ .semi :: vs, _, ?_, .seq m hc hd,
          .list (hrel.backs m) (hreld.wordAt hps), hs₄.trans hps⟩
        rw [hts, hm, hus, ← htaken.rest, hvs]
        simp only [append_assoc, cons_append]
    · simp only [hsemi, decide_false]
      refine ⟨ts ++ replicate m .amp, _, ?_, .line m hc, hrel.backs m, hs⟩
      rw [hts, hm, htok, append_assoc]

theorem parsepipe_outcome (hexec : ∀ s, Outcome .exec n 2 s (parseexec n s))
    (hpipe : ∀ s, Outcome .pipe n 3 s (parsepipe n s)) :
    Outcome .pipe (n + 1) 3 s (parsepipe (n + 1) s) := by
  have hleft := hexec s
  rw [parsepipe]
  cases hcmd : parseexec n s with
  | error e =>
    rw [hcmd] at hleft
    exact hleft.error (by omega)
  | ok r =>
    obtain ⟨cmd, s₁⟩ := r
    rw [hcmd] at hleft
    obtain ⟨ts, c, hts, hc, hrel, hs₁⟩ := hleft
    obtain ⟨s₂, hpeek, htok, hs₂⟩ := peek_bar s₁
    simp only [hpeek]
    have hs : s₂ <:+ s := hs₂.trans hs₁
    by_cases hbar : (tokens s₁).head? = some .bar
    · obtain ⟨us, hus⟩ := head?_eq_some_iff.1 hbar
      have htaken := gettoken_cons (htok.trans hus)
      have hshorter := htaken.shorter
      have hlen := hs.length_le
      have hright := hpipe (gettoken s₂).ps
      simp only [hbar, decide_true]
      cases hd : parsepipe n (gettoken s₂).ps with
      | error e =>
        rw [hd] at hright
        exact hright.error (by omega)
      | ok r =>
        rw [hd] at hright
        obtain ⟨vs, d, hvs, hd, hreld, hs₃⟩ := hright
        have hps : (gettoken s₂).ps <:+ s := htaken.suffix.trans hs
        refine ⟨ts ++ .bar :: vs, _, ?_, .pipe hc hd, .pipe hrel (hreld.wordAt hps), hs₃.trans hps⟩
        rw [hts, hus, ← htaken.rest, hvs]
        simp only [append_assoc, cons_append]
    · simp only [hbar, decide_false]
      refine ⟨ts, c, ?_, .single hc, hrel, hs⟩
      rw [hts, htok]

theorem parseblock_outcome (hline : ∀ s, Outcome .line n 4 s (parseline n s)) :
    Outcome .exec (n + 1) 1 s (parseblock (n + 1) s) := by
  obtain ⟨s₁, hpeek, htok, hs₁⟩ := peek_lparen s
  rw [parseblock, hpeek]
  by_cases hparen : (tokens s).head? = some .lparen
  · obtain ⟨us, hus⟩ := head?_eq_some_iff.1 hparen
    have htaken := gettoken_cons (htok.trans hus)
    have hshorter := htaken.shorter
    have hlen := hs₁.length_le
    have hinner := hline (gettoken s₁).ps
    simp only [hparen, decide_true]
    cases hcmd : parseline n (gettoken s₁).ps with
    | error e =>
      rw [hcmd] at hinner
      exact hinner.error (by omega)
    | ok r =>
      obtain ⟨cmd, s₂⟩ := r
      rw [hcmd] at hinner
      obtain ⟨ts, c, hts, hc, hrel, hs₂⟩ := hinner
      obtain ⟨s₃, hpeek', htok', hs₃⟩ := peek_rparen s₂
      simp only [hpeek']
      by_cases hclose : (tokens s₂).head? = some .rparen
      · obtain ⟨vs, hvs⟩ := head?_eq_some_iff.1 hclose
        have htaken' := gettoken_cons (htok'.trans hvs)
        simp only [hclose, decide_true]
        cases hredirs : parseredirs ((gettoken s₃).ps.length + 1) (gettoken s₃).ps with
        | error e =>
          refine outcome_of_ne_fuel fun he => ?_
          subst he
          exact parseredirs_total (lt_succ_self _) hredirs
        | ok r =>
          obtain ⟨gs, hgs, hrels, hs₄, -⟩ := parseredirs_sound hredirs
          have hps : (gettoken s₁).ps <:+ s := htaken.suffix.trans hs₁
          have hps' : (gettoken s₃).ps <:+ s :=
            htaken'.suffix.trans (hs₃.trans (hs₂.trans hps))
          refine ⟨_, _, ?_, .block hc gs, ?_, hs₄.trans hps'⟩
          · rw [hus, ← htaken.rest, hts, hvs, ← htaken'.rest, hgs]
            simp only [append_assoc, cons_append]
          · exact (hrel.wordAt hps).redircmds
              (hrels.imp fun _ _ h => h.mono fun _ _ h => h.mono hps')
      · simp only [hclose, decide_false]
        trivial
  · simp only [hparen, decide_false]
    trivial

theorem parseexec_outcome (hblock : ∀ s, Outcome .exec n 1 s (parseblock n s)) :
    Outcome .exec (n + 1) 2 s (parseexec (n + 1) s) := by
  obtain ⟨s₁, hpeek, htok, hs₁⟩ := peek_lparen s
  have hlen := hs₁.length_le
  rw [parseexec, hpeek]
  by_cases hparen : (tokens s).head? = some .lparen
  · have hinner := hblock s₁
    simp only [hparen, decide_true]
    cases hcmd : parseblock n s₁ with
    | error e =>
      rw [hcmd] at hinner
      exact hinner.error (by omega)
    | ok r =>
      rw [hcmd] at hinner
      obtain ⟨ts, c, hts, hc, hrel, hs'⟩ := hinner
      exact ⟨ts, c, htok ▸ hts, hc, hrel.wordAt hs₁, hs'.trans hs₁⟩
  · simp only [hparen, decide_false]
    cases hredirs : parseredirs (s₁.length + 1) s₁ with
    | error e =>
      refine outcome_of_ne_fuel fun he => ?_
      subst he
      exact parseredirs_total (lt_succ_self _) hredirs
    | ok r =>
      obtain ⟨rs, s₂⟩ := r
      obtain ⟨gs, hgs, hrs, hs₂, -⟩ := parseredirs_sound hredirs
      simp only
      cases hargs : parseargs (s₂.length + 1) [] rs s₂ with
      | error e =>
        refine outcome_of_ne_fuel fun he => ?_
        subst he
        exact parseargs_total (lt_succ_self _) hargs
      | ok r =>
        obtain ⟨argv, rs', s₃⟩ := r
        obtain ⟨args, ws, qs, htok', rfl, rfl, hws, hqs, hcount, hs₃⟩ :=
          parseargs_sound hargs (zero_le 9)
        have hs : s₂ <:+ s := hs₂.trans hs₁
        have hargs : args.length ≤ 9 := by
          have := hws.length_eq
          simp only [length_map] at hcount this
          omega
        refine ⟨_, _, ?_, .simple gs args hargs, ?_, hs₃.trans hs⟩
        · rw [← htok, hgs, htok', append_assoc]
        · refine Cmd.Rel.redircmds (.exec (hws.imp fun _ _ h => h.mono hs)) ?_
          rw [map_append]
          exact rel_append (hrs.imp fun _ _ h => h.mono fun _ _ h => h.mono hs₁)
            (hqs.imp fun _ _ h => h.mono fun _ _ h => h.mono hs)

/-- The results of the functions of the parser, by induction on the fuel. -/
theorem parse_outcome (n : Nat) :
    (∀ s, Outcome .line n 4 s (parseline n s)) ∧ (∀ s, Outcome .pipe n 3 s (parsepipe n s)) ∧
      (∀ s, Outcome .exec n 1 s (parseblock n s)) ∧
      ∀ s, Outcome .exec n 2 s (parseexec n s) := by
  induction n with
  | zero =>
    refine ⟨fun s => ?_, fun s => ?_, fun s => ?_, fun s => ?_⟩ <;> exact succ_pos _
  | succ n ih =>
    obtain ⟨hline, hpipe, hblock, hexec⟩ := ih
    exact ⟨fun _ => parseline_outcome hpipe hline, fun _ => parsepipe_outcome hexec hpipe,
      fun _ => parseblock_outcome hline, fun _ => parseexec_outcome hblock⟩

end Sound

section Complete

/-- The function for a symbol of the grammar, and the fuel that it takes for itself. -/
def parse : Symbol → Nat → Ptr → Except Stop (Cmd Span × Ptr)
  | .line => parseline
  | .pipe => parsepipe
  | .exec => parseexec

def need : Symbol → Nat
  | .line => 4
  | .pipe => 3
  | .exec => 2

/-- The tokens that can follow. -/
def follows : Symbol → Token → Bool
  | .line, .rparen => true
  | .line, _ => false
  | .pipe, .rparen | .pipe, .amp | .pipe, .semi => true
  | .pipe, _ => false
  | .exec, t => t.endsExec

/-- `parse` returns the tree. -/
def Parses (x : Symbol) (n : Nat) (s : Ptr) (ts : List Token) (c : Cmd Word) : Prop :=
  ∃ cmd s', parse x n s = .ok (cmd, s') ∧ tokens s' = ts ∧ s' <:+ s ∧ cmd.Rel (WordAt s) c

theorem replicate_append_inj {α : Type} {a : α} {m n : Nat} {xs ys : List α}
    (h : replicate m a ++ xs = replicate n a ++ ys) (hx : xs.head? ≠ some a)
    (hy : ys.head? ≠ some a) : m = n ∧ xs = ys := by
  induction m generalizing n with
  | zero =>
    cases n with
    | zero => exact ⟨rfl, h⟩
    | succ n =>
      rw [replicate_zero, nil_append] at h
      exact absurd (by rw [h]; rfl) hx
  | succ m ih =>
    cases n with
    | zero =>
      rw [replicate_zero, nil_append] at h
      exact absurd (by rw [← h]; rfl) hy
    | succ n =>
      obtain ⟨rfl, hxs⟩ := ih (cons.inj h).2
      exact ⟨rfl, hxs⟩

theorem head_all_append {p : Token → Bool} {ts us : List Token} (hts : ts.head?.all p)
    (hus : us.head?.all p) : (ts ++ us).head?.all p := by
  cases ts with
  | nil => exact hus
  | cons t ts => exact hts

theorem all_mono {p q : Token → Bool} {o : Option Token} (h : o.all p)
    (hpq : ∀ t, p t = true → q t = true) : o.all q := by
  cases o with
  | none => rfl
  | some t => exact hpq t h

/-- The part of a line before `;`. -/
theorem parseline_left {n m : Nat} {s : Ptr} {c : Cmd Word} {us : List Token}
    (h : Parses .pipe n s (replicate m .amp ++ us) c) (hus : us.head? ≠ some .amp) :
    ∃ cmd s₁, parseline (n + 1) s = (if us.head? = some .semi then
          match parseline n (gettoken s₁).ps with
          | .error e => .error e
          | .ok (right, s') => .ok (.list cmd right, s')
        else .ok (cmd, s₁)) ∧
      tokens s₁ = us ∧ s₁ <:+ s ∧ cmd.Rel (WordAt s) (backs m c) := by
  obtain ⟨cmd, s₁, hcmd, htok, hs₁, hrel⟩ := h
  obtain ⟨m', s₂, heq, hm, hs₂, hhead⟩ := parsebacks_spec cmd (lt_succ_self s₁.length)
  obtain ⟨rfl, htok₂⟩ := replicate_append_inj (htok.symm.trans hm) hus hhead
  obtain ⟨s₃, hpeek, htok₃, hs₃⟩ := peek_semi s₂
  refine ⟨backs m cmd, s₃, ?_, htok₃.trans htok₂.symm, hs₃.trans (hs₂.trans hs₁), hrel.backs m⟩
  have hcmd' : parsepipe n s = .ok (cmd, s₁) := hcmd
  rw [parseline, hcmd']
  simp only [heq, hpeek, ← htok₂]
  by_cases hsemi : us.head? = some .semi
  · rw [decide_eq_true hsemi]
    exact (if_pos hsemi).symm
  · simp only [hsemi, decide_false, if_false]

/-- The part of a pipeline before `|`. -/
theorem parsepipe_left {n : Nat} {s : Ptr} {c : Cmd Word} {us : List Token}
    (h : Parses .exec n s us c) :
    ∃ cmd s₁, parsepipe (n + 1) s = (if us.head? = some .bar then
          match parsepipe n (gettoken s₁).ps with
          | .error e => .error e
          | .ok (right, s') => .ok (.pipe cmd right, s')
        else .ok (cmd, s₁)) ∧
      tokens s₁ = us ∧ s₁ <:+ s ∧ cmd.Rel (WordAt s) c := by
  obtain ⟨cmd, s₁, hcmd, htok, hs₁, hrel⟩ := h
  obtain ⟨s₂, hpeek, htok₂, hs₂⟩ := peek_bar s₁
  refine ⟨cmd, s₂, ?_, htok₂.trans htok, hs₂.trans hs₁, hrel⟩
  have hcmd' : parseexec n s = .ok (cmd, s₁) := hcmd
  rw [parsepipe, hcmd']
  simp only [hpeek, htok]
  by_cases hbar : us.head? = some .bar
  · rw [decide_eq_true hbar]
    exact (if_pos hbar).symm
  · simp only [hbar, decide_false, if_false]

theorem parse_complete {x : Symbol} {ts : List Token} {c : Cmd Word} (h : Derives x ts c) :
    ∀ (n : Nat) (s : Ptr) (us : List Token), tokens s = ts ++ us → us.head?.all (follows x) →
      4 * s.length + need x ≤ n → Parses x n s us c := by
  induction h with
  | @line ts c m h ih =>
    intro n s us htok hus hn
    obtain ⟨n, rfl⟩ : ∃ k, n = k + 1 := ⟨n - 1, by simp only [need] at hn; omega⟩
    rw [append_assoc] at htok
    have hfollow : (replicate m amp ++ us).head?.all (follows .pipe) := by
      refine head_all_append ?_ (all_mono hus fun t ht => ?_)
      · cases m <;> rfl
      · cases t <;> first | rfl | cases ht
    have hleft := ih n s _ htok hfollow (by simp only [need] at hn ⊢; omega)
    have hamp : us.head? ≠ some .amp := fun h => by rw [h] at hus; cases hus
    have hsemi : us.head? ≠ some .semi := fun h => by rw [h] at hus; cases hus
    obtain ⟨cmd, s₁, heq, htok₁, hs₁, hrel⟩ := parseline_left hleft hamp
    rw [if_neg hsemi] at heq
    exact ⟨cmd, s₁, heq, htok₁, hs₁, hrel⟩
  | @seq ts us c d m h hr ih ihr =>
    intro n s vs htok hvs hn
    obtain ⟨n, rfl⟩ : ∃ k, n = k + 1 := ⟨n - 1, by simp only [need] at hn; omega⟩
    rw [append_assoc, append_assoc] at htok
    have hfollow : (replicate m amp ++ (semi :: us ++ vs)).head?.all (follows .pipe) := by
      cases m <;> rfl
    have hleft := ih n s _ htok hfollow (by simp only [need] at hn ⊢; omega)
    obtain ⟨cmd, s₁, heq, htok₁, hs₁, hrel⟩ := parseline_left hleft nofun
    have htaken := gettoken_cons htok₁
    have hshorter := htaken.shorter
    have hlen := hs₁.length_le
    obtain ⟨right, s₂, hright, htok₂, hs₂, hrel₂⟩ :=
      ihr n (gettoken s₁).ps vs htaken.rest hvs (by simp only [need] at hn ⊢; omega)
    have hps : (gettoken s₁).ps <:+ s := htaken.suffix.trans hs₁
    have hright' : parseline n (gettoken s₁).ps = .ok (right, s₂) := hright
    rw [cons_append, head?_cons, if_pos rfl, hright'] at heq
    exact ⟨_, s₂, heq, htok₂, hs₂.trans hps, .list hrel (hrel₂.wordAt hps)⟩
  | @single ts c h ih =>
    intro n s us htok hus hn
    obtain ⟨n, rfl⟩ : ∃ k, n = k + 1 := ⟨n - 1, by simp only [need] at hn; omega⟩
    have hfollow : us.head?.all (follows .exec) := by
      refine all_mono hus fun t ht => ?_
      cases t <;> first | rfl | cases ht
    have hbar : us.head? ≠ some .bar := fun h => by rw [h] at hus; cases hus
    obtain ⟨cmd, s₁, heq, htok₁, hs₁, hrel⟩ :=
      parsepipe_left (ih n s us htok hfollow (by simp only [need] at hn ⊢; omega))
    rw [if_neg hbar] at heq
    exact ⟨cmd, s₁, heq, htok₁, hs₁, hrel⟩
  | @pipe ts us c d h hr ih ihr =>
    intro n s vs htok hvs hn
    obtain ⟨n, rfl⟩ : ∃ k, n = k + 1 := ⟨n - 1, by simp only [need] at hn; omega⟩
    rw [append_assoc] at htok
    obtain ⟨cmd, s₁, heq, htok₁, hs₁, hrel⟩ :=
      parsepipe_left (ih n s _ htok rfl (by simp only [need] at hn ⊢; omega))
    have htaken := gettoken_cons htok₁
    have hshorter := htaken.shorter
    have hlen := hs₁.length_le
    obtain ⟨right, s₂, hright, htok₂, hs₂, hrel₂⟩ :=
      ihr n (gettoken s₁).ps vs htaken.rest hvs (by simp only [need] at hn ⊢; omega)
    have hps : (gettoken s₁).ps <:+ s := htaken.suffix.trans hs₁
    have hright' : parsepipe n (gettoken s₁).ps = .ok (right, s₂) := hright
    rw [cons_append, head?_cons, if_pos rfl, hright'] at heq
    exact ⟨_, s₂, heq, htok₂, hs₂.trans hps, .pipe hrel (hrel₂.wordAt hps)⟩
  | @block ts c h rs ih =>
    intro n s us htok hus hn
    obtain ⟨n, rfl⟩ : ∃ k, n = k + 1 + 1 := ⟨n - 2, by simp only [need] at hn; omega⟩
    rw [append_assoc, cons_append, cons_append] at htok
    obtain ⟨s₁, hpeek, htok₁, hs₁⟩ := peek_lparen s
    obtain ⟨s₂, hpeek₂, htok₂, hs₂⟩ := peek_lparen s₁
    have htaken := gettoken_cons (htok₂.trans (htok₁.trans htok))
    have hshorter := htaken.shorter
    have hlen := (hs₂.trans hs₁).length_le
    obtain ⟨cmd, s₃, hcmd, htok₃, hs₃, hrel⟩ :=
      ih n (gettoken s₂).ps _ htaken.rest rfl (by simp only [need] at hn ⊢; omega)
    obtain ⟨s₄, hpeek₄, htok₄, hs₄⟩ := peek_rparen s₃
    have htaken₄ := gettoken_cons (htok₄.trans htok₃)
    have hredir : us.head?.all fun t => !t.isRedir := by
      refine all_mono hus fun t ht => ?_
      cases t <;> first | rfl | cases ht
    obtain ⟨qs, s₅, hredirs, htok₅, hs₅, hqs⟩ :=
      parseredirs_complete (lt_succ_self _) htaken₄.rest hredir
    have hps : (gettoken s₂).ps <:+ s := htaken.suffix.trans (hs₂.trans hs₁)
    have hps' : (gettoken s₄).ps <:+ s := htaken₄.suffix.trans (hs₄.trans (hs₃.trans hps))
    refine ⟨redircmds cmd qs, s₅, ?_, htok₅, hs₅.trans hps', ?_⟩
    · have hcmd' : parseline n (gettoken s₂).ps = .ok (cmd, s₃) := hcmd
      simp only [parse, parseexec, hpeek, htok, head?_cons, decide_true, parseblock, hpeek₂,
        htok₁, hcmd', hpeek₄, htok₃, hredirs]
    · exact (hrel.wordAt hps).redircmds
        (hqs.imp fun _ _ h => h.mono fun _ _ h => h.mono hps')
  | simple rs args hargs =>
    intro n s us htok hus hn
    obtain ⟨n, rfl⟩ : ∃ k, n = k + 1 := ⟨n - 1, by simp only [need] at hn; omega⟩
    rw [append_assoc] at htok
    obtain ⟨s₁, hpeek, htok₁, hs₁⟩ := peek_lparen s
    have hend : us.head?.all endsExec := hus
    have hnext : (args.flatMap Arg.tokens ++ us).head?.all fun t => !t.isRedir := by
      refine head_all_append ?_ (all_mono hend fun t ht => ?_)
      · cases args <;> rfl
      · cases t <;> first | rfl | cases ht
    have hparen : (tokens s).head? ≠ some .lparen := by
      rw [htok]
      cases rs with
      | nil =>
        cases args with
        | nil =>
          intro h
          rw [redirTokens, flatMap_nil, flatMap_nil, nil_append, nil_append] at h
          rw [h] at hend
          cases hend
        | cons a args => nofun
      | cons r rs =>
        obtain ⟨op, w⟩ := r
        cases op <;> nofun
    obtain ⟨qs, s₂, hredirs, htok₂, hs₂, hqs⟩ :=
      parseredirs_complete (lt_succ_self s₁.length) (htok₁.trans htok) hnext
    obtain ⟨ws, qs', s₃, hparse, htok₃, hs₃, hws, hqs'⟩ :=
      parseargs_complete [] qs (lt_succ_self s₂.length) htok₂ hend (by simpa using hargs)
    have hs : s₂ <:+ s := hs₂.trans hs₁
    refine ⟨redircmds (.exec ws) (qs ++ qs'), s₃, ?_, htok₃, hs₃.trans hs, ?_⟩
    · simp only [parse, parseexec, hpeek, hparen, decide_false, hredirs, hparse,
        nil_append]
    · refine Cmd.Rel.redircmds (.exec (hws.imp fun _ _ h => h.mono hs)) ?_
      rw [map_append]
      exact rel_append (hqs.imp fun _ _ h => h.mono fun _ _ h => h.mono hs₁)
        (hqs'.imp fun _ _ h => h.mono fun _ _ h => h.mono hs)

end Complete

end FogOS.Shell
