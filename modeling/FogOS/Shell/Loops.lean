import FogOS.Shell.Grammar

/-!
# The loops of the parser

What `parseredirs`, the loop over arguments of `parseexec` and the loop over `&` of `parseline` read
and return, in terms of the tokens of the line. Fuel above the length of the line is enough.
-/

namespace FogOS.Shell

open List Option Nat Token

section Rel

variable {V W : Type} {R Q : V → W → Prop}

def Redir.Rel (R : V → W → Prop) (r : Redir V) (r' : Redir W) : Prop :=
  R r.file r'.file ∧ r.mode = r'.mode ∧ r.fd = r'.fd

/-- Trees that differ in their words only. -/
inductive Cmd.Rel (R : V → W → Prop) : Cmd V → Cmd W → Prop
  | exec {argv : List V} {ws : List W} (h : List.Forall₂ R argv ws) : Rel R (.exec argv) (.exec ws)
  | redir {c : Cmd V} {d : Cmd W} {r : Redir V} {r' : Redir W} (h : Rel R c d) (hr : r.Rel R r') :
      Rel R (.redir c r) (.redir d r')
  | pipe {a b : Cmd V} {c d : Cmd W} (ha : Rel R a c) (hb : Rel R b d) :
      Rel R (.pipe a b) (.pipe c d)
  | list {a b : Cmd V} {c d : Cmd W} (ha : Rel R a c) (hb : Rel R b d) :
      Rel R (.list a b) (.list c d)
  | back {c : Cmd V} {d : Cmd W} (h : Rel R c d) : Rel R (.back c) (.back d)

theorem Redir.Rel.mono {r : Redir V} {r' : Redir W} (h : r.Rel R r') (hRQ : ∀ v w, R v w → Q v w) :
    r.Rel Q r' :=
  ⟨hRQ _ _ h.1, h.2⟩

variable {c : Cmd V} {d : Cmd W}

theorem Cmd.Rel.mono (h : c.Rel R d) (hRQ : ∀ v w, R v w → Q v w) : c.Rel Q d := by
  induction h with
  | exec h => exact .exec (h.imp hRQ)
  | redir _ hr ih => exact .redir ih (hr.mono hRQ)
  | pipe _ _ iha ihb => exact .pipe iha ihb
  | list _ _ iha ihb => exact .list iha ihb
  | back _ ih => exact .back ih

theorem Cmd.Rel.redircmds {rs : List (Redir V)} {rs' : List (Redir W)} (h : c.Rel R d)
    (hrs : List.Forall₂ (Redir.Rel R) rs rs') : (redircmds c rs).Rel R (redircmds d rs') := by
  induction hrs generalizing c d with
  | nil => exact h
  | cons hr _ ih => exact ih (.redir h hr)

theorem Cmd.Rel.backs (h : c.Rel R d) (n : Nat) : (backs n c).Rel R (backs n d) := by
  induction n generalizing c d with
  | zero => exact h
  | succ n ih => exact ih (.back h)

end Rel

/-- `peek` looks at the first token. -/
theorem peek_spec {toks : List Char} (htoks : toks.all isSymbol) {s : Ptr} {b : Bool}
    (hb : ((tokens s).head?.bind symbol).any toks.contains = b) :
    ∃ s₁, peek toks s = (b, s₁) ∧ tokens s₁ = tokens s ∧ s₁ <:+ s :=
  ⟨(peek toks s).2, Prod.ext ((peek_fst (all_eq_true.mp htoks)).trans hb) rfl, tokens_peek toks s,
    peek_suffix toks s⟩

/-- The tokens of the operators of redirections. -/
def Token.isRedir : Token → Bool
  | .lt | .gt | .append => true
  | _ => false

theorem isRedir_iff {t : Token} : t.isRedir ↔ ∃ op : RedirOp, t = op.token := by
  constructor
  · intro h
    cases t with
    | lt => exact ⟨.input, rfl⟩
    | gt => exact ⟨.output, rfl⟩
    | append => exact ⟨.append, rfl⟩
    | _ => cases h
  · rintro ⟨op, rfl⟩
    cases op <;> rfl

theorem redirOf_code (op : RedirOp) (w : Span) : redirOf op.token.code w = [op.redir w] := by
  cases op <;> rfl

variable {ts : List Token}

section Redirs

variable {n : Nat} {s s' : Ptr} {rs : List (Redir Span)}

theorem peek_redir {t : Token} (h : tokens s = t :: ts) :
    ∃ s₁, peek ['<', '>'] s = (t.isRedir, s₁) ∧ tokens s₁ = t :: ts ∧ s₁ <:+ s := by
  rw [← h]
  refine peek_spec (by decide) ?_
  rw [h]
  cases t <;> rfl

theorem peek_redir_nil (h : tokens s = []) :
    ∃ s₁, peek ['<', '>'] s = (false, s₁) ∧ tokens s₁ = [] ∧ s₁ <:+ s := by
  rw [← h]
  refine peek_spec (by decide) ?_
  rw [h]
  rfl

/-- One redirection: `parseredirs` reads the operator and the file. -/
theorem parseredirs_cons {op : RedirOp} {x : Word} (h : tokens s = op.token :: .word x :: ts) :
    ∃ w s₁, parseredirs (n + 1) s = (match parseredirs n s₁ with
          | .error e => .error e
          | .ok (rs, s') => .ok (op.redir w :: rs, s')) ∧
      WordAt s w x ∧ tokens s₁ = ts ∧ s₁ <:+ s ∧ s₁.length < s.length := by
  obtain ⟨s₀, hpeek, htokens, hsuffix⟩ := peek_redir h
  rw [isRedir_iff.2 ⟨op, rfl⟩] at hpeek
  have hop := gettoken_cons htokens
  have hfile := gettoken_cons hop.rest
  refine ⟨(gettoken (gettoken s₀).ps).span, (gettoken (gettoken s₀).ps).ps, ?_, ?_, hfile.rest, ?_,
    ?_⟩
  · rw [parseredirs, hpeek]
    simp only [hfile.ret, hop.ret, redirOf_code]
    rfl
  · exact (hfile.word x rfl).mono (hop.suffix.trans hsuffix)
  · exact (hfile.suffix.trans hop.suffix).trans hsuffix
  · have := hfile.shorter
    have := hop.shorter
    have := hsuffix.length_le
    omega

/-- No redirection: `parseredirs` stops. -/
theorem parseredirs_stop (h : (tokens s).head?.all fun t => !t.isRedir) :
    ∃ s₁, parseredirs (n + 1) s = .ok ([], s₁) ∧ tokens s₁ = tokens s ∧ s₁ <:+ s := by
  cases ht : tokens s with
  | nil =>
    obtain ⟨s₁, hpeek, htokens, hsuffix⟩ := peek_redir_nil ht
    refine ⟨s₁, ?_, htokens, hsuffix⟩
    rw [parseredirs, hpeek]
  | cons t ts =>
    obtain ⟨s₁, hpeek, htokens, hsuffix⟩ := peek_redir ht
    refine ⟨s₁, ?_, htokens, hsuffix⟩
    simp only [ht, head?_cons, all_some, Bool.not_eq_true'] at h
    rw [parseredirs, hpeek, h]

/-- An operator without a file: `parseredirs` panics. -/
theorem parseredirs_missing {op : RedirOp} (h : tokens s = op.token :: ts)
    (hts : ∀ x us, ts ≠ .word x :: us) : parseredirs (n + 1) s = .error (.panic .missingFile) := by
  obtain ⟨s₀, hpeek, htokens, -⟩ := peek_redir h
  rw [isRedir_iff.2 ⟨op, rfl⟩] at hpeek
  have hop := gettoken_cons htokens
  have hfile : (gettoken (gettoken s₀).ps).ret ≠ 'a' := by
    cases ts with
    | nil =>
      rw [(gettoken_nil hop.rest).1]
      decide
    | cons t us =>
      rw [(gettoken_cons hop.rest).ret]
      cases t with
      | word x => exact absurd rfl (hts x us)
      | _ => decide
  rw [parseredirs, hpeek]
  simp only [if_pos hfile]

/-- What there can be in front of `parseredirs`. -/
theorem redir_cases (ts : List Token) :
    (ts.head?.all fun t => !t.isRedir) ∨ (∃ op x us, ts = RedirOp.token op :: .word x :: us) ∨
      ∃ op us, ts = RedirOp.token op :: us ∧ ∀ x vs, us ≠ .word x :: vs := by
  cases ts with
  | nil => exact .inl rfl
  | cons t us =>
    by_cases ht : t.isRedir
    · obtain ⟨op, rfl⟩ := isRedir_iff.1 ht
      refine .inr ?_
      by_cases hus : ∃ x vs, us = .word x :: vs
      · obtain ⟨x, vs, rfl⟩ := hus
        exact .inl ⟨op, x, vs, rfl⟩
      · exact .inr ⟨op, us, rfl, fun x vs h => hus ⟨x, vs, h⟩⟩
    · refine .inl ?_
      simp only [head?_cons, all_some, eq_false_of_ne_true ht, Bool.not_false]

theorem parseredirs_sound (h : parseredirs n s = .ok (rs, s')) :
    ∃ gs : List Redirect, tokens s = redirTokens gs ++ tokens s' ∧
      List.Forall₂ (Redir.Rel (WordAt s)) rs (gs.map Redirect.redir) ∧ s' <:+ s ∧
      (tokens s').head?.all fun t => !t.isRedir := by
  induction n generalizing s rs with
  | zero => cases h
  | succ n ih =>
    rcases redir_cases (tokens s) with hstop | ⟨op, x, us, ht⟩ | ⟨op, us, ht, hus⟩
    · obtain ⟨s₁, heq, htokens, hsuffix⟩ := parseredirs_stop (n := n) hstop
      rw [heq] at h
      cases h
      exact ⟨[], htokens.symm, .nil, hsuffix, htokens ▸ hstop⟩
    · obtain ⟨w, s₁, heq, hword, htokens, hsuffix, -⟩ := parseredirs_cons (n := n) ht
      rw [heq] at h
      split at h
      · cases h
      · rename_i hrest
        cases h
        obtain ⟨gs, hgs, hrel, hsuffix', hstop⟩ := ih hrest
        refine ⟨(op, x) :: gs, ?_, ?_, hsuffix'.trans hsuffix, hstop⟩
        · rw [ht, ← htokens, hgs]
          rfl
        · refine .cons ?_ (hrel.imp fun _ _ hr => hr.mono fun _ _ hw => hw.mono hsuffix)
          cases op <;> exact ⟨hword, rfl, rfl⟩
    · rw [parseredirs_missing ht hus] at h
      cases h

theorem parseredirs_total (hn : s.length < n) : parseredirs n s ≠ .error .fuel := by
  induction n generalizing s with
  | zero => exact absurd hn (not_lt_zero _)
  | succ n ih =>
    rcases redir_cases (tokens s) with hstop | ⟨op, x, us, ht⟩ | ⟨op, us, ht, hus⟩
    · obtain ⟨s₁, heq, -⟩ := parseredirs_stop (n := n) hstop
      rw [heq]
      nofun
    · obtain ⟨w, s₁, heq, -, -, -, hshorter⟩ := parseredirs_cons (n := n) ht
      rw [heq]
      intro h
      split at h
      · rename_i e he
        cases h
        exact ih (by omega) he
      · cases h
    · rw [parseredirs_missing ht hus]
      nofun

theorem parseredirs_complete {gs : List Redirect} (hn : s.length < n)
    (h : tokens s = redirTokens gs ++ ts) (hts : ts.head?.all fun t => !t.isRedir) :
    ∃ rs s', parseredirs n s = .ok (rs, s') ∧ tokens s' = ts ∧ s' <:+ s ∧
      List.Forall₂ (Redir.Rel (WordAt s)) rs (gs.map Redirect.redir) := by
  induction gs generalizing n s with
  | nil =>
    obtain ⟨n, rfl⟩ := Nat.exists_eq_add_of_lt hn
    have hstop : (tokens s).head?.all fun t => !t.isRedir := by rw [h]; exact hts
    obtain ⟨s₁, heq, htokens, hsuffix⟩ := parseredirs_stop (n := s.length + n) hstop
    exact ⟨[], s₁, heq, htokens.trans h, hsuffix, .nil⟩
  | cons g gs ih =>
    obtain ⟨op, x⟩ := g
    obtain ⟨m, rfl⟩ := Nat.exists_eq_add_of_lt hn
    obtain ⟨w, s₁, heq, hword, htokens, hsuffix, hshorter⟩ := parseredirs_cons (n := s.length + m) h
    obtain ⟨rs, s', hrest, hts', hsuffix', hrel⟩ := ih (n := s.length + m) (by omega) htokens
    rw [hrest] at heq
    refine ⟨_, s', heq, hts', hsuffix'.trans hsuffix, .cons ?_ ?_⟩
    · cases op <;> exact ⟨hword, rfl, rfl⟩
    · exact hrel.imp fun _ _ hr => hr.mono fun _ _ hw => hw.mono hsuffix

end Redirs

section Backs

variable {n : Nat} {s : Ptr}

theorem parsebacks_spec (cmd : Cmd Span) (hn : s.length < n) :
    ∃ m s', parsebacks n cmd s = .ok (backs m cmd, s') ∧
      tokens s = List.replicate m .amp ++ tokens s' ∧ s' <:+ s ∧
      (tokens s').head? ≠ some .amp := by
  induction n generalizing s cmd with
  | zero => exact absurd hn (not_lt_zero _)
  | succ n ih =>
    by_cases hamp : (tokens s).head? = some .amp
    · obtain ⟨ts, ht⟩ := head?_eq_some_iff.1 hamp
      obtain ⟨s₁, hpeek, htokens, hsuffix⟩ :=
        @peek_spec ['&'] (by decide) s true (by rw [hamp]; rfl)
      have htaken := gettoken_cons (htokens.trans ht)
      have hlen := hsuffix.length_le
      have hshorter := htaken.shorter
      obtain ⟨m, s', heq, hts, hsuffix', hhead⟩ :=
        ih (s := (gettoken s₁).ps) (.back cmd) (by omega)
      refine ⟨m + 1, s', ?_, ?_, hsuffix'.trans (htaken.suffix.trans hsuffix), hhead⟩
      · rw [parsebacks, hpeek]
        exact heq
      · rw [ht, ← htaken.rest, hts]
        rfl
    · have hno : ((tokens s).head?.bind symbol).any ['&'].contains = false := by
        cases ht : (tokens s).head? with
        | none => rfl
        | some t =>
          rw [ht] at hamp
          cases t <;> first | rfl | exact absurd rfl hamp
      obtain ⟨s₁, hpeek, htokens, hsuffix⟩ := peek_spec (by decide) hno
      refine ⟨0, s₁, ?_, htokens.symm, hsuffix, htokens ▸ hamp⟩
      rw [parsebacks, hpeek]
      rfl

end Backs

/-- The tokens that end the arguments of a command. -/
def Token.endsExec : Token → Bool
  | .bar | .rparen | .amp | .semi => true
  | _ => false

section Args

variable {n : Nat} {s s' : Ptr} {argv argv' : List Span} {rs rs' : List (Redir Span)}

theorem peek_ends (ts : List Token) (h : tokens s = ts) :
    ∃ s₁, peek ['|', ')', '&', ';'] s = (ts.head?.any endsExec, s₁) ∧ tokens s₁ = ts ∧
      s₁ <:+ s := by
  subst h
  refine peek_spec (by decide) ?_
  cases (tokens s).head? with
  | none => rfl
  | some t => cases t <;> rfl

theorem parseargs_stop (argv : List Span) (rs : List (Redir Span))
    (h : (tokens s).head?.all endsExec) :
    ∃ s₁, parseargs (n + 1) argv rs s = .ok (argv, rs, s₁) ∧ tokens s₁ = tokens s ∧ s₁ <:+ s := by
  obtain ⟨s₁, hpeek, htokens, hsuffix⟩ := peek_ends (tokens s) rfl
  cases ht : tokens s with
  | nil =>
    rw [ht] at hpeek htokens
    obtain ⟨hret, hps⟩ := gettoken_nil htokens
    refine ⟨[], ?_, tokens_nil, nil_suffix⟩
    rw [parseargs, hpeek]
    simp only [head?_nil, any_none, hret, if_true, hps]
  | cons t ts =>
    rw [ht] at hpeek htokens h
    refine ⟨s₁, ?_, htokens, hsuffix⟩
    have hend : t.endsExec = true := h
    rw [parseargs, hpeek]
    simp only [head?_cons, any_some, hend]

theorem parseargs_word (argv : List Span) (rs : List (Redir Span)) {x : Word}
    (h : tokens s = .word x :: ts) :
    ∃ w s₁, parseargs (n + 1) argv rs s =
        (if maxargs ≤ argv.length + 1 then .error (.panic .tooManyArgs)
        else
          match parseredirs (s₁.length + 1) s₁ with
          | .error e => .error e
          | .ok (rs', s') => parseargs n (argv ++ [w]) (rs ++ rs') s') ∧
      WordAt s w x ∧ tokens s₁ = ts ∧ s₁ <:+ s ∧ s₁.length < s.length := by
  obtain ⟨s₀, hpeek, htokens, hsuffix⟩ := peek_ends _ h
  have htaken := gettoken_cons htokens
  refine ⟨(gettoken s₀).span, (gettoken s₀).ps, ?_, (htaken.word x rfl).mono hsuffix, htaken.rest,
    htaken.suffix.trans hsuffix, htaken.shorter.trans_le hsuffix.length_le⟩
  have hnul : 'a' ≠ nul := by decide
  rw [parseargs, hpeek]
  simp only [head?_cons, any_some, endsExec, htaken.ret, if_neg hnul, code,
    ne_eq, not_true_eq_false, if_false]
  refine if_congr ?_ rfl rfl
  rw [length_append, length_singleton]

theorem parseargs_unexpected {t : Token} (h : tokens s = t :: ts) (hend : t.endsExec = false)
    (hword : ∀ x, t ≠ .word x) : parseargs (n + 1) argv rs s = .error (.panic .unexpected) := by
  obtain ⟨s₀, hpeek, htokens, -⟩ := peek_ends _ h
  have htaken := gettoken_cons htokens
  have hret : (gettoken s₀).ret ≠ nul ∧ (gettoken s₀).ret ≠ 'a' := by
    rw [htaken.ret]
    cases t with
    | word x => exact absurd rfl (hword x)
    | _ => decide
  rw [parseargs, hpeek]
  simp only [head?_cons, any_some, hend, if_neg hret.1, if_pos hret.2]

/-- What there can be in front of an argument. -/
theorem arg_cases (ts : List Token) :
    ts.head?.all endsExec ∨ (∃ x us, ts = .word x :: us) ∨
      ∃ t us, ts = t :: us ∧ t.endsExec = false ∧ ∀ x, t ≠ .word x := by
  cases ts with
  | nil => exact .inl rfl
  | cons t us =>
    cases t with
    | word x => exact .inr (.inl ⟨x, us, rfl⟩)
    | bar | rparen | amp | semi => exact .inl rfl
    | _ => exact .inr (.inr ⟨_, us, rfl, rfl, nofun⟩)

theorem parseargs_sound (h : parseargs n argv rs s = .ok (argv', rs', s'))
    (hlen : argv.length ≤ 9) :
    ∃ (args : List Arg) (ws : List Span) (qs : List (Redir Span)),
      tokens s = args.flatMap Arg.tokens ++ tokens s' ∧ argv' = argv ++ ws ∧ rs' = rs ++ qs ∧
      List.Forall₂ (WordAt s) ws (args.map Prod.fst) ∧
      List.Forall₂ (Redir.Rel (WordAt s)) qs ((args.flatMap Prod.snd).map Redirect.redir) ∧
      argv'.length ≤ 9 ∧ s' <:+ s := by
  induction n generalizing s argv rs with
  | zero => cases h
  | succ n ih =>
    rcases arg_cases (tokens s) with hend | ⟨x, us, ht⟩ | ⟨t, us, ht, hend, hword⟩
    · obtain ⟨s₁, heq, htokens, hsuffix⟩ := parseargs_stop (n := n) argv rs hend
      rw [heq] at h
      cases h
      exact ⟨[], [], [], htokens.symm, (append_nil _).symm, (append_nil _).symm, .nil,
        .nil, hlen, hsuffix⟩
    · obtain ⟨w, s₁, heq, hw, htokens, hsuffix, -⟩ :=
        parseargs_word (n := n) argv rs ht
      rw [heq] at h
      split_ifs at h with hmax
      split at h
      · cases h
      · rename_i q s₂ hredirs
        obtain ⟨gs, hgs, hrel, hsuffix₂, -⟩ := parseredirs_sound hredirs
        have hnext : (argv ++ [w]).length ≤ 9 := by
          simp only [maxargs] at hmax
          simp only [length_append, length_singleton]
          omega
        obtain ⟨args, ws, qs, htok, hargv, hrs, hws, hqs, hlen', hsuffix'⟩ := ih h hnext
        have hs₂ : s₂ <:+ s := hsuffix₂.trans hsuffix
        refine ⟨(x, gs) :: args, w :: ws, q ++ qs, ?_, ?_, ?_, ?_, ?_, hlen', hsuffix'.trans hs₂⟩
        · rw [ht, ← htokens, hgs, htok]
          simp only [flatMap_cons, Arg.tokens, cons_append, append_assoc]
        · rw [hargv, append_assoc]
          rfl
        · rw [hrs, append_assoc]
        · exact .cons hw (hws.imp fun _ _ h => h.mono hs₂)
        · rw [flatMap_cons, map_append]
          exact rel_append (hrel.imp fun _ _ h => h.mono fun _ _ h => h.mono hsuffix)
            (hqs.imp fun _ _ h => h.mono fun _ _ h => h.mono hs₂)
    · rw [parseargs_unexpected ht hend hword] at h
      cases h

theorem parseargs_total (hn : s.length < n) : parseargs n argv rs s ≠ .error .fuel := by
  induction n generalizing s argv rs with
  | zero => exact absurd hn (not_lt_zero _)
  | succ n ih =>
    rcases arg_cases (tokens s) with hend | ⟨x, us, ht⟩ | ⟨t, us, ht, hend, hword⟩
    · obtain ⟨s₁, heq, -⟩ := parseargs_stop (n := n) argv rs hend
      rw [heq]
      nofun
    · obtain ⟨w, s₁, heq, -, -, -, hshorter⟩ :=
        parseargs_word (n := n) argv rs ht
      rw [heq]
      intro h
      split_ifs at h
      · cases h
      · split at h
        · rename_i e he
          cases h
          exact parseredirs_total (lt_succ_self _) he
        · rename_i q s₂ hredirs
          obtain ⟨-, -, -, hsuffix₂, -⟩ := parseredirs_sound hredirs
          have := hsuffix₂.length_le
          exact ih (by omega) h
    · rw [parseargs_unexpected ht hend hword]
      nofun

theorem parseargs_complete (argv : List Span) (rs : List (Redir Span)) {args : List Arg} (hn : s.length < n) (h : tokens s = args.flatMap Arg.tokens ++ ts)
    (hts : ts.head?.all endsExec) (hlen : argv.length + args.length ≤ 9) :
    ∃ ws qs s', parseargs n argv rs s = .ok (argv ++ ws, rs ++ qs, s') ∧ tokens s' = ts ∧
      s' <:+ s ∧ List.Forall₂ (WordAt s) ws (args.map Prod.fst) ∧
      List.Forall₂ (Redir.Rel (WordAt s)) qs ((args.flatMap Prod.snd).map Redirect.redir) := by
  induction args generalizing n s argv rs with
  | nil =>
    obtain ⟨m, rfl⟩ := Nat.exists_eq_add_of_lt hn
    have hend : (tokens s).head?.all endsExec := by rw [h]; exact hts
    obtain ⟨s₁, heq, htokens, hsuffix⟩ :=
      parseargs_stop (n := s.length + m) argv rs hend
    refine ⟨[], [], s₁, ?_, htokens.trans h, hsuffix, .nil, .nil⟩
    rw [append_nil, append_nil]
    exact heq
  | cons a args ih =>
    obtain ⟨m, rfl⟩ := Nat.exists_eq_add_of_lt hn
    rw [flatMap_cons, Arg.tokens, cons_append, cons_append, append_assoc] at h
    obtain ⟨w, s₁, heq, hw, htokens, hsuffix, hshorter⟩ :=
      parseargs_word (n := s.length + m) argv rs h
    -- behind the redirections there is a word or the end of the arguments
    have hnext : (args.flatMap Arg.tokens ++ ts).head?.all fun t => !t.isRedir := by
      cases args with
      | nil =>
        cases ts with
        | nil => rfl
        | cons t ts => cases t <;> first | rfl | cases hts
      | cons b args => rfl
    obtain ⟨q, s₂, hredirs, hts₂, hsuffix₂, hq⟩ :=
      parseredirs_complete (lt_succ_self s₁.length) htokens hnext
    have hmax : ¬maxargs ≤ argv.length + 1 := by
      simp only [maxargs, length_cons] at hlen ⊢
      omega
    have hlen₂ := hsuffix₂.length_le
    obtain ⟨ws, qs, s', hrest, hts', hsuffix', hws, hqs⟩ :=
      ih (n := s.length + m) (s := s₂) (argv ++ [w]) (rs ++ q) (by omega) hts₂ (by
        simp only [length_append, length_singleton]
        simp only [length_cons] at hlen
        omega)
    have hs₂ : s₂ <:+ s := hsuffix₂.trans hsuffix
    rw [if_neg hmax, hredirs] at heq
    refine ⟨w :: ws, q ++ qs, s', ?_, hts', hsuffix'.trans hs₂, ?_, ?_⟩
    · rw [heq]
      simp only
      rw [hrest, append_assoc, append_assoc]
      rfl
    · exact .cons hw (hws.imp fun _ _ h => h.mono hs₂)
    · rw [flatMap_cons, map_append]
      exact rel_append (hq.imp fun _ _ h => h.mono fun _ _ h => h.mono hsuffix)
        (hqs.imp fun _ _ h => h.mono fun _ _ h => h.mono hs₂)

end Args

end FogOS.Shell
