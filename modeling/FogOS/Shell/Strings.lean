import FogOS.Shell.Parser

/-!
# The strings of a parsed line

`nulterminate` writes its NULs behind the words of the tree. Behind a word there is no character of
a word, so no word is changed, and every string reads as its word.
-/

namespace FogOS.Shell

open List

/-- The words of a tree. -/
def Cmd.words {W : Type} : Cmd W → List W
  | .exec argv => argv
  | .redir cmd r => cmd.words ++ [r.file]
  | .pipe left right => left.words ++ right.words
  | .list left right => left.words ++ right.words
  | .back cmd => cmd.words

section Buffer

variable {line : Ptr}

/-- The character at an index, after NULs have been written at some offsets. -/
def stamped (at' : List Nat) (i : Nat) (c : Option Char) : Option Char :=
  if i ∈ at' then c.map fun _ => nul else c

theorem stamped_append (xs ys : List Nat) (i : Nat) (c : Option Char) :
    stamped ys i (stamped xs i c) = stamped (xs ++ ys) i c := by
  by_cases hx : i ∈ xs
  · by_cases hy : i ∈ ys
    · simp [stamped, hx, hy, Function.comp_def]
    · simp [stamped, hx, hy]
  · by_cases hy : i ∈ ys
    · simp [stamped, hx, hy]
    · simp [stamped, hx, hy]

theorem getElem?_set_nul (b : Buf) (k i : Nat) : (b.set k nul)[i]? = stamped [k] i b[i]? := by
  by_cases hk : i = k
  · subst hk
    simp only [stamped, getElem?_set_self', mem_singleton, if_true]
    rfl
  · simp [stamped, hk, getElem?_set_ne (Ne.symm hk)]

theorem getElem?_foldl_set (ws : List Span) (b : Buf) (i : Nat) :
    (ws.foldl (fun b w => b.set (offset line w.eq) nul) b)[i]? =
      stamped (ws.map fun w => offset line w.eq) i b[i]? := by
  induction ws generalizing b with
  | nil => simp [stamped]
  | cons w ws ih =>
    rw [foldl_cons, ih, getElem?_set_nul, stamped_append, map_cons, singleton_append]

/-- `nulterminate` writes a NUL behind each word. -/
theorem getElem?_nulterminate (cmd : Cmd Span) (b : Buf) (i : Nat) :
    (nulterminate line cmd b)[i]? = stamped (cmd.words.map fun w => offset line w.eq) i b[i]? := by
  induction cmd generalizing b with
  | exec argv => exact getElem?_foldl_set argv b i
  | redir cmd r ih =>
    rw [nulterminate, getElem?_set_nul, ih, stamped_append, Cmd.words, map_append, map_singleton]
  | pipe left right ihl ihr =>
    rw [nulterminate, ihr, ihl, stamped_append, Cmd.words, map_append]
  | list left right ihl ihr =>
    rw [nulterminate, ihr, ihl, stamped_append, Cmd.words, map_append]
  | back cmd ih => exact ih b

/-- What is at the offset of a pointer into the line. -/
theorem getElem?_offset {p : Ptr} (hp : p <:+ line) (j : Nat) :
    (line ++ [nul])[offset line p + j]? = (p ++ [nul])[j]? := by
  obtain ⟨pre, rfl⟩ := hp
  have hoff : offset (pre ++ p) p = pre.length := by
    rw [offset, length_append, Nat.add_sub_cancel]
  rw [hoff, append_assoc, getElem?_append_right (Nat.le_add_right _ _), Nat.add_sub_cancel_left]

/-- A word ends where there is no character of a word. -/
theorem not_isWord_of_eq {w : Span} {x : List Char} (hw : WordAt line w x) {c : Char}
    (hc : (line ++ [nul])[offset line w.eq]? = some c) : isWord c = false ∨ w.eq = [] := by
  have hsuffix : w.eq <:+ line := List.IsSuffix.trans ⟨x, hw.split.symm⟩ hw.suffix
  have hat := getElem?_offset hsuffix 0
  rw [add_zero, hc] at hat
  cases heq : w.eq with
  | nil => exact .inr rfl
  | cons d t =>
    rw [heq] at hat
    obtain rfl : c = d := Option.some.inj hat
    have hmax := hw.maximal
    rw [heq] at hmax
    exact .inl (by simpa using hmax)

/-- No NUL is written into a word. -/
theorem offset_ne {w v : Span} {x y : List Char} (hw : WordAt line w x) (hv : WordAt line v y)
    {j : Nat} (hj : j < x.length) : offset line w.q + j ≠ offset line v.eq := by
  intro heq
  have hat := getElem?_offset hw.suffix j
  have hlt : j < w.q.length := by
    rw [hw.split, length_append]
    omega
  have hchar : (w.q ++ [nul])[j]? = some x[j] := by
    rw [getElem?_append_left hlt, hw.split, getElem?_append_left hj]
    exact getElem?_eq_getElem hj
  rw [hchar, heq] at hat
  rcases not_isWord_of_eq hv hat with hnot | hend
  · exact absurd ((hw.chars _ (getElem_mem hj)).symm.trans hnot) nofun
  · have hq := hw.suffix.length_le
    rw [hend] at heq
    simp only [offset, length_nil] at heq
    omega

/-- The string at a word. -/
theorem cstring_of_wordAt {cmd : Cmd Span} {w : Span} {x : List Char} (hnul : nul ∉ line)
    (hwords : ∀ v ∈ cmd.words, ∃ y, WordAt line v y) (hw : WordAt line w x) (hmem : w ∈ cmd.words) :
    cstring (nulterminate line cmd (line ++ [nul])) (offset line w.q) = x := by
  set b := nulterminate line cmd (line ++ [nul]) with hb
  have hinside (j : Nat) (hj : j < x.length) : b[offset line w.q + j]? = x[j]? := by
    have hout : offset line w.q + j ∉ cmd.words.map fun v => offset line v.eq := by
      intro hin
      obtain ⟨v, hv, heq⟩ := mem_map.1 hin
      obtain ⟨y, hy⟩ := hwords v hv
      exact offset_ne hw hy hj heq.symm
    rw [hb, getElem?_nulterminate, stamped, if_neg hout, getElem?_offset hw.suffix, hw.split,
      append_assoc, getElem?_append_left hj]
  have hend : b[offset line w.q + x.length]? = some nul := by
    have hoff : offset line w.q + x.length = offset line w.eq := by
      have hlen := hw.suffix.length_le
      rw [hw.split, length_append] at hlen
      simp only [offset, hw.split, length_append]
      omega
    have hin : offset line w.q + x.length ∈ cmd.words.map fun v => offset line v.eq := by
      rw [hoff]
      exact mem_map_of_mem hmem
    have hat : ∃ c, (line ++ [nul])[offset line w.q + x.length]? = some c := by
      rw [getElem?_offset hw.suffix, hw.split, append_assoc,
        getElem?_append_right (le_refl _), Nat.sub_self]
      cases w.eq with
      | nil => exact ⟨nul, rfl⟩
      | cons c t => exact ⟨c, rfl⟩
    obtain ⟨c, hc⟩ := hat
    rw [hb, getElem?_nulterminate, stamped, if_pos hin, hc]
    rfl
  have hchars : ∀ c ∈ x, c ≠ nul := by
    rintro c hc rfl
    refine hnul (hw.suffix.subset ?_)
    rw [hw.split]
    exact mem_append_left _ hc
  have hsplit : ∃ rest, b.drop (offset line w.q) = x ++ nul :: rest := by
    obtain ⟨hlt, hget⟩ := List.getElem?_eq_some_iff.1 hend
    have htake : (b.drop (offset line w.q)).take x.length = x := by
      refine ext_getElem? fun j => ?_
      by_cases hj : j < x.length
      · rw [getElem?_take_of_lt hj, getElem?_drop, hinside j hj]
      · rw [getElem?_eq_none (Nat.le_of_not_lt hj), getElem?_eq_none]
        exact (length_take_le _ _).trans (Nat.le_of_not_lt hj)
    refine ⟨b.drop (offset line w.q + x.length + 1), ?_⟩
    rw [← take_append_drop x.length (b.drop (offset line w.q)), htake, drop_drop,
      drop_eq_getElem_cons hlt, hget]
  obtain ⟨rest, hrest⟩ := hsplit
  rw [cstring, hrest, takeWhile_append_of_pos (fun c hc => by simpa using hchars c hc),
    takeWhile_cons_of_neg (by simp), append_nil]

end Buffer

section Read

variable {line : Ptr}

theorem Cmd.Rel.words {V W : Type} {R : V → W → Prop} {c : Cmd V} {d : Cmd W} (h : c.Rel R d) :
    List.Forall₂ R c.words d.words := by
  induction h with
  | exec h => exact h
  | redir _ hr ih => exact rel_append ih (.cons hr.1 .nil)
  | pipe _ _ iha ihb => exact rel_append iha ihb
  | list _ _ iha ihb => exact rel_append iha ihb
  | back _ ih => exact ih

theorem Cmd.Rel.map_eq {V W : Type} {R : V → W → Prop} {c : Cmd V} {d : Cmd W} (h : c.Rel R d)
    (f : V → W) (hf : ∀ v ∈ c.words, ∀ w, R v w → f v = w) : c.map f = d := by
  induction h with
  | @exec argv ws h =>
    have hmap : argv.map f = ws := by
      induction h with
      | nil => rfl
      | cons hvw _ ih =>
        rw [map_cons, hf _ mem_cons_self _ hvw, ih fun v hv => hf v (mem_cons_of_mem _ hv)]
    rw [Cmd.map, hmap]
  | redir _ hr ih =>
    rw [Cmd.map, ih fun v hv => hf v (mem_append_left _ hv),
      hf _ (mem_append_right _ (mem_singleton_self _)) _ hr.1, hr.2.1, hr.2.2]
  | pipe _ _ iha ihb =>
    rw [Cmd.map, iha fun v hv => hf v (mem_append_left _ hv),
      ihb fun v hv => hf v (mem_append_right _ hv)]
  | list _ _ iha ihb =>
    rw [Cmd.map, iha fun v hv => hf v (mem_append_left _ hv),
      ihb fun v hv => hf v (mem_append_right _ hv)]
  | back _ ih => rw [Cmd.map, ih hf]

/-- After `nulterminate` the tree reads as the words of the line. -/
theorem read_eq {cmd : Cmd Span} {c : Cmd Word} (hnul : nul ∉ line) (h : cmd.Rel (WordAt line) c) :
    cmd.read line (nulterminate line cmd (line ++ [nul])) = c := by
  have hwords : ∀ v ∈ cmd.words, ∃ y, WordAt line v y := by
    intro v hv
    obtain ⟨i, hi, rfl⟩ := getElem_of_mem hv
    exact ⟨_, h.words.get hi (h.words.length_eq ▸ hi)⟩
  exact h.map_eq _ fun v hv w hvw => cstring_of_wordAt hnul hwords hvw hv

end Read

theorem parsecmd_complete {line : Ptr} {c : Cmd Word} (hnul : nul ∉ line)
    (h : Derives .line (tokens line) c) :
    ∃ cmd b, parsecmd line = .ok (cmd, b) ∧ cmd.read line b = c := by
  obtain ⟨cmd, s, hparse, htok, -, hrel⟩ :=
    parse_complete h (4 * line.length + 4) line [] (append_nil _).symm rfl (le_refl _)
  have hline : parseline (4 * line.length + 4) line = .ok (cmd, s) := hparse
  have hend : (peek [] s).2 = [] := peek_snd_eq_nil.2 htok
  refine ⟨cmd, _, ?_, read_eq hnul hrel⟩
  rw [parsecmd, hline]
  simp only [hend, ne_eq, not_true_eq_false, if_false]

theorem parsecmd_sound {line : Ptr} {cmd : Cmd Span} {b : Buf} (hnul : nul ∉ line)
    (h : parsecmd line = .ok (cmd, b)) : Derives .line (tokens line) (cmd.read line b) := by
  have houtcome := (parse_outcome (4 * line.length + 4)).1 line
  rw [parsecmd] at h
  split at h
  · cases h
  · rename_i cmd' s hparse
    rw [hparse] at houtcome
    obtain ⟨ts, c, hts, hc, hrel, -⟩ := houtcome
    split_ifs at h with hend
    cases h
    have htok : tokens s = [] := peek_snd_eq_nil.1 (not_not.1 hend)
    rw [htok, append_nil] at hts
    rw [read_eq hnul hrel, hts]
    exact hc

theorem parsecmd_total (line : Ptr) : parsecmd line ≠ .error .fuel := by
  have houtcome := (parse_outcome (4 * line.length + 4)).1 line
  intro h
  rw [parsecmd] at h
  split at h
  · rename_i e hparse
    cases h
    rw [hparse] at houtcome
    exact lt_irrefl _ houtcome
  · split_ifs at h
    cases h

/-- `parsecmd` returns exactly for the lines that the grammar derives, with the tree of the
derivation, whose strings read as the words of the line. For other lines it panics. -/
theorem parsecmd_correct (line : Ptr) (hnul : nul ∉ line) :
    (∀ c, (∃ cmd b, parsecmd line = .ok (cmd, b) ∧ cmd.read line b = c) ↔
      Derives .line (tokens line) c) ∧
    ((¬∃ c, Derives .line (tokens line) c) → ∃ p, parsecmd line = .error (.panic p)) := by
  refine ⟨fun c => ⟨?_, parsecmd_complete hnul⟩, fun hnone => ?_⟩
  · rintro ⟨cmd, b, hparse, rfl⟩
    exact parsecmd_sound hnul hparse
  · cases hparse : parsecmd line with
    | ok r => exact absurd ⟨_, parsecmd_sound hnul hparse⟩ hnone
    | error e =>
      cases e with
      | panic p => exact ⟨p, rfl⟩
      | fuel => exact absurd hparse (parsecmd_total line)

/-- `echo a>b|(cat;wc)&`. The words are read although NULs are written behind them. -/
theorem parsecmd_correct_pipe :
    Derives .line (tokens "echo a>b|(cat;wc)&".toList)
      (.back (.pipe (.redir (.exec ["echo".toList, "a".toList]) ⟨"b".toList, 0x601, 1⟩)
        (.list (.exec ["cat".toList]) (.exec ["wc".toList])))) := by
  refine ((parsecmd_correct "echo a>b|(cat;wc)&".toList (by decide)).1 _).1 ?_
  have hread : (parsecmd "echo a>b|(cat;wc)&".toList).toOption.map
      (fun r => r.1.read "echo a>b|(cat;wc)&".toList r.2) =
      some (.back (.pipe (.redir (.exec ["echo".toList, "a".toList]) ⟨"b".toList, 0x601, 1⟩)
        (.list (.exec ["cat".toList]) (.exec ["wc".toList])))) := by
    decide +kernel
  cases hparse : parsecmd "echo a>b|(cat;wc)&".toList with
  | error e =>
    rw [hparse] at hread
    cases hread
  | ok r =>
    rw [hparse] at hread
    exact ⟨r.1, r.2, rfl, Option.some.inj hread⟩

end FogOS.Shell
