import FogOS.Shell.Strings

/-!
# Running a script

The loop of `main` in `sh.c` reads a script with `fgets` into a buffer of 100 bytes. A script whose
lines fit the buffer, without carriage returns and with a newline behind each `cd`, is run line by
line.
-/

namespace FogOS.Shell

open List

/-- The bytes of the script that are still to be read. -/
abbrev Input : Type := List Char

/-- The loop of `fgets`, which may store `n` more bytes. -/
def fgetsLoop : Nat → Input → List Char × Input
  | 0, inp => ([], inp)
  | _ + 1, [] => ([], [])
  | n + 1, c :: inp =>
    if c = '\n' ∨ c = '\r' then ([c], inp)
    else
      let r := fgetsLoop n inp
      (c :: r.1, r.2)

/-- The string in `buf` after `fgets`. -/
def fgets (inp : Input) (max : Nat) : List Char × Input := fgetsLoop (max - 1) inp

/-- `getcmd`: nothing at the end of the file. -/
def getcmd (inp : Input) (nbuf : Nat) : Option (List Char × Input) :=
  let r := fgets inp nbuf
  match r.1 with
  | [] => none
  | c :: _ => if c = nul then none else some r

/-- The tree that a line runs, if the parser returns. -/
def parseOf (line : List Char) : Option (Cmd Word) :=
  (parsecmd line).toOption.map fun r => r.1.read line r.2

/-- What the shell does with one buffer. -/
inductive Action
  | skip
  | chdir (path : List Char)
  | run (cmd : Option (Cmd Word))
  deriving DecidableEq

/-- The body of the loop of `main`. -/
def command (buf : List Char) : Action :=
  if buf[0]? = some '#' then .skip
  else if buf[0]? = some 'c' ∧ buf[1]? = some 'd' ∧ buf[2]? = some ' ' then
    .chdir (buf.dropLast.drop 3)
  else .run (parseOf buf)

/-- The loop of `main`. Each turn reads a byte at least, so the length of the script is enough
fuel. -/
def mainLoop : Nat → Input → List Action
  | 0, _ => []
  | n + 1, inp =>
    match getcmd inp 100 with
    | none => []
    | some (buf, inp) => command buf :: mainLoop n inp

def runScript (script : Input) : List Action := mainLoop (script.length + 1) script

/-- The lines of a script, each with its newline; the last one may have none. -/
def rawLines : List Char → List (List Char)
  | [] => []
  | c :: s =>
    if c = '\n' then [c] :: rawLines s
    else
      match rawLines s with
      | [] => [[c]]
      | l :: ls => (c :: l) :: ls

/-- A line without its newline. -/
def chomp (l : List Char) : List Char := if l.getLast? = some '\n' then l.dropLast else l

/-- What a script says that the shell is to do with a line. -/
def lineAction (l : List Char) : Action :=
  if l.head? = some '#' then .skip
  else if "cd ".toList <+: l then .chdir (l.drop 3)
  else .run (parseOf l)

/-- The line fits the buffer of `fgets` and ends as the loop expects. -/
structure Fits (l : List Char) : Prop where
  short : l.length ≤ 99
  noReturn : '\r' ∉ l
  ended : l.getLast? = some '\n' ∨ ¬"cd ".toList <+: l

section Tokens

variable {c : Char}

theorem takeWhile_dropWhile_append (hc : isWord c = false) (s : List Char) :
    (s ++ [c]).takeWhile isWord = s.takeWhile isWord ∧
      (s ++ [c]).dropWhile isWord = s.dropWhile isWord ++ [c] := by
  induction s with
  | nil => simp [hc]
  | cons d s ih =>
    by_cases hd : isWord d
    · simp [hd, ih.1, ih.2]
    · simp [hd]

/-- Whitespace at the end of a line is nothing to the parser. -/
theorem tokens_append_space (hc : isSpace c) (s : List Char) : tokens (s ++ [c]) = tokens s := by
  have hword : isWord c = false := by rw [isWord, hc]; rfl
  have hgt : c ≠ '>' := by
    rintro rfl
    cases hc
  fun_induction tokens s with
  | case1 => rw [nil_append, tokens_space hc, tokens_nil]
  | case2 d s hd ih => rw [cons_append, tokens_space hd, ih]
  | case3 d s hd happend ih =>
    obtain ⟨rfl, hs⟩ := happend
    obtain ⟨r, rfl⟩ := head?_eq_some_iff.1 hs
    rw [cons_append, cons_append, tokens_append]
    exact congrArg _ ih
  | case4 d s hd happend t ht ih =>
    have hne : ¬(d = '>' ∧ (s ++ [c]).head? = some '>') := by
      rintro ⟨hd, hs⟩
      cases s with
      | nil => exact hgt (Option.some.inj hs)
      | cons e s => exact happend ⟨hd, hs⟩
    rw [cons_append, tokens_symbol ht hne, ih]
  | case5 d s hd happend ht ih =>
    have hd' : isWord d := by
      rcases isSpace_or_symbol_or_word d with h | ⟨t, h⟩ | h
      · exact absurd h hd
      · exact absurd (ht.symm.trans h) (by simp)
      · exact h
    obtain ⟨htake, hdrop⟩ := takeWhile_dropWhile_append hword s
    rw [cons_append, tokens_word hd', htake, hdrop, ih]

/-- `parseOf` in terms of the grammar. -/
theorem parseOf_eq_some {l : List Char} (hnul : nul ∉ l) {c : Cmd Word} :
    parseOf l = some c ↔ Derives .line (tokens l) c := by
  constructor
  · intro h
    cases hparse : parsecmd l with
    | error e =>
      rw [parseOf, hparse] at h
      cases h
    | ok r =>
      rw [parseOf, hparse] at h
      obtain rfl := Option.some.inj h
      exact parsecmd_sound hnul hparse
  · intro h
    obtain ⟨cmd, b, hparse, hread⟩ := parsecmd_complete hnul h
    rw [parseOf, hparse]
    exact congrArg some hread

/-- The newline of a line does not change its tree. -/
theorem parseOf_append_newline {l : List Char} (hnul : nul ∉ l) :
    parseOf (l ++ ['\n']) = parseOf l := by
  have hnul' : nul ∉ l ++ ['\n'] := by
    intro h
    rcases mem_append.1 h with h | h
    · exact hnul h
    · exact absurd h (by decide)
  refine Option.ext fun c => ?_
  rw [parseOf_eq_some hnul', parseOf_eq_some hnul, tokens_append_space rfl]

end Tokens

section Lines

variable {l : List Char}

/-- The prefix that the loop of `main` looks for. -/
theorem cd_prefix_iff (l : List Char) :
    (l[0]? = some 'c' ∧ l[1]? = some 'd' ∧ l[2]? = some ' ') ↔ "cd ".toList <+: l := by
  match l with
  | [] => simp
  | [_] => simp
  | [_, _] => simp
  | _ :: _ :: _ :: _ => simp [eq_comm]

/-- A newline at the end is not part of the prefix. -/
theorem cd_prefix_append_newline (l : List Char) :
    "cd ".toList <+: l ++ ['\n'] ↔ "cd ".toList <+: l := by
  match l with
  | [] => simp
  | [_] => simp
  | [_, _] => simp
  | _ :: _ :: _ :: _ => simp

theorem chomp_append_newline (l : List Char) : chomp (l ++ ['\n']) = l := by
  rw [chomp, if_pos getLast?_concat, dropLast_concat]

/-- What the loop of `main` does with a line that ends with a newline. -/
theorem command_append_newline (hnul : nul ∉ l) : command (l ++ ['\n']) = lineAction l := by
  have hhead : (l ++ ['\n'])[0]? = some '#' ↔ l.head? = some '#' := by
    cases l with
    | nil => simp
    | cons c l => simp
  rw [command, lineAction]
  simp only [hhead, cd_prefix_iff, cd_prefix_append_newline, dropLast_concat,
    parseOf_append_newline hnul]

theorem command_eq (hfits : Fits l) (hnul : nul ∉ l) : command l = lineAction (chomp l) := by
  by_cases hlast : l.getLast? = some '\n'
  · obtain ⟨m, rfl⟩ := getLast?_eq_some_iff.1 hlast
    rw [chomp_append_newline]
    exact command_append_newline fun h => hnul (mem_append_left _ h)
  · have hcd := hfits.ended.resolve_left hlast
    rw [chomp, if_neg hlast, command, lineAction]
    simp only [cd_prefix_iff, hcd, if_false, head?_eq_getElem?]

theorem eq_nil_of_rawLines {s : Input} (h : rawLines s = []) : s = [] := by
  cases s with
  | nil => rfl
  | cons c s =>
    rw [rawLines] at h
    split_ifs at h
    split at h <;> cases h

/-- `fgets` reads a line that fits. -/
theorem fgetsLoop_rawLines {n : Nat} {s : Input} {ls : List (List Char)}
    (h : rawLines s = l :: ls) (hlen : l.length ≤ n) (hret : '\r' ∉ l) :
    ∃ s', fgetsLoop n s = (l, s') ∧ rawLines s' = ls ∧ s = l ++ s' := by
  induction s generalizing n l with
  | nil => cases h
  | cons c s ih =>
    rw [rawLines] at h
    by_cases hc : c = '\n'
    · rw [if_pos hc] at h
      obtain ⟨rfl, rfl⟩ := List.cons.inj h
      obtain ⟨m, rfl⟩ : ∃ m, n = m + 1 := ⟨n - 1, by simp only [length_singleton] at hlen; omega⟩
      refine ⟨s, ?_, rfl, rfl⟩
      rw [fgetsLoop, if_pos (.inl hc)]
    · rw [if_neg hc] at h
      have hline : ∃ l', l = c :: l' ∧ (rawLines s = [] ∧ l' = [] ∧ ls = [] ∨
          rawLines s = l' :: ls) := by
        cases hs : rawLines s with
        | nil =>
          rw [hs] at h
          obtain ⟨rfl, rfl⟩ := List.cons.inj h
          exact ⟨[], rfl, .inl ⟨rfl, rfl, rfl⟩⟩
        | cons l' ls' =>
          rw [hs] at h
          obtain ⟨rfl, rfl⟩ := List.cons.inj h
          exact ⟨l', rfl, .inr rfl⟩
      obtain ⟨l', rfl, hrest⟩ := hline
      obtain ⟨m, rfl⟩ : ∃ m, n = m + 1 := ⟨n - 1, by simp only [length_cons] at hlen; omega⟩
      have hstop : ¬(c = '\n' ∨ c = '\r') := by
        rintro (h | rfl)
        · exact hc h
        · exact hret mem_cons_self
      rw [fgetsLoop, if_neg hstop]
      rcases hrest with ⟨hs, rfl, rfl⟩ | hs
      · obtain rfl := eq_nil_of_rawLines hs
        refine ⟨[], ?_, rfl, rfl⟩
        cases m <;> rfl
      · obtain ⟨s', heq, hraw, hsplit⟩ := ih hs (Nat.le_of_succ_le_succ hlen)
          fun h => hret (mem_cons_of_mem _ h)
        refine ⟨s', ?_, hraw, congrArg (c :: ·) hsplit⟩
        rw [heq]

theorem rawLines_ne_nil {s : Input} {ls : List (List Char)} (h : rawLines s = l :: ls) :
    l ≠ [] := by
  cases s with
  | nil => cases h
  | cons c s =>
    rw [rawLines] at h
    split_ifs at h
    · obtain ⟨rfl, -⟩ := List.cons.inj h
      nofun
    · split at h
      · obtain ⟨rfl, -⟩ := List.cons.inj h
        nofun
      · obtain ⟨rfl, -⟩ := List.cons.inj h
        nofun

/-- Each turn of the loop of `main` runs one line. -/
theorem mainLoop_eq {n : Nat} {s : Input} (hnul : nul ∉ s) (hfits : ∀ l ∈ rawLines s, Fits l)
    (hn : s.length < n) : mainLoop n s = (rawLines s).map fun l => lineAction (chomp l) := by
  induction n generalizing s with
  | zero => exact absurd hn (Nat.not_lt_zero _)
  | succ n ih =>
    cases hraw : rawLines s with
    | nil =>
      obtain rfl := eq_nil_of_rawLines hraw
      rfl
    | cons l ls =>
      have hl : Fits l := hfits l (hraw ▸ mem_cons_self)
      obtain ⟨s', heq, hs', hsplit⟩ := fgetsLoop_rawLines hraw hl.short hl.noReturn
      have hne := rawLines_ne_nil hraw
      have hget : getcmd s 100 = some (l, s') := by
        have hfgets : fgets s 100 = (l, s') := heq
        simp only [getcmd, hfgets]
        cases l with
        | nil => exact absurd rfl hne
        | cons c l =>
          have hc : c ≠ nul := by
            rintro rfl
            exact hnul (hsplit ▸ mem_cons_self)
          simp only [if_neg hc]
      have hnull : nul ∉ l := fun h => hnul (hsplit ▸ mem_append_left _ h)
      have hnul' : nul ∉ s' := fun h => hnul (hsplit ▸ mem_append_right _ h)
      have hlen : s'.length < n := by
        have hpos := length_pos_of_ne_nil hne
        rw [hsplit, length_append] at hn
        omega
      rw [mainLoop, hget, map_cons, ← hs']
      simp only [command_eq hl hnull]
      rw [ih hnul' (fun m hm => hfits m ?_) hlen]
      rw [hraw, ← hs']
      exact mem_cons_of_mem _ hm

end Lines

/-- One line: `#`, 98 letters, and `ls`. -/
def longComment : Input := '#' :: List.replicate 98 'x' ++ "ls\n".toList

end FogOS.Shell
