import Mathlib

/-!
# The parser of the shell

`gettoken`, `peek` and the `parse` functions of `sh.c`. A pointer into the line is the rest of the
line from there, so `es` is the empty rest, and `*s` at `es` is the terminating NUL. The recursion
of the `parse` functions and their loops carry fuel.
-/

namespace FogOS.Shell

abbrev Ptr : Type := List Char

def nul : Char := '\x00'

/-- `whitespace[]`. -/
def whitespace : List Char := [' ', '\t', '\r', '\n', '\x0b']

/-- `symbols[]`. -/
def symbols : List Char := ['<', '|', '>', '&', ';', '(', ')']

def isSpace (c : Char) : Bool := whitespace.contains c

def isSymbol (c : Char) : Bool := symbols.contains c

/-- A character of a word. -/
def isWord (c : Char) : Bool := !isSpace c && !isSymbol c

/-- The calls of `panic` in the parser. -/
inductive Panic
  | missingFile
  | parseblock
  | missingParen
  | unexpected
  | tooManyArgs
  | leftovers
  deriving DecidableEq

def Panic.message : Panic → String
  | missingFile => "missing file for redirection"
  | parseblock => "parseblock"
  | missingParen => "syntax - missing )"
  | unexpected => "syntax"
  | tooManyArgs => "too many args"
  | leftovers => "syntax"

inductive Stop
  | panic (p : Panic)
  | fuel
  deriving DecidableEq

/-- `MAXARGS`. -/
def maxargs : Nat := 10

def oRdonly : Nat := 0x000
def oWronly : Nat := 0x001
def oCreate : Nat := 0x200
def oTrunc : Nat := 0x400

/-- `file`, `mode` and `fd` of a `redircmd`. -/
structure Redir (W : Type) where
  file : W
  mode : Nat
  fd : Nat
  deriving DecidableEq

/-- `struct cmd`, with words of type `W`. -/
inductive Cmd (W : Type)
  | exec (argv : List W)
  | redir (cmd : Cmd W) (r : Redir W)
  | pipe (left right : Cmd W)
  | list (left right : Cmd W)
  | back (cmd : Cmd W)
  deriving DecidableEq

/-- A counted string: `argv[i]` and `eargv[i]`, or `file` and `efile`. -/
structure Span where
  q : Ptr
  eq : Ptr
  deriving DecidableEq

/-- What `gettoken` returns and stores. -/
structure Scan where
  ret : Char
  q : Ptr
  eq : Ptr
  ps : Ptr

def Scan.span (t : Scan) : Span := ⟨t.q, t.eq⟩

/-- The `switch` of `gettoken`. -/
def scanToken : Ptr → Char × Ptr
  | [] => (nul, [])
  | c :: s =>
    if c = '>' then if s.head? = some '>' then ('+', s.tail) else ('>', s)
    else if c ∈ ['|', '(', ')', ';', '&', '<'] then (c, s)
    else ('a', (c :: s).dropWhile isWord)

def gettoken (s : Ptr) : Scan :=
  let q := s.dropWhile isSpace
  let t := scanToken q
  ⟨t.1, q, t.2, t.2.dropWhile isSpace⟩

def peek (toks : List Char) (s : Ptr) : Bool × Ptr :=
  let s := s.dropWhile isSpace
  (s.head?.any toks.contains, s)

/-- The `switch` of `parseredirs`. -/
def redirOf (tok : Char) (file : Span) : List (Redir Span) :=
  if tok = '<' then [⟨file, oRdonly, 0⟩]
  else if tok = '>' then [⟨file, oWronly ||| oCreate ||| oTrunc, 1⟩]
  else if tok = '+' then [⟨file, oWronly ||| oCreate, 1⟩]
  else []

/-- The redirections that `parseredirs` reads, in order. -/
def parseredirs : Nat → Ptr → Except Stop (List (Redir Span) × Ptr)
  | 0, _ => .error .fuel
  | n + 1, s =>
    match peek ['<', '>'] s with
    | (false, s) => .ok ([], s)
    | (true, s) =>
      let tok := gettoken s
      let file := gettoken tok.ps
      if file.ret ≠ 'a' then .error (.panic .missingFile)
      else
        match parseredirs n file.ps with
        | .error e => .error e
        | .ok (rs, s) => .ok (redirOf tok.ret file.span ++ rs, s)

/-- The calls of `redircmd`: each redirection is wrapped around the command so far. -/
def redircmds {W : Type} (cmd : Cmd W) (rs : List (Redir W)) : Cmd W := rs.foldl .redir cmd

/-- The loop of `parseexec`. The `execcmd` is filled after redirections have been wrapped around
it, so arguments and redirections are collected. -/
def parseargs : Nat → List Span → List (Redir Span) → Ptr →
    Except Stop (List Span × List (Redir Span) × Ptr)
  | 0, _, _, _ => .error .fuel
  | n + 1, argv, rs, s =>
    match peek ['|', ')', '&', ';'] s with
    | (true, s) => .ok (argv, rs, s)
    | (false, s) =>
      let t := gettoken s
      if t.ret = nul then .ok (argv, rs, t.ps)
      else if t.ret ≠ 'a' then .error (.panic .unexpected)
      else if maxargs ≤ (argv ++ [t.span]).length then .error (.panic .tooManyArgs)
      else
        match parseredirs (t.ps.length + 1) t.ps with
        | .error e => .error e
        | .ok (rs', s) => parseargs n (argv ++ [t.span]) (rs ++ rs') s

/-- The loop of `parseline`. -/
def parsebacks : Nat → Cmd Span → Ptr → Except Stop (Cmd Span × Ptr)
  | 0, _, _ => .error .fuel
  | n + 1, cmd, s =>
    match peek ['&'] s with
    | (true, s) => parsebacks n (.back cmd) (gettoken s).ps
    | (false, s) => .ok (cmd, s)

mutual

def parseline : Nat → Ptr → Except Stop (Cmd Span × Ptr)
  | 0, _ => .error .fuel
  | n + 1, s =>
    match parsepipe n s with
    | .error e => .error e
    | .ok (cmd, s) =>
      match parsebacks (s.length + 1) cmd s with
      | .error e => .error e
      | .ok (cmd, s) =>
        match peek [';'] s with
        | (false, s) => .ok (cmd, s)
        | (true, s) =>
          match parseline n (gettoken s).ps with
          | .error e => .error e
          | .ok (right, s) => .ok (.list cmd right, s)

def parsepipe : Nat → Ptr → Except Stop (Cmd Span × Ptr)
  | 0, _ => .error .fuel
  | n + 1, s =>
    match parseexec n s with
    | .error e => .error e
    | .ok (cmd, s) =>
      match peek ['|'] s with
      | (false, s) => .ok (cmd, s)
      | (true, s) =>
        match parsepipe n (gettoken s).ps with
        | .error e => .error e
        | .ok (right, s) => .ok (.pipe cmd right, s)

def parseblock : Nat → Ptr → Except Stop (Cmd Span × Ptr)
  | 0, _ => .error .fuel
  | n + 1, s =>
    match peek ['('] s with
    | (false, _) => .error (.panic .parseblock)
    | (true, s) =>
      match parseline n (gettoken s).ps with
      | .error e => .error e
      | .ok (cmd, s) =>
        match peek [')'] s with
        | (false, _) => .error (.panic .missingParen)
        | (true, s) =>
          let s := (gettoken s).ps
          match parseredirs (s.length + 1) s with
          | .error e => .error e
          | .ok (rs, s) => .ok (redircmds cmd rs, s)

def parseexec : Nat → Ptr → Except Stop (Cmd Span × Ptr)
  | 0, _ => .error .fuel
  | n + 1, s =>
    match peek ['('] s with
    | (true, s) => parseblock n s
    | (false, s) =>
      match parseredirs (s.length + 1) s with
      | .error e => .error e
      | .ok (rs, s) =>
        match parseargs (s.length + 1) [] rs s with
        | .error e => .error e
        | .ok (argv, rs, s) => .ok (redircmds (.exec argv) rs, s)

end

/-- Characters of the line and the terminating NUL, as `nulterminate` leaves them. -/
abbrev Buf : Type := List Char

/-- The offset of a pointer into the line. -/
def offset (line p : Ptr) : Nat := line.length - p.length

def nulterminate (line : Ptr) : Cmd Span → Buf → Buf
  | .exec argv, b => argv.foldl (fun b w => b.set (offset line w.eq) nul) b
  | .redir cmd r, b => (nulterminate line cmd b).set (offset line r.file.eq) nul
  | .pipe left right, b => nulterminate line right (nulterminate line left b)
  | .list left right, b => nulterminate line right (nulterminate line left b)
  | .back cmd, b => nulterminate line cmd b

/-- The tree of a line, and the buffer that holds its strings. -/
def parsecmd (line : Ptr) : Except Stop (Cmd Span × Buf) :=
  match parseline (4 * line.length + 4) line with
  | .error e => .error e
  | .ok (cmd, s) =>
    if (peek [] s).2 ≠ [] then .error (.panic .leftovers)
    else .ok (cmd, nulterminate line cmd (line ++ [nul]))

/-- The C string at an offset. -/
def cstring (b : Buf) (i : Nat) : List Char := (b.drop i).takeWhile fun c => c ≠ nul

def Cmd.map {V W : Type} (f : V → W) : Cmd V → Cmd W
  | .exec argv => .exec (argv.map f)
  | .redir cmd r => .redir (cmd.map f) ⟨f r.file, r.mode, r.fd⟩
  | .pipe left right => .pipe (left.map f) (right.map f)
  | .list left right => .list (left.map f) (right.map f)
  | .back cmd => .back (cmd.map f)

/-- The tree with the strings that its pointers point to. -/
def Cmd.read (line : Ptr) (b : Buf) (cmd : Cmd Span) : Cmd (List Char) :=
  cmd.map fun w => cstring b (offset line w.q)

end FogOS.Shell
