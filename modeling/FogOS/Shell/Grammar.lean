import FogOS.Shell.Tokens

/-!
# The grammar of the shell

`line ::= pipe '&'* [';' line]`, `pipe ::= exec ['|' pipe]`,
`exec ::= '(' line ')' redir* | redir* (word redir*)*` with at most nine words, and
`redir ::= ('<' | '>' | '>>') word`. A derivation gives a tree: lists and pipes are nested to the
right and redirections are wrapped in source order.
-/

namespace FogOS.Shell

abbrev Word : Type := List Char

inductive RedirOp
  | input
  | output
  | append
  deriving DecidableEq

namespace RedirOp

def token : RedirOp → Token
  | input => .lt
  | output => .gt
  | append => .append

def redir {W : Type} (w : W) : RedirOp → Redir W
  | input => ⟨w, oRdonly, 0⟩
  | output => ⟨w, oWronly ||| oCreate ||| oTrunc, 1⟩
  | append => ⟨w, oWronly ||| oCreate, 1⟩

end RedirOp

/-- A redirection of the grammar. -/
abbrev Redirect : Type := RedirOp × Word

def Redirect.tokens (r : Redirect) : List Token := [r.1.token, .word r.2]

def Redirect.redir (r : Redirect) : Redir Word := r.1.redir r.2

/-- `redir*`. -/
def redirTokens (rs : List Redirect) : List Token := rs.flatMap Redirect.tokens

/-- `word redir*`. -/
abbrev Arg : Type := Word × List Redirect

def Arg.tokens (a : Arg) : List Token := .word a.1 :: redirTokens a.2

def backs {W : Type} (n : Nat) (c : Cmd W) : Cmd W := Cmd.back^[n] c

inductive Symbol
  | line
  | pipe
  | exec

/-- The trees that a list of tokens derives. -/
inductive Derives : Symbol → List Token → Cmd Word → Prop
  | line {ts : List Token} {c : Cmd Word} (n : Nat) (h : Derives .pipe ts c) :
      Derives .line (ts ++ List.replicate n .amp) (backs n c)
  | seq {ts us : List Token} {c d : Cmd Word} (n : Nat) (h : Derives .pipe ts c)
      (hr : Derives .line us d) :
      Derives .line (ts ++ List.replicate n .amp ++ .semi :: us) (.list (backs n c) d)
  | single {ts : List Token} {c : Cmd Word} (h : Derives .exec ts c) : Derives .pipe ts c
  | pipe {ts us : List Token} {c d : Cmd Word} (h : Derives .exec ts c) (hr : Derives .pipe us d) :
      Derives .pipe (ts ++ .bar :: us) (.pipe c d)
  | block {ts : List Token} {c : Cmd Word} (h : Derives .line ts c) (rs : List Redirect) :
      Derives .exec (.lparen :: ts ++ .rparen :: redirTokens rs)
        (redircmds c (rs.map Redirect.redir))
  | simple (rs : List Redirect) (args : List Arg) (hargs : args.length ≤ 9) :
      Derives .exec (redirTokens rs ++ args.flatMap Arg.tokens)
        (redircmds (.exec (args.map Prod.fst)) ((rs ++ args.flatMap Prod.snd).map Redirect.redir))

end FogOS.Shell
