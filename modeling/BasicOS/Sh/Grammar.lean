/-
# BasicOS.Sh.Grammar — the shell's command language

The tokens of a line and the grammar of commands, as the parser's specification.  Words
are maximal runs of characters that are neither white space nor symbols, and `>>` is one
token.

    line  := pipe '&'* [ ';' line ]
    pipe  := exec [ '|' pipe ]
    exec  := '(' line ')' redir* | redir* (word redir*)*
    redir := ('<' | '>' | '>>') word

A derivation prescribes the command: one `back` for each `&`, lists and pipes nested to
the right, redirections wrapped in order of appearance, arguments in order of appearance.
-/
import BasicOS.Sh.Parse

namespace BasicOS.Sh

set_option autoImplicit false

/-! ## Tokens of a line -/

inductive Token where
  | sym (c : UInt8)
  /-- `>>`. -/
  | append
  | word (w : List UInt8)
  deriving DecidableEq, Repr

def isSpace (c : UInt8) : Bool :=
  whitespace.contains c

def isSymbol (c : UInt8) : Bool :=
  symbols.contains c

/-- A character of a word. -/
def isPlain (c : UInt8) : Bool :=
  !isSpace c && !isSymbol c

def tokens (s : List UInt8) : List Token :=
  match s with
  | [] => []
  | c :: s =>
    if isSpace c then tokens s
    else if c = gt ∧ s.head? = some gt then .append :: tokens s.tail
    else if isSymbol c then .sym c :: tokens s
    else .word (c :: s.takeWhile isPlain) :: tokens (s.dropWhile isPlain)
termination_by s.length
decreasing_by
  · exact Nat.lt_succ_self _
  · simp only [List.length_tail, List.length_cons]
    omega
  · exact Nat.lt_succ_self _
  · exact Nat.lt_succ_of_le (List.dropWhile_suffix isPlain).length_le

/-! ## The grammar -/

/-- The token of a redirection, with the mode and the descriptor that it means. -/
inductive RedirToken : Token → Nat → Nat → Prop where
  | input : RedirToken (.sym lt) oRdonly 0
  | output : RedirToken (.sym gt) (oWronly ||| oCreate) 1
  | append : RedirToken .append (oWronly ||| oCreate) 1

inductive Redirs : List Token → List (Redir (List UInt8)) → Prop where
  | nil : Redirs [] []
  | cons {tok : Token} {mode fd : Nat} {w : List UInt8} {ts : List Token}
      {rs : List (Redir (List UInt8))} :
      RedirToken tok mode fd → Redirs ts rs →
        Redirs (tok :: .word w :: ts) (⟨w, mode, fd⟩ :: rs)

/-- `(word redir*)*`. -/
inductive Words : List Token → List (List UInt8) → List (Redir (List UInt8)) → Prop where
  | nil : Words [] [] []
  | cons {w : List UInt8} {ts us : List Token} {ws : List (List UInt8)}
      {rs rs' : List (Redir (List UInt8))} :
      Redirs ts rs → Words us ws rs' → Words (.word w :: (ts ++ us)) (w :: ws) (rs ++ rs')

/-- The command with a `back` for each `&`. -/
def backs : Nat → Cmd (List UInt8) → Cmd (List UInt8)
  | 0, cmd => cmd
  | k + 1, cmd => backs k (.back cmd)

mutual

inductive Line : List Token → Cmd (List UInt8) → Prop where
  | last {ts : List Token} {cmd : Cmd (List UInt8)} (k : Nat) :
      Pipe ts cmd → Line (ts ++ List.replicate k (.sym amp)) (backs k cmd)
  | semi {ts us : List Token} {cmd right : Cmd (List UInt8)} (k : Nat) :
      Pipe ts cmd → Line us right →
        Line (ts ++ List.replicate k (.sym amp) ++ .sym semi :: us) (.list (backs k cmd) right)

inductive Pipe : List Token → Cmd (List UInt8) → Prop where
  | last {ts : List Token} {cmd : Cmd (List UInt8)} : Exec ts cmd → Pipe ts cmd
  | bar {ts us : List Token} {cmd right : Cmd (List UInt8)} :
      Exec ts cmd → Pipe us right → Pipe (ts ++ .sym bar :: us) (.pipe cmd right)

inductive Exec : List Token → Cmd (List UInt8) → Prop where
  | block {ts us : List Token} {cmd : Cmd (List UInt8)} {rs : List (Redir (List UInt8))} :
      Line ts cmd → Redirs us rs → Exec (.sym lpar :: (ts ++ .sym rpar :: us)) (cmd.wrap rs)
  | simple {ts us : List Token} {ws : List (List UInt8)} {rs rs' : List (Redir (List UInt8))} :
      Redirs ts rs → Words us ws rs' → ws.length ≤ maxargs - 1 →
        Exec (ts ++ us) (Cmd.wrap (.exec ws) (rs ++ rs'))

end

end BasicOS.Sh
