/-
# BasicOS.Sh.Parse — the command parser of sh.c

`gettoken`, `peek` and the functions from `parsecmd` to `nulterminate`.  A pointer into
the command line is modelled by the bytes that follow it up to `es`, so that `es` itself
is the empty list; the bytes before `es` are not zero.  The strings of a command are
pairs of such pointers until `nulterminate` stores a zero at the end of each.

The recursion of the parser is bounded by a number that `parsecmd` sets from the length
of the line.  `panic` ends the parse with its message.  A loop of the source that runs
`gettoken` is a function of its own: `parsebacks` the one of `parseline`, `parseargs` the
one of `parseexec`.  In `parseexec` the commands that `parseredirs` wraps around the
`execcmd` are kept as a list until the arguments are complete, as the `execcmd` inside is
filled in after it is wrapped.
-/
import Mathlib.Algebra.GroupWithZero.Nat
import Mathlib.Data.List.Basic

namespace BasicOS.Sh

set_option autoImplicit false

/-! ## Characters -/

abbrev lt : UInt8 := 60
abbrev bar : UInt8 := 124
abbrev gt : UInt8 := 62
abbrev amp : UInt8 := 38
abbrev semi : UInt8 := 59
abbrev lpar : UInt8 := 40
abbrev rpar : UInt8 := 41

/-- `" \t\r\n\v"`. -/
def whitespace : List UInt8 := [32, 9, 13, 10, 11]

/-- `"<|>&;()"`. -/
def symbols : List UInt8 := [lt, bar, gt, amp, semi, lpar, rpar]

/-- `strchr(set, c) != 0`, for a set without zeros. -/
def strchr (set : List UInt8) (c : UInt8) : Bool :=
  set.contains c

/-! ## Commands -/

/-- A redirection: the file, the mode to open it with and the descriptor. -/
structure Redir (S : Type) where
  file : S
  mode : Nat
  fd : Nat
  deriving DecidableEq, Repr

def Redir.map {S T : Type} (f : S → T) (r : Redir S) : Redir T :=
  ⟨f r.file, r.mode, r.fd⟩

/-- `struct cmd`, with strings of type `S`. -/
inductive Cmd (S : Type) where
  | exec (argv : List S)
  | redir (cmd : Cmd S) (r : Redir S)
  | pipe (left right : Cmd S)
  | list (left right : Cmd S)
  | back (cmd : Cmd S)
  deriving DecidableEq, Repr

namespace Cmd

variable {S T : Type}

/-- The redirections in order of appearance, the first one innermost. -/
def wrap (cmd : Cmd S) (rs : List (Redir S)) : Cmd S :=
  rs.foldl Cmd.redir cmd

def map (f : S → T) : Cmd S → Cmd T
  | .exec argv => .exec (argv.map f)
  | .redir cmd r => .redir (cmd.map f) (r.map f)
  | .pipe left right => .pipe (left.map f) (right.map f)
  | .list left right => .list (left.map f) (right.map f)
  | .back cmd => .back (cmd.map f)

/-- The strings of a command, in the order of `nulterminate`. -/
def strings : Cmd S → List S
  | .exec argv => argv
  | .redir cmd r => cmd.strings ++ [r.file]
  | .pipe left right => left.strings ++ right.strings
  | .list left right => left.strings ++ right.strings
  | .back cmd => cmd.strings

end Cmd

def oRdonly : Nat := 0x000
def oWronly : Nat := 0x001
def oCreate : Nat := 0x200

def maxargs : Nat := 10

/-! ## Tokens -/

abbrev Ptr := List UInt8

/-- `while(s < es && strchr(whitespace, *s)) s++`. -/
def skip : Ptr → Ptr
  | [] => []
  | c :: s => if strchr whitespace c then skip s else c :: s

/-- `while(s < es && !strchr(whitespace, *s) && !strchr(symbols, *s)) s++`. -/
def skipWord : Ptr → Ptr
  | [] => []
  | c :: s => if !strchr whitespace c && !strchr symbols c then skipWord s else c :: s

/-- A string that is not yet terminated. -/
structure Str where
  q : Ptr
  eq : Ptr
  deriving DecidableEq, Repr

/-- What `gettoken` returns and stores: the kind of token, the token, and `*ps`. -/
structure Gotten where
  ret : UInt8
  str : Str
  s : Ptr
  deriving DecidableEq, Repr

/-- The switch of `gettoken`: a word is `'a'` and `>>` is `'+'`. -/
def scanToken : Ptr → UInt8 × Ptr
  | [] => (0, [])
  | c :: s =>
    if c = 0 then (0, c :: s)
    else if c = bar ∨ c = lpar ∨ c = rpar ∨ c = semi ∨ c = amp ∨ c = lt then (c, s)
    else if c = gt then
      if s.head? = some gt then (43, s.tail) else (c, s)
    else (97, skipWord (c :: s))

def gettoken (s : Ptr) : Gotten :=
  let q := skip s
  let tok := scanToken q
  ⟨tok.1, ⟨q, tok.2⟩, skip tok.2⟩

/-- The result of `peek`, and `*ps`. -/
def peek (s : Ptr) (toks : List UInt8) : Bool × Ptr :=
  match skip s with
  | [] => (false, [])
  | c :: s => (c ≠ 0 && strchr toks c, c :: s)

/-! ## The parser -/

inductive Stop where
  | panic (message : String)
  /-- The bound on the recursion is reached. -/
  | bound
  deriving DecidableEq, Repr

abbrev Parse (α : Type) := Except Stop (α × Ptr)

/-- The switch of `parseredirs`. -/
def redircmd (tok : UInt8) (file : Str) : List (Redir Str) :=
  if tok = lt then [⟨file, oRdonly, 0⟩]
  else if tok = gt then [⟨file, oWronly ||| oCreate, 1⟩]
  else if tok = 43 then [⟨file, oWronly ||| oCreate, 1⟩]
  else []

def parseredirs : Nat → Ptr → Parse (List (Redir Str))
  | 0, _ => .error .bound
  | n + 1, s =>
    let p := peek s [lt, gt]
    if p.1 then
      let tok := gettoken p.2
      let file := gettoken tok.s
      if file.ret ≠ 97 then .error (.panic "missing file for redirection")
      else (parseredirs n file.s).map fun rest =>
        (redircmd tok.ret file.str ++ rest.1, rest.2)
    else .ok ([], p.2)

/-- The loop of `parseexec` after `argc` arguments. -/
def parseargs : Nat → Nat → Ptr → Parse (List Str × List (Redir Str))
  | 0, _, _ => .error .bound
  | n + 1, argc, s =>
    let p := peek s [bar, rpar, amp, semi]
    if p.1 then .ok (([], []), p.2)
    else
      let tok := gettoken p.2
      if tok.ret = 0 then .ok (([], []), tok.s)
      else if tok.ret ≠ 97 then .error (.panic "syntax")
      else if argc + 1 ≥ maxargs then .error (.panic "too many args")
      else
        (parseredirs n tok.s).bind fun redirs =>
          (parseargs n (argc + 1) redirs.2).map fun rest =>
            ((tok.str :: rest.1.1, redirs.1 ++ rest.1.2), rest.2)

/-- The loop of `parseline`. -/
def parsebacks : Nat → Cmd Str → Ptr → Parse (Cmd Str)
  | 0, _, _ => .error .bound
  | n + 1, cmd, s =>
    let p := peek s [amp]
    if p.1 then parsebacks n (.back cmd) (gettoken p.2).s else .ok (cmd, p.2)

mutual

def parseline : Nat → Ptr → Parse (Cmd Str)
  | 0, _ => .error .bound
  | n + 1, s =>
    (parsepipe n s).bind fun pipe =>
      (parsebacks n pipe.1 pipe.2).bind fun cmd =>
        let p := peek cmd.2 [semi]
        if p.1 then
          (parseline n (gettoken p.2).s).map fun right => (.list cmd.1 right.1, right.2)
        else .ok (cmd.1, p.2)

def parsepipe : Nat → Ptr → Parse (Cmd Str)
  | 0, _ => .error .bound
  | n + 1, s =>
    (parseexec n s).bind fun cmd =>
      let p := peek cmd.2 [bar]
      if p.1 then
        (parsepipe n (gettoken p.2).s).map fun right => (.pipe cmd.1 right.1, right.2)
      else .ok (cmd.1, p.2)

def parseexec : Nat → Ptr → Parse (Cmd Str)
  | 0, _ => .error .bound
  | n + 1, s =>
    let p := peek s [lpar]
    if p.1 then parseblock n p.2
    else
      (parseredirs n p.2).bind fun redirs =>
        (parseargs n 0 redirs.2).map fun args =>
          (Cmd.wrap (.exec args.1.1) (redirs.1 ++ args.1.2), args.2)

def parseblock : Nat → Ptr → Parse (Cmd Str)
  | 0, _ => .error .bound
  | n + 1, s =>
    let p := peek s [lpar]
    if p.1 = false then .error (.panic "parseblock")
    else
      (parseline n (gettoken p.2).s).bind fun cmd =>
        let p := peek cmd.2 [rpar]
        if p.1 = false then .error (.panic "syntax - missing )")
        else
          (parseredirs n (gettoken p.2).s).map fun redirs =>
            (cmd.1.wrap redirs.1, redirs.2)

end

/-! ## The strings -/

/-- `*eq = 0`, in a line of `n` bytes. -/
def putEnd (n : Nat) (line : List UInt8) (a : Str) : List UInt8 :=
  line.set (n - a.eq.length) 0

def nulterminate (n : Nat) : Cmd Str → List UInt8 → List UInt8
  | .exec argv, line => argv.foldl (putEnd n) line
  | .redir cmd r, line => putEnd n (nulterminate n cmd line) r.file
  | .pipe left right, line => nulterminate n right (nulterminate n left line)
  | .list left right, line => nulterminate n right (nulterminate n left line)
  | .back cmd, line => nulterminate n cmd line

/-- `parsecmd` of a line of nonzero bytes: the command, and the memory of the line with
the byte after it. -/
def parsecmd (s : List UInt8) : Except Stop (Cmd Str × List UInt8) :=
  (parseline (4 * s.length + 4) s).bind fun cmd =>
    if (peek cmd.2 []).2 ≠ [] then .error (.panic "syntax")
    else .ok (cmd.1, nulterminate s.length cmd.1 (s ++ [0]))

/-- The string at `q`: the bytes up to the first zero. -/
def cstring (n : Nat) (line : List UInt8) (a : Str) : List UInt8 :=
  (line.drop (n - a.q.length)).takeWhile (· ≠ 0)

end BasicOS.Sh
