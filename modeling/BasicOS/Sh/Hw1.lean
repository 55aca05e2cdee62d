/-
# BasicOS.Sh.Hw1 — the command parser of the first homework's sh.c

The parser of the shell that runs on the host.  It has fewer symbols than the one of
BasicOS.Sh.Parse, no lists, blocks and background commands, and it copies a word where
the other one keeps two pointers into the line.  White space, `strchr` and `peek` are the
same in both programs and are taken from there, and so is the way in which a pointer is
the bytes that follow it.

`exit` ends the parse with the message that is printed before it.  Again the commands
that `parseredirs` wraps around the `execcmd` are kept as a list until its arguments are
complete, and a loop that runs `gettoken` is a function of its own.
-/
import BasicOS.Sh.Parse

namespace BasicOS.Sh.Hw1

set_option autoImplicit false

/-- `"<|>"`. -/
def symbols : List UInt8 := [lt, bar, gt]

/-! ## Commands -/

def oCreat : Nat := 0x40
def oTrunc : Nat := 0x200

inductive Cmd where
  | exec (argv : List (List UInt8))
  | redir (type : UInt8) (cmd : Cmd) (file : List UInt8) (mode : Nat) (fileDesc : Nat)
  | pipe (left right : Cmd)
  deriving DecidableEq, Repr

def redircmd (subcmd : Cmd) (file : List UInt8) (type : UInt8) : Cmd :=
  .redir type subcmd file (if type = lt then oRdonly else oWronly ||| oCreat ||| oTrunc)
    (if type = lt then 0 else 1)

/-- The calls of `redircmd` in order, each with its type and file. -/
def wrap (cmd : Cmd) (redirs : List (UInt8 × List UInt8)) : Cmd :=
  redirs.foldl (fun cmd r => redircmd cmd r.2 r.1) cmd

/-! ## Tokens -/

/-- `while (s < es && !strchr(whitespace, *s) && !strchr(symbols, *s)) s++`. -/
def skipWord : Ptr → Ptr
  | [] => []
  | c :: s => if !strchr whitespace c && !strchr symbols c then skipWord s else c :: s

/-- The switch of `gettoken`. -/
def scanToken : Ptr → UInt8 × Ptr
  | [] => (0, [])
  | c :: s =>
    if c = 0 then (0, c :: s)
    else if c = bar ∨ c = lt then (c, s)
    else if c = gt then (c, s)
    else (97, skipWord (c :: s))

def gettoken (s : Ptr) : Gotten :=
  let q := skip s
  let tok := scanToken q
  ⟨tok.1, ⟨q, tok.2⟩, skip tok.2⟩

/-- The characters from `s` up to `es`, of which none is zero. -/
def mkcopy (s es : Ptr) : List UInt8 :=
  s.take (s.length - es.length)

/-! ## The parser -/

inductive Stop where
  | exit (message : String)
  /-- `"leftovers: %s\n"`. -/
  | leftovers (s : Ptr)
  /-- The bound on the recursion is reached. -/
  | bound
  deriving DecidableEq, Repr

abbrev Parse (α : Type) := Except Stop (α × Ptr)

/-- The switch of `parseredirs`. -/
def redirOf (tok : UInt8) (file : Str) : List (UInt8 × List UInt8) :=
  if tok = lt then [(lt, mkcopy file.q file.eq)]
  else if tok = gt then [(gt, mkcopy file.q file.eq)]
  else []

def parseredirs : Nat → Ptr → Parse (List (UInt8 × List UInt8))
  | 0, _ => .error .bound
  | n + 1, s =>
    let p := peek s [lt, gt]
    if p.1 then
      let tok := gettoken p.2
      let file := gettoken tok.s
      if file.ret ≠ 97 then .error (.exit "missing file for redirection\n")
      else (parseredirs n file.s).map fun rest =>
        (redirOf tok.ret file.str ++ rest.1, rest.2)
    else .ok ([], p.2)

/-- The loop of `parseexec` after `argc` arguments. -/
def parseargs : Nat → Nat → Ptr → Parse (List (List UInt8) × List (UInt8 × List UInt8))
  | 0, _, _ => .error .bound
  | n + 1, argc, s =>
    let p := peek s [bar]
    if p.1 then .ok (([], []), p.2)
    else
      let tok := gettoken p.2
      if tok.ret = 0 then .ok (([], []), tok.s)
      else if tok.ret ≠ 97 then .error (.exit "syntax error\n")
      else if argc + 1 ≥ maxargs then .error (.exit "too many args\n")
      else
        (parseredirs n tok.s).bind fun redirs =>
          (parseargs n (argc + 1) redirs.2).map fun rest =>
            ((mkcopy tok.str.q tok.str.eq :: rest.1.1, redirs.1 ++ rest.1.2), rest.2)

def parseexec : Nat → Ptr → Parse Cmd
  | 0, _ => .error .bound
  | n + 1, s =>
    (parseredirs n s).bind fun redirs =>
      (parseargs n 0 redirs.2).map fun args =>
        (wrap (.exec args.1.1) (redirs.1 ++ args.1.2), args.2)

def parsepipe : Nat → Ptr → Parse Cmd
  | 0, _ => .error .bound
  | n + 1, s =>
    (parseexec n s).bind fun cmd =>
      let p := peek cmd.2 [bar]
      if p.1 then
        (parsepipe n (gettoken p.2).s).map fun right => (.pipe cmd.1 right.1, right.2)
      else .ok (cmd.1, p.2)

def parseline : Nat → Ptr → Parse Cmd
  | 0, _ => .error .bound
  | n + 1, s => parsepipe n s

/-- `parsecmd` of a line of nonzero bytes. -/
def parsecmd (s : List UInt8) : Except Stop Cmd :=
  (parseline (4 * s.length + 4) s).bind fun cmd =>
    let s := (peek cmd.2 []).2
    if s ≠ [] then .error (.leftovers s) else .ok cmd.1

end BasicOS.Sh.Hw1
