/-
# BasicOS.Sh.Agree — the two shells on their common language

On a line without the symbols that only one of the shells has, both parsers move their
pointers in the same way.  Every function of the one is therefore compared with the
function of that name of the other at the same pointer and the same bound (`Agrees`), from
the tokens (`gettoken_eq`) up to the pipes (`parsepipe_agrees`), and `shells_agree` adds
that the words which the one copies are the strings that the other terminates in place.
-/
import Mathlib.Data.List.Forall2
import BasicOS.Sh.Correct
import BasicOS.Sh.Hw1

namespace BasicOS.Sh.Hw1

set_option autoImplicit false

/-! ## The common language -/

/-- No symbol that only the other shell has, and no `>>`. -/
structure Common (s : Ptr) : Prop where
  known : ∀ c ∈ s, c ≠ amp ∧ c ≠ semi ∧ c ≠ lpar ∧ c ≠ rpar
  apart : ¬ [gt, gt] <:+: s

theorem Common.suffix {s t : Ptr} (common : Common s) (rest : t <:+ s) : Common t where
  known c mem := common.known c (rest.subset mem)
  apart twice := common.apart (twice.trans rest.isInfix)

theorem Common.skip {s : Ptr} (common : Common s) : Common (skip s) :=
  common.suffix (skip_suffix s)

theorem skipWord_suffix (s : Ptr) : Sh.skipWord s <:+ s := by
  rw [skipWord_eq]
  exact List.dropWhile_suffix _

theorem strchr_symbols {c : UInt8} (known : c ≠ amp ∧ c ≠ semi ∧ c ≠ lpar ∧ c ≠ rpar) :
    strchr symbols c = strchr Sh.symbols c := by
  obtain ⟨noAmp, noSemi, noLpar, noRpar⟩ := known
  simp [strchr, symbols, Sh.symbols, noAmp, noSemi, noLpar, noRpar]

/-! ## Tokens -/

theorem skipWord_same {s : Ptr} (common : Common s) : skipWord s = Sh.skipWord s := by
  induction s with
  | nil => rfl
  | cons c s ih =>
    rw [skipWord, Sh.skipWord, strchr_symbols (common.known c List.mem_cons_self),
      ih (common.suffix (List.suffix_cons c s))]

theorem scanToken_same {s : Ptr} (common : Common s) : scanToken s = Sh.scanToken s := by
  match s, common with
  | [], _ => rfl
  | c :: s, common =>
    obtain ⟨noAmp, noSemi, noLpar, noRpar⟩ := common.known c List.mem_cons_self
    have symbol : (c = bar ∨ c = lpar ∨ c = rpar ∨ c = semi ∨ c = amp ∨ c = lt) ↔
        (c = bar ∨ c = lt) := by
      simp [noAmp, noSemi, noLpar, noRpar]
    rw [scanToken, Sh.scanToken, skipWord_same common]
    simp only [symbol]
    by_cases output : c = gt
    · have single : s.head? ≠ some gt := by
        intro next
        obtain ⟨rest, rfl⟩ := List.head?_eq_some_iff.mp next
        exact common.apart (by rw [output]; exact ⟨[], rest, rfl⟩)
      rw [if_neg single]
    · simp only [if_neg output]

theorem scanToken_suffix (s : Ptr) : (Sh.scanToken s).2 <:+ s := by
  match s with
  | [] => exact List.suffix_rfl
  | c :: s =>
    rw [Sh.scanToken]
    split_ifs
    · exact List.suffix_rfl
    · exact List.suffix_cons c s
    · exact (List.tail_suffix s).trans (List.suffix_cons c s)
    · exact List.suffix_cons c s
    · exact skipWord_suffix _

theorem gettoken_same {s : Ptr} (common : Common s) : gettoken s = Sh.gettoken s := by
  rw [gettoken, Sh.gettoken, scanToken_same common.skip]

theorem Common.gettoken {s : Ptr} (common : Common s) : Common (Sh.gettoken s).s :=
  (common.skip.suffix (scanToken_suffix _)).skip

/-- A symbol that is not in the line is not found. -/
theorem peek_absent {s : Ptr} {toks : List UInt8} (absent : ∀ c ∈ s, c ∉ toks) :
    (peek s toks).1 = false := by
  have inside := (skip_suffix s).subset
  rw [peek]
  generalize skip s = r at inside
  cases r with
  | nil => rfl
  | cons c t =>
    have missing := absent c (inside List.mem_cons_self)
    simp [strchr, missing]

theorem peek_stop {s : Ptr} (common : Common s) :
    peek s [bar] = peek s [bar, rpar, amp, semi] := by
  have known := common.skip.known
  rw [peek, peek]
  generalize skip s = r at known
  cases r with
  | nil => rfl
  | cons c t =>
    obtain ⟨noAmp, noSemi, -, noRpar⟩ := known c List.mem_cons_self
    simp [strchr, noAmp, noSemi, noRpar]

/-! ## The same command -/

/-- The same direction, file and descriptor. -/
def SameRedir (type : UInt8) (file : List UInt8) (mode fileDesc : Nat)
    (r : Redir (List UInt8)) : Prop :=
  file = r.file ∧ fileDesc = r.fd ∧
    (type = lt ∧ mode = oRdonly ∧ r.mode = oRdonly ∨
      type = gt ∧ mode = oWronly ||| oCreat ||| oTrunc ∧ r.mode = oWronly ||| oCreate)

/-- The same tree: nodes of the same kinds with the same strings. -/
def Same : Cmd → Sh.Cmd (List UInt8) → Prop
  | .exec argv, .exec argv' => argv = argv'
  | .redir type cmd file mode fileDesc, .redir cmd' r =>
    Same cmd cmd' ∧ SameRedir type file mode fileDesc r
  | .pipe left right, .pipe left' right' => Same left left' ∧ Same right right'
  | _, _ => False

/-- What `redircmd` makes of a type and a file. -/
def SameWrap (a : UInt8 × List UInt8) (r : Redir Str) : Prop :=
  SameRedir a.1 a.2 (if a.1 = lt then oRdonly else oWronly ||| oCreat ||| oTrunc)
    (if a.1 = lt then 0 else 1) (r.map text)

theorem Same.wrap {cmd : Cmd} {cmd' : Sh.Cmd (List UInt8)} {redirs : List (UInt8 × List UInt8)}
    {redirs' : List (Redir Str)} (same : Same cmd cmd')
    (wraps : List.Forall₂ SameWrap redirs redirs') :
    Same (wrap cmd redirs) (cmd'.wrap (redirs'.map (Redir.map text))) := by
  induction wraps generalizing cmd cmd' with
  | nil => exact same
  | cons head _ ih => exact ih ⟨same, head⟩

theorem redirOf_same (tok : UInt8) (file : Str) (single : tok ≠ 43) :
    List.Forall₂ SameWrap (redirOf tok file) (Sh.redircmd tok file) := by
  rw [redirOf, Sh.redircmd]
  by_cases input : tok = lt
  · rw [if_pos input, if_pos input]
    exact .cons ⟨rfl, rfl, .inl ⟨rfl, rfl, rfl⟩⟩ .nil
  · rw [if_neg input, if_neg input]
    by_cases output : tok = gt
    · rw [if_pos output, if_pos output]
      exact .cons ⟨rfl, rfl, .inr ⟨rfl, rfl, rfl⟩⟩ .nil
    · rw [if_neg output, if_neg output, if_neg single]
      exact .nil

/-! ## Outcomes -/

/-- Both parses end with related results, both are given up with a message, or both reach
their bound. -/
def Agrees {α β : Type} (R : α → β → Prop) : Except Stop α → Except Sh.Stop β → Prop
  | .ok a, .ok b => R a b
  | .error .bound, .error .bound => True
  | .error (.exit _), .error (.panic _) => True
  | .error (.leftovers _), .error (.panic _) => True
  | _, _ => False

section Outcomes

variable {α β α' β' : Type} {R : α → β → Prop} {Q : α' → β' → Prop} {x : Except Stop α}
  {y : Except Sh.Stop β}

theorem Agrees.bind {f : α → Except Stop α'} {g : β → Except Sh.Stop β'} (h : Agrees R x y)
    (next : ∀ a b, R a b → Agrees Q (f a) (g b)) : Agrees Q (x.bind f) (y.bind g) := by
  match x, y, h with
  | .ok a, .ok b, h => exact next a b h
  | .error .bound, .error .bound, _ => trivial
  | .error (.exit _), .error (.panic _), _ => trivial
  | .error (.leftovers _), .error (.panic _), _ => trivial

theorem Agrees.map {f : α → α'} {g : β → β'} (h : Agrees R x y)
    (next : ∀ a b, R a b → Q (f a) (g b)) : Agrees Q (x.map f) (y.map g) := by
  match x, y, h with
  | .ok a, .ok b, h => exact next a b h
  | .error .bound, .error .bound, _ => trivial
  | .error (.exit _), .error (.panic _), _ => trivial
  | .error (.leftovers _), .error (.panic _), _ => trivial

end Outcomes

/-- Related values, with the same pointer into the rest of a line of the common language. -/
structure Reached {α β : Type} (R : α → β → Prop) (a : α × Ptr) (b : β × Ptr) : Prop where
  value : R a.1 b.1
  place : a.2 = b.2
  common : Common b.2

/-! ## The parsers -/

section Parsers

variable {s : Ptr}

theorem ret_single (common : Common s) : (Sh.gettoken s).ret ≠ 43 := by
  rw [← gettoken_same common, gettoken]
  dsimp only
  match skip s with
  | [] => decide
  | c :: t =>
    rw [scanToken]
    split_ifs with zero symbol output
    · exact (by decide : (0 : UInt8) ≠ 43)
    · rcases symbol with rfl | rfl
      · exact (by decide : bar ≠ 43)
      · exact (by decide : lt ≠ 43)
    · rw [output]
      exact (by decide : gt ≠ 43)
    · exact (by decide : (97 : UInt8) ≠ 43)

theorem parseredirs_agrees (n : Nat) (common : Common s) :
    Agrees (Reached (List.Forall₂ SameWrap)) (parseredirs n s) (Sh.parseredirs n s) := by
  induction n generalizing s with
  | zero => trivial
  | succ n ih =>
    rw [parseredirs, Sh.parseredirs]
    dsimp only
    rw [peek_rest, gettoken_same common.skip, gettoken_same common.skip.gettoken]
    have tail := ih common.skip.gettoken.gettoken
    split
    · split
      · trivial
      · exact tail.map fun a b reached =>
          ⟨List.rel_append (redirOf_same _ _ (ret_single common.skip)) reached.value, reached.place,
            reached.common⟩
    · exact ⟨.nil, rfl, common.skip⟩

/-- The arguments and the redirections of an `execcmd`. -/
def SameArgs (a : List (List UInt8) × List (UInt8 × List UInt8))
    (b : List Str × List (Redir Str)) : Prop :=
  a.1 = b.1.map text ∧ List.Forall₂ SameWrap a.2 b.2

theorem parseargs_agrees (n argc : Nat) (common : Common s) :
    Agrees (Reached SameArgs) (parseargs n argc s) (Sh.parseargs n argc s) := by
  induction n generalizing argc s with
  | zero => trivial
  | succ n ih =>
    rw [parseargs, Sh.parseargs]
    dsimp only
    rw [peek_stop common, peek_rest, gettoken_same common.skip]
    split
    · exact ⟨⟨rfl, .nil⟩, rfl, common.skip⟩
    split
    · exact ⟨⟨rfl, .nil⟩, rfl, common.skip.gettoken⟩
    split
    · trivial
    split
    · trivial
    refine (parseredirs_agrees n common.skip.gettoken).bind fun redirs redirs' reached => ?_
    rw [reached.place]
    refine (ih (argc + 1) reached.common).map fun rest rest' more => ?_
    obtain ⟨⟨words, wraps⟩, place, common⟩ := more
    exact ⟨⟨by rw [words]; rfl, List.rel_append reached.value wraps⟩, place, common⟩

/-- The command, and the one of the other parser with the words it found. -/
def SameTree (cmd : Cmd) (cmd' : Sh.Cmd Str) : Prop :=
  Same cmd (cmd'.map text)

theorem parseexec_agrees (n : Nat) (common : Common s) :
    Agrees (Reached SameTree) (parseexec n s) (Sh.parseexec n s) := by
  match n with
  | 0 => trivial
  | n + 1 =>
    have noBlock : (peek s [lpar]).1 = false :=
      peek_absent fun c mem => by simpa using (common.known c mem).2.2.1
    have skipped : parseredirs n s = parseredirs n (skip s) := by
      match n with
      | 0 => rfl
      | n + 1 => rw [parseredirs, parseredirs, peek, peek, skip_skip]
    rw [parseexec, Sh.parseexec, skipped]
    simp only [noBlock, peek_rest, Bool.false_eq_true, if_false]
    refine (parseredirs_agrees n common.skip).bind fun redirs redirs' reached => ?_
    rw [reached.place]
    refine (parseargs_agrees n 0 reached.common).map fun args args' more => ?_
    obtain ⟨⟨words, wraps⟩, place, common⟩ := more
    refine ⟨?_, place, common⟩
    show Same _ ((Sh.Cmd.wrap _ _).map text)
    rw [Cmd.map_wrap]
    exact Same.wrap words (List.rel_append reached.value wraps)

theorem parsepipe_agrees (n : Nat) (common : Common s) :
    Agrees (Reached SameTree) (parsepipe n s) (Sh.parsepipe n s) := by
  induction n generalizing s with
  | zero => trivial
  | succ n ih =>
    rw [parsepipe, Sh.parsepipe]
    refine (parseexec_agrees n common).bind fun cmd cmd' reached => ?_
    rw [reached.place]
    dsimp only
    rw [peek_rest, gettoken_same reached.common.skip]
    split
    · exact (ih reached.common.skip.gettoken).map fun right right' more =>
        ⟨⟨reached.value, more.value⟩, more.place, more.common⟩
    · exact ⟨reached.value, rfl, reached.common.skip⟩

/-- The loop over `&` and the test for `;` move the other parser over white space only. -/
theorem parseline_agrees (n : Nat) (common : Common s) :
    Agrees (fun a b => SameTree a.1 b.1 ∧ skip a.2 = skip b.2) (parseline n s)
      (Sh.parseline n s) := by
  obtain _ | _ | n := n
  · trivial
  · trivial
  have ends : (parsepipe (n + 1) s).bind .ok = parsepipe (n + 1) s := by
    cases parsepipe (n + 1) s <;> rfl
  rw [parseline, Sh.parseline, ← ends]
  refine (parsepipe_agrees (n + 1) common).bind fun cmd cmd' piped => ?_
  have noAmp : (peek cmd'.2 [amp]).1 = false :=
    peek_absent fun c mem => by simpa using (piped.common.known c mem).1
  have noSemi : (peek (skip cmd'.2) [semi]).1 = false :=
    peek_absent fun c mem => by simpa using (piped.common.skip.known c mem).2.1
  simp only [Except.bind, Sh.parsebacks, noAmp, peek_rest, noSemi, Bool.false_eq_true,
    if_false, skip_skip]
  exact ⟨piped.value, by rw [piped.place, skip_skip]⟩

end Parsers

/-! ## The shells -/

/-- The outcome of `parsecmd` in both, the strings of the other one being the words that it
found. -/
theorem parsecmd_agrees (line : List UInt8) (common : Common line) :
    Agrees (fun cmd (r : Sh.Cmd Str × List UInt8) => SameTree cmd r.1) (parsecmd line)
      (Sh.parsecmd line) := by
  refine (parseline_agrees _ common).bind fun cmd cmd' reached => ?_
  obtain ⟨same, place⟩ := reached
  dsimp only
  rw [peek_rest, peek_rest, place]
  split
  · trivial
  · exact same

/-- **The two shells agree on their common language.**  On a line of nonzero bytes without
`&`, `;`, `(`, `)` and `>>`, either both parsers return a command, and it is the same tree
once `nulterminate` has ended the strings of the second one; or both give the line up with
a message.  Neither reaches the bound on its recursion. -/
theorem shells_agree (line : List UInt8) (nonzero : 0 ∉ line)
    (known : ∀ c ∈ line, c ≠ amp ∧ c ≠ semi ∧ c ≠ lpar ∧ c ≠ rpar)
    (apart : ¬ [gt, gt] <:+: line) :
    (∃ cmd r, parsecmd line = .ok cmd ∧ Sh.parsecmd line = .ok r ∧
      Same cmd (r.1.map (cstring line.length r.2))) ∨
    (∃ stop message, parsecmd line = .error stop ∧ stop ≠ .bound ∧
      Sh.parsecmd line = .error (.panic message)) := by
  have agrees := parsecmd_agrees line ⟨known, apart⟩
  have sound := parsecmd_sound nonzero
  match parsed : parsecmd line, parsed' : Sh.parsecmd line with
  | .ok cmd, .ok r =>
    rw [parsed, parsed'] at agrees
    refine .inl ⟨cmd, r, rfl, rfl, ?_⟩
    rw [parsecmd_strings nonzero parsed']
    exact agrees
  | .error .bound, .error .bound =>
    rw [parsed'] at sound
    exact absurd sound id
  | .error (.exit first), .error (.panic message) =>
    exact .inr ⟨.exit first, message, rfl, nofun, rfl⟩
  | .error (.leftovers s), .error (.panic message) =>
    exact .inr ⟨.leftovers s, message, rfl, nofun, rfl⟩
  | .ok _, .error _ | .error .bound, .ok _ | .error (.exit _), .ok _ =>
    rw [parsed, parsed'] at agrees
    exact absurd agrees id
  | .error (.leftovers _), .ok _ | .error .bound, .error (.panic _)
  | .error (.exit _), .error .bound | .error (.leftovers _), .error .bound =>
    rw [parsed, parsed'] at agrees
    exact absurd agrees id

/-- `a <b|c`. -/
theorem redirected_pipe : ∃ cmd r, parsecmd [97, 32, lt, 98, bar, 99] = .ok cmd ∧
    Sh.parsecmd [97, 32, lt, 98, bar, 99] = .ok r ∧ Same cmd (r.1.map (cstring 6 r.2)) := by
  have known : ∀ c ∈ [97, 32, lt, 98, bar, 99], c ≠ amp ∧ c ≠ semi ∧ c ≠ lpar ∧ c ≠ rpar := by
    decide +kernel
  rcases shells_agree [97, 32, lt, 98, bar, 99] (by decide) known (by decide) with
    both | ⟨_, _, rejected, _, _⟩
  · exact both
  · exact absurd rejected nofun

end BasicOS.Sh.Hw1
