/-
# BasicOS.Sh.Correct — the parser accepts the grammar

A run of the parser within its bound either panics or has read a phrase of the grammar
and built the command that the derivation prescribes (`parse_sound`); the bound that
`parsecmd` sets is never reached.  Conversely the parser reads every phrase of the
grammar up to its end, if what follows can follow such a phrase (`parseline_complete`).
-/
import BasicOS.Sh.Lex

namespace BasicOS.Sh

set_option autoImplicit false

/-! ## Outcomes -/

/-- The parse does not reach its bound, and its result satisfies `P`. -/
def Yields {α : Type} (P : α → Prop) : Except Stop α → Prop
  | .ok a => P a
  | .error (.panic _) => True
  | .error .bound => False

section Outcomes

variable {α β : Type} {P : α → Prop} {Q : β → Prop} {x : Except Stop α}

theorem Yields.bind {f : α → Except Stop β} (h : Yields P x) (next : ∀ a, P a → Yields Q (f a)) :
    Yields Q (x.bind f) := by
  match x, h with
  | .ok a, h => exact next a h
  | .error (.panic _), _ => trivial

theorem Yields.map {f : α → β} (h : Yields P x) (next : ∀ a, P a → Q (f a)) :
    Yields Q (x.map f) := by
  match x, h with
  | .ok a, h => exact next a h
  | .error (.panic _), _ => trivial

end Outcomes

section Words

variable {S T : Type} (f : S → T)

theorem Cmd.map_wrap (cmd : Cmd S) (rs : List (Redir S)) :
    (cmd.wrap rs).map f = (cmd.map f).wrap (rs.map (Redir.map f)) := by
  induction rs generalizing cmd with
  | nil => rfl
  | cons r rs ih => exact ih (.redir cmd r)

theorem Cmd.mem_strings_wrap {cmd : Cmd S} {rs : List (Redir S)} {a : S} :
    a ∈ (cmd.wrap rs).strings ↔ a ∈ cmd.strings ∨ ∃ r ∈ rs, r.file = a := by
  induction rs generalizing cmd with
  | nil => simp [Cmd.wrap]
  | cons r rs ih =>
    show a ∈ (Cmd.wrap (.redir cmd r) rs).strings ↔ _
    rw [ih]
    simp [Cmd.strings, or_assoc, eq_comm]

end Words

/-! ## Looking ahead -/

section Look

variable {line : List UInt8} {s s' s'' : Ptr} {ts us : List Token}

/-- The tokens `ts` are read from `s`, up to `s'`. -/
structure Reads (line : List UInt8) (s : Ptr) (ts : List Token) (s' : Ptr) : Prop where
  split : tokens s = ts ++ tokens s'
  within : s' <:+ line

theorem Reads.skip (within : s <:+ line) : Reads line s [] (skip s) :=
  ⟨(tokens_skip s).symm, (skip_suffix s).trans within⟩

theorem Reads.trans (first : Reads line s ts s') (next : Reads line s' us s'') :
    Reads line s (ts ++ us) s'' :=
  ⟨by rw [first.split, next.split, List.append_assoc], next.within⟩

theorem Reads.length_le (h : Reads line s ts s') :
    (tokens s).length = ts.length + (tokens s').length := by
  rw [h.split, List.length_append]

variable (nonzero : 0 ∉ line) (within : s <:+ line)
include nonzero within

theorem Reads.token {tok : Token} (h : tokens s = tok :: ts) :
    Reads line s [tok] (gettoken s).s := by
  obtain ⟨taken, -⟩ := takes_cons nonzero within h
  exact ⟨taken.rest, taken.within⟩

theorem takes_of_peek {toks : List UInt8} (found : (peek s toks).1 = true) :
    ∃ tok, Takes line s tok ∧ strchr toks tok.first = true := by
  have more : skip s ≠ [] := by
    intro none_left
    rw [peek_nil none_left] at found
    cases found
  obtain ⟨tok, taken⟩ := takes nonzero within more
  rw [peek_cons nonzero within taken] at found
  exact ⟨tok, taken, found⟩

theorem peek_sym_iff {c : UInt8} (symbol : isSymbol c = true) (other : c ≠ gt) :
    (peek s [c]).1 = true ↔ ∃ ts, tokens s = .sym c :: ts := by
  constructor
  · intro found
    obtain ⟨tok, taken, found⟩ := takes_of_peek nonzero within found
    obtain same : tok.first = c := by simpa [strchr] using found
    have valid := taken.valid
    cases tok with
    | sym d =>
      obtain rfl : d = c := same
      exact ⟨_, taken.rest⟩
    | append => exact absurd same.symm other
    | word w =>
      obtain ⟨d, w', rfl, plain⟩ := valid
      obtain rfl : d = c := same
      simp [isPlain, symbol] at plain
  · rintro ⟨ts, h⟩
    obtain ⟨taken, -⟩ := takes_cons nonzero within h
    rw [peek_cons nonzero within taken]
    simp [strchr, Token.first]

theorem peek_sym_false {c : UInt8} (symbol : isSymbol c = true) (other : c ≠ gt)
    (absent : ¬ ∃ ts, tokens s = .sym c :: ts) : (peek s [c]).1 = false := by
  rw [← Bool.not_eq_true, peek_sym_iff nonzero within symbol other]
  exact absent

theorem peek_redir_iff : (peek s [lt, gt]).1 = true ↔
    ∃ tok ts mode fd, tokens s = tok :: ts ∧ RedirToken tok mode fd := by
  constructor
  · intro found
    obtain ⟨tok, taken, found⟩ := takes_of_peek nonzero within found
    have one_of : tok.first = lt ∨ tok.first = gt := by simpa [strchr] using found
    have valid := taken.valid
    cases tok with
    | sym c =>
      rcases one_of with same | same <;> obtain rfl := same
      · exact ⟨_, _, _, _, taken.rest, .input⟩
      · exact ⟨_, _, _, _, taken.rest, .output⟩
    | append => exact ⟨_, _, _, _, taken.rest, .append⟩
    | word w =>
      obtain ⟨c, w', rfl, plain⟩ := valid
      rcases one_of with same | same <;> obtain rfl := same <;> cases plain
  · rintro ⟨tok, ts, mode, fd, h, redirects⟩
    obtain ⟨taken, -⟩ := takes_cons nonzero within h
    rw [peek_cons nonzero within taken]
    cases redirects <;> rfl

/-- The tokens at which the loop of `parseexec` stops. -/
theorem peek_stop_iff : (peek s [bar, rpar, amp, semi]).1 = true ↔
    ∃ c ts, tokens s = .sym c :: ts ∧ c ∈ [bar, rpar, amp, semi] := by
  constructor
  · intro found
    obtain ⟨tok, taken, found⟩ := takes_of_peek nonzero within found
    have one_of : tok.first ∈ [bar, rpar, amp, semi] := by simpa [strchr] using found
    have valid := taken.valid
    cases tok with
    | sym c => exact ⟨c, _, taken.rest, one_of⟩
    | append => exact absurd found (by decide)
    | word w =>
      obtain ⟨c, w', rfl, plain⟩ := valid
      simp only [Token.first, List.headD_cons, List.mem_cons, List.not_mem_nil, or_false] at one_of
      rcases one_of with same | same | same | same <;> subst same <;> cases plain
  · rintro ⟨c, ts, h, mem⟩
    obtain ⟨taken, -⟩ := takes_cons nonzero within h
    rw [peek_cons nonzero within taken]
    simpa [strchr, Token.first] using mem

/-- `gettoken` returns `'a'` for words only. -/
theorem gettoken_word_iff : (gettoken s).ret = 97 ↔ ∃ w ts, tokens s = .word w :: ts := by
  constructor
  · intro word
    have more : skip s ≠ [] := by
      intro none_left
      simp [gettoken, none_left, scanToken] at word
    obtain ⟨tok, taken⟩ := takes nonzero within more
    rw [taken.code] at word
    have valid := taken.valid
    cases tok with
    | sym c =>
      obtain rfl : c = 97 := word
      cases valid
    | append => cases word
    | word w => exact ⟨w, _, taken.rest⟩
  · rintro ⟨w, ts, h⟩
    obtain ⟨taken, -⟩ := takes_cons nonzero within h
    exact taken.code

theorem gettoken_end_iff : (gettoken s).ret = 0 ↔ tokens s = [] := by
  constructor
  · intro ended
    by_contra more
    have more : skip s ≠ [] := fun none_left => more (tokens_skip_nil none_left)
    obtain ⟨tok, taken⟩ := takes nonzero within more
    rw [taken.code] at ended
    have valid := taken.valid
    cases tok with
    | sym c =>
      obtain rfl : c = 0 := ended
      cases valid
    | append => cases ended
    | word w => cases ended
  · intro ended
    rw [gettoken, skip_nil nonzero within ended]
    rfl

end Look

/-! ## What the parser has read -/

section Sound

variable {line : List UInt8} {s : Ptr}

/-- A phrase of the grammar was read, and the command is the one it prescribes. -/
def Parsed (line : List UInt8) (phrase : List Token → Cmd (List UInt8) → Prop) (s : Ptr)
    (r : Cmd Str × Ptr) : Prop :=
  ∃ ts, Reads line s ts r.2 ∧ phrase ts (r.1.map text) ∧ ∀ a ∈ r.1.strings, Good line a

/-- A parser is sound within a bound. -/
def Sound (line : List UInt8) (parser : Nat → Ptr → Parse (Cmd Str))
    (phrase : List Token → Cmd (List UInt8) → Prop) (slack n : Nat) : Prop :=
  ∀ s, s <:+ line → 4 * (tokens s).length + slack ≤ n → Yields (Parsed line phrase s) (parser n s)

variable (nonzero : 0 ∉ line)
include nonzero

theorem parseredirs_sound {n : Nat} (within : s <:+ line) (bound : (tokens s).length < n) :
    Yields (fun r : List (Redir Str) × Ptr => ∃ ts, Reads line s ts r.2 ∧
      Redirs ts (r.1.map (Redir.map text)) ∧ ∀ x ∈ r.1, Good line x.file) (parseredirs n s) := by
  induction n generalizing s with
  | zero => exact absurd bound (Nat.not_lt_zero _)
  | succ n ih =>
    rw [parseredirs]
    simp only [peek_rest, gettoken_skip]
    split
    · rename_i found
      obtain ⟨tok, ts, mode, fd, first, redirects⟩ := (peek_redir_iff nonzero within).mp found
      obtain ⟨taken, rest⟩ := takes_cons nonzero within first
      have read := Reads.token nonzero within first
      split
      · trivial
      · rename_i word
        obtain ⟨w, us, second⟩ :=
          (gettoken_word_iff nonzero read.within).mp (not_not.mp word)
        obtain ⟨taken', -⟩ := takes_cons nonzero read.within second
        have read' := Reads.token nonzero read.within second
        have spells := taken'.word w rfl
        have length := (read.trans read').length_le
        refine (ih read'.within (by simp at length; omega)).map fun r found => ?_
        obtain ⟨vs, reads, redirs, good⟩ := found
        have one : redircmd (gettoken s).ret (gettoken (gettoken s).s).str =
            [⟨(gettoken (gettoken s).s).str, mode, fd⟩] := by
          rw [taken.code]
          cases redirects <;> rfl
        refine ⟨tok :: .word w :: vs, (read.trans read').trans reads, ?_, ?_⟩
        · rw [one, List.singleton_append, List.map_cons, Redir.map, spells.text_eq]
          exact .cons redirects redirs
        · intro x mem
          rw [one, List.singleton_append] at mem
          rcases List.mem_cons.mp mem with rfl | mem
          · exact spells.good
          · exact good x mem
    · exact ⟨[], .skip within, .nil, nofun⟩

theorem parseargs_sound {n argc : Nat} (within : s <:+ line) (bound : (tokens s).length < n)
    (count : argc ≤ maxargs - 1) :
    Yields (fun r : (List Str × List (Redir Str)) × Ptr => ∃ ts, Reads line s ts r.2 ∧
      Words ts (r.1.1.map text) (r.1.2.map (Redir.map text)) ∧
      argc + r.1.1.length ≤ maxargs - 1 ∧ (∀ a ∈ r.1.1, Good line a) ∧
      ∀ x ∈ r.1.2, Good line x.file) (parseargs n argc s) := by
  induction n generalizing s argc with
  | zero => exact absurd bound (Nat.not_lt_zero _)
  | succ n ih =>
    rw [parseargs]
    simp only [peek_rest, gettoken_skip]
    split
    · exact ⟨[], .skip within, .nil, count, by simp, by simp⟩
    · split
      · rename_i ended
        have none_left := (gettoken_end_iff nonzero within).mp ended
        have at_end : (gettoken s).s = [] := by
          rw [gettoken, skip_nil nonzero within none_left]
          rfl
        rw [at_end]
        exact ⟨[], ⟨by rw [none_left, tokens_nil]; rfl, List.nil_suffix⟩, .nil, count, by simp,
          by simp⟩
      · split
        · trivial
        · rename_i word
          obtain ⟨w, ts, first⟩ := (gettoken_word_iff nonzero within).mp (not_not.mp word)
          obtain ⟨taken, -⟩ := takes_cons nonzero within first
          have read := Reads.token nonzero within first
          have spells := taken.word w rfl
          have length := read.length_le
          split
          · trivial
          · rename_i room
            refine (parseredirs_sound nonzero read.within (by simp at length; omega)).bind
              fun redirs found => ?_
            obtain ⟨us, reads, derives, good⟩ := found
            have length' := reads.length_le
            refine (ih reads.within (by simp at length; omega) (by omega)).map
              fun rest found => ?_
            obtain ⟨vs, reads', words, few, goodArgs, goodRedirs⟩ := found
            refine ⟨.word w :: (us ++ vs), read.trans (reads.trans reads'), ?_, ?_, ?_, ?_⟩
            · rw [List.map_cons, List.map_append, spells.text_eq]
              exact .cons derives words
            · rw [List.length_cons]
              omega
            · intro a mem
              rcases List.mem_cons.mp mem with rfl | mem
              · exact spells.good
              · exact goodArgs a mem
            · intro x mem
              rcases List.mem_append.mp mem with mem | mem
              · exact good x mem
              · exact goodRedirs x mem

theorem parsebacks_sound {n : Nat} {cmd : Cmd Str} (within : s <:+ line)
    (bound : (tokens s).length < n) :
    Yields (fun r : Cmd Str × Ptr => ∃ k, Reads line s (List.replicate k (.sym amp)) r.2 ∧
      r.1.map text = backs k (cmd.map text) ∧ r.1.strings = cmd.strings)
      (parsebacks n cmd s) := by
  induction n generalizing s cmd with
  | zero => exact absurd bound (Nat.not_lt_zero _)
  | succ n ih =>
    rw [parsebacks]
    simp only [peek_rest, gettoken_skip]
    split
    · rename_i found
      obtain ⟨ts, first⟩ := (peek_sym_iff nonzero within (by decide) (by decide)).mp found
      have read := Reads.token nonzero within first
      have length := read.length_le
      have rest := @ih _ (.back cmd) read.within (by simp at length; omega)
      match parsebacks n (.back cmd) (gettoken s).s, rest with
      | .ok r, ⟨k, reads, derives, same⟩ =>
        exact ⟨k + 1, read.trans reads, derives, same⟩
      | .error (.panic _), _ => trivial
    · exact ⟨0, .skip within, rfl, rfl⟩

theorem parseline_sound {n : Nat} (pipes : Sound line parsepipe Pipe 3 n)
    (lines : Sound line parseline Line 4 n) : Sound line parseline Line 4 (n + 1) := by
  intro s within bound
  rw [parseline]
  refine (pipes s within (by omega)).bind fun pipe found => ?_
  obtain ⟨ts, reads, derives, good⟩ := found
  have length := reads.length_le
  refine (parsebacks_sound nonzero reads.within (by omega)).bind fun cmd found => ?_
  obtain ⟨k, reads', mapped, same⟩ := found
  have length' := reads'.length_le
  rw [← same] at good
  simp only [peek_rest, gettoken_skip]
  split
  · rename_i found
    obtain ⟨us, first⟩ :=
      (peek_sym_iff nonzero reads'.within (by decide) (by decide)).mp found
    have read := Reads.token nonzero reads'.within first
    have length'' := read.length_le
    refine (lines _ read.within (by simp at length''; omega)).map fun right found => ?_
    obtain ⟨vs, reads'', derives', good'⟩ := found
    refine ⟨ts ++ List.replicate k (.sym amp) ++ .sym semi :: vs, ?_, ?_, ?_⟩
    · exact (reads.trans reads').trans (read.trans reads'')
    · rw [Cmd.map, mapped]
      exact .semi k derives derives'
    · intro a mem
      rcases List.mem_append.mp mem with mem | mem
      · exact good a mem
      · exact good' a mem
  · refine ⟨ts ++ List.replicate k (.sym amp), ?_, ?_, good⟩
    · have last := (reads.trans reads').trans (.skip reads'.within)
      rwa [List.append_nil] at last
    · rw [mapped]
      exact .last k derives

theorem parsepipe_sound {n : Nat} (execs : Sound line parseexec Exec 2 n)
    (pipes : Sound line parsepipe Pipe 3 n) : Sound line parsepipe Pipe 3 (n + 1) := by
  intro s within bound
  rw [parsepipe]
  refine (execs s within (by omega)).bind fun cmd found => ?_
  obtain ⟨ts, reads, derives, good⟩ := found
  have length := reads.length_le
  simp only [peek_rest, gettoken_skip]
  split
  · rename_i found
    obtain ⟨us, first⟩ :=
      (peek_sym_iff nonzero reads.within (by decide) (by decide)).mp found
    have read := Reads.token nonzero reads.within first
    have length' := read.length_le
    refine (pipes _ read.within (by simp at length'; omega)).map fun right found => ?_
    obtain ⟨vs, reads', derives', good'⟩ := found
    refine ⟨ts ++ .sym bar :: vs, reads.trans (read.trans reads'), ?_, ?_⟩
    · exact .bar derives derives'
    · intro a mem
      rcases List.mem_append.mp mem with mem | mem
      · exact good a mem
      · exact good' a mem
  · refine ⟨ts, ?_, .last derives, good⟩
    have last := reads.trans (.skip reads.within)
    rwa [List.append_nil] at last

theorem parseexec_sound {n : Nat} (blocks : Sound line parseblock Exec 1 n) :
    Sound line parseexec Exec 2 (n + 1) := by
  intro s within bound
  rw [parseexec]
  simp only [peek_rest]
  have start : Reads line s [] (skip s) := .skip within
  have length := start.length_le
  simp only [List.length_nil, Nat.zero_add] at length
  split
  · have block := blocks _ start.within (by omega)
    match parseblock n (skip s), block with
    | .ok r, ⟨ts, reads, derives, good⟩ => exact ⟨ts, start.trans reads, derives, good⟩
    | .error (.panic _), _ => trivial
  · refine (parseredirs_sound nonzero start.within (by omega)).bind fun redirs found => ?_
    obtain ⟨ts, reads, derives, good⟩ := found
    have length' := reads.length_le
    refine (parseargs_sound nonzero reads.within (by omega) (Nat.zero_le _)).map
      fun args found => ?_
    obtain ⟨us, reads', words, few, goodArgs, goodRedirs⟩ := found
    refine ⟨ts ++ us, start.trans (reads.trans reads'), ?_, ?_⟩
    · rw [Cmd.map_wrap, List.map_append, Cmd.map]
      exact .simple derives words (by simpa using few)
    · intro a mem
      rcases Cmd.mem_strings_wrap.mp mem with mem | ⟨r, listed, rfl⟩
      · exact goodArgs a mem
      · rcases List.mem_append.mp listed with listed | listed
        · exact good r listed
        · exact goodRedirs r listed

theorem parseblock_sound {n : Nat} (lines : Sound line parseline Line 4 n) :
    Sound line parseblock Exec 1 (n + 1) := by
  intro s within bound
  rw [parseblock]
  simp only [peek_rest, gettoken_skip]
  split
  · trivial
  · rename_i found
    replace found : (peek s [lpar]).1 = true := by simpa using found
    obtain ⟨ts, first⟩ := (peek_sym_iff nonzero within (by decide) (by decide)).mp found
    have read := Reads.token nonzero within first
    have length := read.length_le
    refine (lines _ read.within (by simp at length; omega)).bind fun cmd found => ?_
    obtain ⟨us, reads, derives, good⟩ := found
    have length' := reads.length_le
    split
    · trivial
    · rename_i found
      replace found : (peek cmd.2 [rpar]).1 = true := by simpa using found
      obtain ⟨vs, second⟩ :=
        (peek_sym_iff nonzero reads.within (by decide) (by decide)).mp found
      have read' := Reads.token nonzero reads.within second
      have length'' := read'.length_le
      refine (parseredirs_sound nonzero read'.within (by simp at length length''; omega)).map
        fun redirs found => ?_
      obtain ⟨xs, reads', redirects, good'⟩ := found
      refine ⟨.sym lpar :: (us ++ .sym rpar :: xs), ?_, ?_, ?_⟩
      · exact read.trans (reads.trans (read'.trans reads'))
      · rw [Cmd.map_wrap]
        exact .block derives redirects
      · intro a mem
        rcases Cmd.mem_strings_wrap.mp mem with mem | ⟨r, listed, rfl⟩
        · exact good a mem
        · exact good' r listed

theorem parse_sound (n : Nat) :
    Sound line parseline Line 4 n ∧ Sound line parsepipe Pipe 3 n ∧
      Sound line parseexec Exec 2 n ∧ Sound line parseblock Exec 1 n := by
  induction n with
  | zero =>
    refine ⟨?_, ?_, ?_, ?_⟩
    all_goals
      intro s _ bound
      exact absurd bound (Nat.not_succ_le_zero _)
  | succ n ih =>
    obtain ⟨lines, pipes, execs, blocks⟩ := ih
    exact ⟨parseline_sound nonzero pipes lines, parsepipe_sound nonzero execs pipes,
      parseexec_sound nonzero blocks, parseblock_sound nonzero lines⟩

end Sound

/-! ## Every phrase is read -/

section Complete

variable {line : List UInt8} {s : Ptr} {rest : List Token}

/-- What is left is nothing, or begins with one of these symbols. -/
def Follows (set : List UInt8) (rest : List Token) : Prop :=
  rest = [] ∨ ∃ c ts, rest = .sym c :: ts ∧ c ∈ set

theorem Follows.mono {set set' : List UInt8} (h : Follows set rest) (sub : set ⊆ set') :
    Follows set' rest := by
  rcases h with none_left | ⟨c, ts, first, mem⟩
  · exact .inl none_left
  · exact .inr ⟨c, ts, first, sub mem⟩

theorem Follows.not_sym {set : List UInt8} (h : Follows set rest) {c : UInt8} (other : c ∉ set) :
    ¬ ∃ ts, rest = .sym c :: ts := by
  rintro ⟨ts, rfl⟩
  rcases h with none_left | ⟨d, us, first, mem⟩
  · cases none_left
  · cases first
    exact other mem

/-- What is left does not begin with a redirection. -/
def Plain (rest : List Token) : Prop :=
  ¬ ∃ tok ts mode fd, rest = tok :: ts ∧ RedirToken tok mode fd

theorem Follows.plain (h : Follows [bar, rpar, amp, semi] rest) : Plain rest := by
  rintro ⟨tok, ts, mode, fd, rfl, redirects⟩
  rcases h with none_left | ⟨d, us, first, mem⟩
  · cases none_left
  · cases first
    cases redirects <;> revert mem <;> decide

theorem Words.plain {us : List Token} {ws : List (List UInt8)} {rs : List (Redir (List UInt8))}
    (words : Words us ws rs) (follows : Follows [bar, rpar, amp, semi] rest) :
    Plain (us ++ rest) := by
  cases words with
  | nil => exact follows.plain
  | cons _ _ =>
    rintro ⟨tok, ts, mode, fd, first, redirects⟩
    cases first
    cases redirects

/-- A parser reads a phrase that is followed by one of the symbols, or by nothing. -/
def Complete (line : List UInt8) (parser : Nat → Ptr → Parse (Cmd Str)) (slack : Nat)
    (set : List UInt8) (ts : List Token) (cmd : Cmd (List UInt8)) : Prop :=
  ∀ n s rest, s <:+ line → tokens s = ts ++ rest → Follows set rest →
    4 * ts.length + slack ≤ n →
    ∃ r, parser n s = .ok r ∧ tokens r.2 = rest ∧ r.2 <:+ line ∧ r.1.map text = cmd

variable (nonzero : 0 ∉ line)
include nonzero

theorem parseredirs_complete {ts : List Token} {rs : List (Redir (List UInt8))}
    (derives : Redirs ts rs) {n : Nat} (within : s <:+ line) (split : tokens s = ts ++ rest)
    (plain : Plain rest) (bound : ts.length < n) :
    ∃ r, parseredirs n s = .ok r ∧ tokens r.2 = rest ∧ r.2 <:+ line ∧
      r.1.map (Redir.map text) = rs := by
  induction derives generalizing n s with
  | nil =>
    obtain _ | n := n
    · omega
    have none_found : (peek s [lt, gt]).1 = false := by
      rw [← Bool.not_eq_true, peek_redir_iff nonzero within, split]
      exact plain
    refine ⟨([], skip s), ?_, ?_, (skip_suffix s).trans within, rfl⟩
    · simp only [parseredirs, none_found, peek_rest, Bool.false_eq_true, if_false]
    · rw [tokens_skip, split, List.nil_append]
  | @cons tok mode fd w ts rs redirects _ ih =>
    obtain _ | n := n
    · omega
    have found : (peek s [lt, gt]).1 = true :=
      (peek_redir_iff nonzero within).mpr ⟨tok, _, mode, fd, split, redirects⟩
    obtain ⟨taken, split'⟩ := takes_cons nonzero within split
    obtain ⟨taken', split''⟩ := takes_cons nonzero taken.within split'
    have word : (gettoken (gettoken s).s).ret = 97 := taken'.code
    simp only [List.length_cons] at bound
    obtain ⟨r, done, left, within', same⟩ := ih taken'.within split'' (by omega : ts.length < n)
    have one : redircmd (gettoken s).ret (gettoken (gettoken s).s).str =
        [⟨(gettoken (gettoken s).s).str, mode, fd⟩] := by
      rw [taken.code]
      cases redirects <;> rfl
    refine ⟨(redircmd (gettoken s).ret (gettoken (gettoken s).s).str ++ r.1, r.2), ?_, left,
      within', ?_⟩
    · simp only [parseredirs, found, peek_rest, gettoken_skip, if_true, word, ne_eq,
        not_true_eq_false, if_false, done]
      rfl
    · rw [one, List.singleton_append, List.map_cons, same, Redir.map, (taken'.word w rfl).text_eq]

theorem parseargs_complete {ts : List Token} {ws : List (List UInt8)}
    {rs : List (Redir (List UInt8))} (derives : Words ts ws rs) {n argc : Nat}
    (within : s <:+ line) (split : tokens s = ts ++ rest)
    (follows : Follows [bar, rpar, amp, semi] rest) (few : argc + ws.length ≤ maxargs - 1)
    (bound : ts.length < n) :
    ∃ r, parseargs n argc s = .ok r ∧ tokens r.2 = rest ∧ r.2 <:+ line ∧
      r.1.1.map text = ws ∧ r.1.2.map (Redir.map text) = rs := by
  induction derives generalizing n argc s with
  | nil =>
    obtain _ | n := n
    · omega
    rw [List.nil_append] at split
    rcases follows with none_left | ⟨c, ts, first, mem⟩
    · rw [none_left] at split ⊢
      have none_found : (peek s [bar, rpar, amp, semi]).1 = false :=
        peek_nil (skip_nil nonzero within split) _
      have ended : (gettoken s).ret = 0 := (gettoken_end_iff nonzero within).mpr split
      have at_end : (gettoken s).s = [] := by
        rw [gettoken, skip_nil nonzero within split]
        rfl
      refine ⟨(([], []), (gettoken s).s), ?_, ?_, ?_, rfl, rfl⟩
      · simp only [parseargs, none_found, peek_rest, gettoken_skip, ended, Bool.false_eq_true,
          if_false, if_true]
      · rw [at_end, tokens_nil]
      · rw [at_end]
        exact List.nil_suffix
    · have found : (peek s [bar, rpar, amp, semi]).1 = true :=
        (peek_stop_iff nonzero within).mpr ⟨c, ts, split.trans first, mem⟩
      refine ⟨(([], []), skip s), ?_, ?_, (skip_suffix s).trans within, rfl, rfl⟩
      · simp only [parseargs, found, peek_rest, if_true]
      · rw [tokens_skip, split]
  | @cons w ts us ws rs rs' redirs words ih =>
    obtain _ | n := n
    · omega
    rw [List.cons_append, List.append_assoc] at split
    have none_found : (peek s [bar, rpar, amp, semi]).1 = false := by
      rw [← Bool.not_eq_true, peek_stop_iff nonzero within, split]
      rintro ⟨c, vs, first, -⟩
      cases first
    obtain ⟨taken, split'⟩ := takes_cons nonzero within split
    have word : (gettoken s).ret = 97 := taken.code
    simp only [List.length_cons, List.length_append] at bound few
    obtain ⟨r, done, left, within', same⟩ := parseredirs_complete nonzero redirs taken.within
      split' (words.plain follows) (by omega : ts.length < n)
    obtain ⟨r', done', left', within'', args, redirs'⟩ := ih within' left
      (by omega : argc + 1 + ws.length ≤ maxargs - 1) (by omega : us.length < n)
    have room : ¬ argc + 1 ≥ maxargs := by
      simp only [maxargs] at few ⊢
      omega
    refine ⟨(((gettoken s).str :: r'.1.1, r.1 ++ r'.1.2), r'.2), ?_, left', within'', ?_, ?_⟩
    · simp only [parseargs, none_found, peek_rest, gettoken_skip, word, Bool.false_eq_true,
        if_false, ne_eq, not_true_eq_false, room, done, Except.bind, done']
      rfl
    · rw [List.map_cons, args, (taken.word w rfl).text_eq]
    · rw [List.map_append, same, redirs']

theorem parsebacks_complete {k n : Nat} (cmd : Cmd Str) (within : s <:+ line)
    (split : tokens s = List.replicate k (.sym amp) ++ rest)
    (other : ¬ ∃ ts, rest = .sym amp :: ts) (bound : k < n) :
    ∃ r, parsebacks n cmd s = .ok r ∧ tokens r.2 = rest ∧ r.2 <:+ line ∧
      r.1.map text = backs k (cmd.map text) := by
  induction k generalizing n s cmd with
  | zero =>
    obtain _ | n := n
    · omega
    have none_found : (peek s [amp]).1 = false :=
      peek_sym_false nonzero within (by decide) (by decide) (by rw [split]; exact other)
    refine ⟨(cmd, skip s), ?_, ?_, (skip_suffix s).trans within, rfl⟩
    · simp only [parsebacks, none_found, peek_rest, Bool.false_eq_true, if_false]
    · rw [tokens_skip, split]
      rfl
  | succ k ih =>
    obtain _ | n := n
    · omega
    rw [List.replicate_succ, List.cons_append] at split
    have found : (peek s [amp]).1 = true :=
      (peek_sym_iff nonzero within (by decide) (by decide)).mpr ⟨_, split⟩
    obtain ⟨taken, split'⟩ := takes_cons nonzero within split
    obtain ⟨r, done, left, within', same⟩ := ih (.back cmd) taken.within split' (by omega : k < n)
    refine ⟨r, ?_, left, within', same⟩
    simp only [parsebacks, found, peek_rest, gettoken_skip, if_true, done]

variable {ts us : List Token} {cmd right : Cmd (List UInt8)}

omit nonzero in
theorem follows_backs {k : Nat} {set : List UInt8} (h : Follows set rest) (sub : set ⊆ [semi, rpar]) :
    Follows [amp, semi, rpar] (List.replicate k (.sym amp) ++ rest) := by
  cases k with
  | zero => exact h.mono (List.Subset.trans sub (List.subset_cons_self _ _))
  | succ k => exact .inr ⟨amp, _, rfl, List.mem_cons_self⟩

theorem complete_line (k : Nat) (pipes : Complete line parsepipe 3 [amp, semi, rpar] ts cmd) :
    Complete line parseline 4 [rpar] (ts ++ List.replicate k (.sym amp)) (backs k cmd) := by
  intro n s rest within split follows bound
  obtain _ | n := n
  · omega
  rw [List.append_assoc] at split
  simp only [List.length_append, List.length_replicate] at bound
  obtain ⟨r, done, left, within', rfl⟩ := pipes n s _ within split
    (follows_backs follows (by decide)) (by omega)
  obtain ⟨r', done', left', within'', same⟩ := parsebacks_complete nonzero r.1 within' left
    (follows.not_sym (by decide)) (by omega : k < n)
  have none_found : (peek r'.2 [semi]).1 = false :=
    peek_sym_false nonzero within'' (by decide) (by decide)
      (by rw [left']; exact follows.not_sym (by decide))
  refine ⟨(r'.1, skip r'.2), ?_, ?_, (skip_suffix _).trans within'', same⟩
  · simp only [parseline, done, done', Except.bind, none_found, peek_rest, Bool.false_eq_true,
      if_false]
  · rw [tokens_skip, left']

theorem complete_line_semi (k : Nat)
    (pipes : Complete line parsepipe 3 [amp, semi, rpar] ts cmd)
    (lines : Complete line parseline 4 [rpar] us right) :
    Complete line parseline 4 [rpar] (ts ++ List.replicate k (.sym amp) ++ .sym semi :: us)
      (.list (backs k cmd) right) := by
  intro n s rest within split follows bound
  obtain _ | n := n
  · omega
  rw [List.append_assoc, List.append_assoc, List.cons_append] at split
  simp only [List.length_append, List.length_replicate, List.length_cons] at bound
  have next : Follows [semi] (.sym semi :: (us ++ rest)) :=
    .inr ⟨semi, _, rfl, List.mem_singleton_self _⟩
  obtain ⟨r, done, left, within', rfl⟩ := pipes n s _ within split
    (follows_backs next (by decide)) (by omega)
  obtain ⟨r', done', left', within'', same⟩ := parsebacks_complete nonzero r.1 within' left
    (next.not_sym (by decide)) (by omega : k < n)
  have found : (peek r'.2 [semi]).1 = true :=
    (peek_sym_iff nonzero within'' (by decide) (by decide)).mpr ⟨_, left'⟩
  obtain ⟨taken, split'⟩ := takes_cons nonzero within'' left'
  obtain ⟨x, done'', left'', inside, rfl⟩ := lines n _ rest taken.within split' follows (by omega)
  refine ⟨(.list r'.1 x.1, x.2), ?_, left'', inside, ?_⟩
  · simp only [parseline, done, done', Except.bind, found, peek_rest, gettoken_skip, if_true,
      done'']
    rfl
  · rw [Cmd.map, same]

theorem complete_pipe (execs : Complete line parseexec 2 [bar, amp, semi, rpar] ts cmd) :
    Complete line parsepipe 3 [amp, semi, rpar] ts cmd := by
  intro n s rest within split follows bound
  obtain _ | n := n
  · omega
  obtain ⟨r, done, left, within', same⟩ := execs n s rest within split
    (follows.mono (List.subset_cons_self _ _)) (by omega)
  have none_found : (peek r.2 [bar]).1 = false :=
    peek_sym_false nonzero within' (by decide) (by decide)
      (by rw [left]; exact follows.not_sym (by decide))
  refine ⟨(r.1, skip r.2), ?_, ?_, (skip_suffix _).trans within', same⟩
  · simp only [parsepipe, done, Except.bind, none_found, peek_rest, Bool.false_eq_true, if_false]
  · rw [tokens_skip, left]

theorem complete_pipe_bar (execs : Complete line parseexec 2 [bar, amp, semi, rpar] ts cmd)
    (pipes : Complete line parsepipe 3 [amp, semi, rpar] us right) :
    Complete line parsepipe 3 [amp, semi, rpar] (ts ++ .sym bar :: us) (.pipe cmd right) := by
  intro n s rest within split follows bound
  obtain _ | n := n
  · omega
  rw [List.append_assoc, List.cons_append] at split
  simp only [List.length_append, List.length_cons] at bound
  obtain ⟨r, done, left, within', rfl⟩ := execs n s _ within split
    (.inr ⟨bar, _, rfl, List.mem_cons_self⟩) (by omega)
  have found : (peek r.2 [bar]).1 = true :=
    (peek_sym_iff nonzero within' (by decide) (by decide)).mpr ⟨_, left⟩
  obtain ⟨taken, split'⟩ := takes_cons nonzero within' left
  obtain ⟨x, done', left', within'', rfl⟩ := pipes n _ rest taken.within split' follows (by omega)
  refine ⟨(.pipe r.1 x.1, x.2), ?_, left', within'', rfl⟩
  simp only [parsepipe, done, Except.bind, found, peek_rest, gettoken_skip, if_true, done']
  rfl

theorem complete_block {rs : List (Redir (List UInt8))}
    (lines : Complete line parseline 4 [rpar] ts cmd) (redirs : Redirs us rs) :
    Complete line parseexec 2 [bar, amp, semi, rpar] (.sym lpar :: (ts ++ .sym rpar :: us))
      (cmd.wrap rs) := by
  intro n s rest within split follows bound
  obtain ⟨n, rfl⟩ : ∃ m, n = m + 2 := ⟨n - 2, by omega⟩
  rw [List.cons_append, List.append_assoc, List.cons_append] at split
  simp only [List.length_append, List.length_cons] at bound
  have found : (peek s [lpar]).1 = true :=
    (peek_sym_iff nonzero within (by decide) (by decide)).mpr ⟨_, split⟩
  have again : (peek (skip s) [lpar]).1 = true :=
    (peek_sym_iff nonzero ((skip_suffix s).trans within) (by decide) (by decide)).mpr
      ⟨_, (tokens_skip s).trans split⟩
  obtain ⟨taken, split'⟩ := takes_cons nonzero within split
  obtain ⟨r, done, left, within', rfl⟩ := lines n _ _ taken.within split'
    (.inr ⟨rpar, _, rfl, List.mem_singleton_self _⟩) (by omega)
  have closed : (peek r.2 [rpar]).1 = true :=
    (peek_sym_iff nonzero within' (by decide) (by decide)).mpr ⟨_, left⟩
  obtain ⟨taken', split''⟩ := takes_cons nonzero within' left
  obtain ⟨x, done', left', within'', same⟩ := parseredirs_complete nonzero redirs taken'.within
    split'' (follows.mono (by decide)).plain (by omega : us.length < n)
  refine ⟨(r.1.wrap x.1, x.2), ?_, left', within'', ?_⟩
  · simp only [parseexec, parseblock, found, again, peek_rest, gettoken_skip, skip_skip, if_true,
      done, Except.bind, closed, Bool.true_eq_false, if_false, done']
    rfl
  · rw [Cmd.map_wrap, same]

theorem complete_simple {ws : List (List UInt8)} {rs rs' : List (Redir (List UInt8))}
    (redirs : Redirs ts rs) (words : Words us ws rs') (few : ws.length ≤ maxargs - 1) :
    Complete line parseexec 2 [bar, amp, semi, rpar] (ts ++ us)
      (Cmd.wrap (.exec ws) (rs ++ rs')) := by
  intro n s rest within split follows bound
  obtain _ | n := n
  · omega
  rw [List.append_assoc] at split
  simp only [List.length_append] at bound
  replace follows : Follows [bar, rpar, amp, semi] rest := follows.mono (by decide)
  have none_found : (peek s [lpar]).1 = false := by
    rw [← Bool.not_eq_true, peek_sym_iff nonzero within (by decide) (by decide), split]
    rintro ⟨vs, first⟩
    cases redirs with
    | nil =>
      cases words with
      | nil => exact follows.not_sym (by decide) ⟨vs, first⟩
      | cons _ _ => cases first
    | cons redirects _ =>
      cases first
      cases redirects
  have start : tokens (skip s) = ts ++ (us ++ rest) := by rw [tokens_skip, split]
  obtain ⟨r, done, left, within', same⟩ := parseredirs_complete nonzero redirs
    ((skip_suffix s).trans within) start (words.plain follows) (by omega : ts.length < n)
  obtain ⟨x, done', left', within'', args, redirs'⟩ := parseargs_complete nonzero words within'
    left follows (by omega : 0 + ws.length ≤ maxargs - 1) (by omega : us.length < n)
  refine ⟨(Cmd.wrap (.exec x.1.1) (r.1 ++ x.1.2), x.2), ?_, left', within'', ?_⟩
  · simp only [parseexec, none_found, peek_rest, Bool.false_eq_true, if_false, done, Except.bind,
      done']
    rfl
  · rw [Cmd.map_wrap, List.map_append, same, redirs', Cmd.map, args]

mutual

theorem parseline_complete {ts : List Token} {cmd : Cmd (List UInt8)} :
    Line ts cmd → Complete line parseline 4 [rpar] ts cmd
  | .last k pipe => complete_line nonzero k (parsepipe_complete pipe)
  | .semi k pipe rest =>
    complete_line_semi nonzero k (parsepipe_complete pipe) (parseline_complete rest)

theorem parsepipe_complete {ts : List Token} {cmd : Cmd (List UInt8)} :
    Pipe ts cmd → Complete line parsepipe 3 [amp, semi, rpar] ts cmd
  | .last exec => complete_pipe nonzero (parseexec_complete exec)
  | .bar exec rest =>
    complete_pipe_bar nonzero (parseexec_complete exec) (parsepipe_complete rest)

theorem parseexec_complete {ts : List Token} {cmd : Cmd (List UInt8)} :
    Exec ts cmd → Complete line parseexec 2 [bar, amp, semi, rpar] ts cmd
  | .block inner redirs => complete_block nonzero (parseline_complete inner) redirs
  | .simple redirs words few => complete_simple nonzero redirs words few

end

end Complete

/-! ## The parser -/

theorem length_tokens_le (s : Ptr) : (tokens s).length ≤ s.length := by
  induction s using tokens.induct with
  | case1 => simp [tokens_nil]
  | case2 c s space ih =>
    rw [tokens, if_pos space, List.length_cons]
    omega
  | case3 c s space twice ih =>
    rw [tokens, if_neg space, if_pos twice, List.length_cons, List.length_cons]
    have := List.length_tail (l := s)
    omega
  | case4 c s space twice symbol ih =>
    rw [tokens, if_neg space, if_neg twice, if_pos symbol, List.length_cons, List.length_cons]
    omega
  | case5 c s space twice symbol ih =>
    rw [tokens, if_neg space, if_neg twice, if_neg symbol, List.length_cons, List.length_cons]
    have := (List.dropWhile_suffix (l := s) isPlain).length_le
    omega

theorem Cmd.map_congr {S T : Type} {f g : S → T} {cmd : Cmd S}
    (same : ∀ a ∈ cmd.strings, f a = g a) : cmd.map f = cmd.map g := by
  induction cmd with
  | exec argv => exact congrArg Cmd.exec (List.map_congr_left same)
  | redir cmd r ih =>
    simp only [Cmd.strings, List.mem_append, List.mem_singleton] at same
    rw [Cmd.map, Cmd.map, ih fun a mem => same a (.inl mem), Redir.map, Redir.map,
      same r.file (.inr rfl)]
  | pipe left right ihl ihr | list left right ihl ihr =>
    simp only [Cmd.strings, List.mem_append] at same
    rw [Cmd.map, Cmd.map, ihl fun a mem => same a (.inl mem), ihr fun a mem => same a (.inr mem)]
  | back cmd ih => rw [Cmd.map, Cmd.map, ih same]

/-- The strings of the command that `parsecmd` returns are words of the line. -/
theorem parsecmd_good {s : List UInt8} (nonzero : 0 ∉ s) {r : Cmd Str × List UInt8}
    (parsed : parsecmd s = .ok r) :
    (∀ a ∈ r.1.strings, Good s a) ∧ r.2 = nulterminate s.length r.1 (s ++ [0]) := by
  have few := length_tokens_le s
  have sound := (parse_sound nonzero (4 * s.length + 4)).1 s List.suffix_rfl (by omega)
  rw [parsecmd] at parsed
  match line : parseline (4 * s.length + 4) s, sound with
  | .ok cmd, ⟨_, _, _, good⟩ =>
    rw [line] at parsed
    simp only [Except.bind] at parsed
    split at parsed
    · exact absurd parsed nofun
    · obtain rfl := Except.ok.inj parsed
      exact ⟨good, rfl⟩
  | .error _, _ =>
    rw [line] at parsed
    exact absurd parsed nofun

theorem parsecmd_strings {s : List UInt8} (nonzero : 0 ∉ s) {r : Cmd Str × List UInt8}
    (parsed : parsecmd s = .ok r) : r.1.map (cstring s.length r.2) = r.1.map text := by
  obtain ⟨good, memory⟩ := parsecmd_good nonzero parsed
  rw [memory]
  exact Cmd.map_congr fun a mem => cstring_nulterminate nonzero good mem

/-- The outcome of `parsecmd`. -/
theorem parsecmd_sound {s : List UInt8} (nonzero : 0 ∉ s) :
    Yields (fun r : Cmd Str × List UInt8 =>
      Line (tokens s) (r.1.map (cstring s.length r.2))) (parsecmd s) := by
  have few := length_tokens_le s
  refine ((parse_sound nonzero (4 * s.length + 4)).1 s List.suffix_rfl (by omega)).bind
    fun cmd found => ?_
  obtain ⟨ts, reads, derives, good⟩ := found
  split
  · trivial
  · rename_i ended
    have none_left : tokens cmd.2 = [] := by
      rw [← tokens_skip, ← peek_rest cmd.2 [], not_not.mp ended, tokens_nil]
    have strings : cmd.1.map (cstring s.length (nulterminate s.length cmd.1 (s ++ [0]))) =
        cmd.1.map text :=
      Cmd.map_congr fun a mem => cstring_nulterminate nonzero good mem
    show Line (tokens s) (cmd.1.map (cstring s.length (nulterminate s.length cmd.1 (s ++ [0]))))
    rw [strings, reads.split, none_left, List.append_nil]
    exact derives

/-- **The parser accepts the grammar.**  For a line of nonzero bytes, `parsecmd` returns
a command exactly if the tokens of the line are derivable, and it is the command that
the derivation prescribes, in the memory as `nulterminate` leaves it.  In every other
case it panics; it never reaches the bound on its recursion. -/
theorem parsecmd_grammar (s : List UInt8) (nonzero : 0 ∉ s) :
    (∀ cmd, Line (tokens s) cmd ↔
      ∃ r, parsecmd s = .ok r ∧ r.1.map (cstring s.length r.2) = cmd) ∧
    ((¬ ∃ cmd, Line (tokens s) cmd) → ∃ message, parsecmd s = .error (.panic message)) := by
  have sound := parsecmd_sound nonzero
  refine ⟨fun cmd => ⟨fun derives => ?_, ?_⟩, fun none_derived => ?_⟩
  · have few := length_tokens_le s
    obtain ⟨r, done, left, within, same⟩ := parseline_complete nonzero derives (4 * s.length + 4) s
      [] List.suffix_rfl (by rw [List.append_nil]) (.inl rfl) (by omega)
    have ended : (peek r.2 []).2 = [] := by rw [peek_rest, skip_nil nonzero within left]
    have parsed : parsecmd s = .ok (r.1, nulterminate s.length r.1 (s ++ [0])) := by
      rw [parsecmd, done]
      simp only [Except.bind, ended, ne_eq, not_true_eq_false, if_false]
    have good := (parse_sound nonzero (4 * s.length + 4)).1 s List.suffix_rfl (by omega)
    rw [done] at good
    obtain ⟨-, -, -, good⟩ := good
    refine ⟨_, parsed, ?_⟩
    rw [← same]
    exact Cmd.map_congr fun a mem => cstring_nulterminate nonzero good mem
  · rintro ⟨r, done, rfl⟩
    rw [done] at sound
    exact sound
  · match parsed : parsecmd s with
    | .ok r =>
      rw [parsed] at sound
      exact absurd ⟨_, sound⟩ none_derived
    | .error (.panic message) => exact ⟨message, rfl⟩
    | .error .bound =>
      rw [parsed] at sound
      exact absurd sound id

/-- `(a>>b)&;c`, by running the parser. -/
theorem block_in_background : 0 ∉ [lpar, 97, gt, gt, 98, rpar, amp, semi, 99] ∧
    Line (tokens [lpar, 97, gt, gt, 98, rpar, amp, semi, 99])
      (.list (.back (.redir (.exec [[97]]) ⟨[98], oWronly ||| oCreate, 1⟩)) (.exec [[99]])) :=
  ⟨by decide, ((parsecmd_grammar _ (by decide)).1 _).mpr ⟨_, rfl, rfl⟩⟩

/-- **The strings are terminated in place.**  Each string of the command is a word of the line, up
to the first byte that is not part of a word, and is that word when it is read from the memory
of the line.  The memory differs from the line at the ends of the strings only.  The command as
it is read is one that the tokens of the line derive, so that the words of each simple command
are its arguments. -/
theorem strings_terminated (s : List UInt8) (nonzero : 0 ∉ s) {cmd : Cmd Str} {mem : List UInt8}
    (parsed : parsecmd s = .ok (cmd, mem)) :
    (∀ a ∈ cmd.strings, ∃ w, Spells s a w ∧ cstring s.length mem a = w) ∧
    (∀ i ≤ s.length, mem[i]? =
      if ∃ a ∈ cmd.strings, s.length - a.eq.length = i then some 0 else (s ++ [0])[i]?) ∧
    Line (tokens s) (cmd.map (cstring s.length mem)) := by
  obtain ⟨good, memory⟩ := parsecmd_good nonzero parsed
  have derived := parsecmd_sound nonzero
  rw [parsed] at derived
  refine ⟨fun a among => ⟨text a, good a among, ?_⟩, fun i bound => ?_, derived⟩
  · rw [show mem = _ from memory]
    exact cstring_nulterminate nonzero good among
  · rw [show mem = _ from memory, nulterminate_eq]
    split
    · rename_i ends
      refine foldl_putEnd_get.1 ends ?_
      rw [List.length_append, List.length_singleton]
      omega
    · rename_i inside
      exact foldl_putEnd_get.2 fun a among here => inside ⟨a, among, here⟩

/-- `a<b|c>d`, without a space. -/
theorem strings_terminated_abutting : ∃ cmd mem,
    parsecmd [97, lt, 98, bar, 99, gt, 100] = .ok (cmd, mem) ∧
      mem = [97, 0, 98, 0, 99, 0, 100, 0] ∧
      cmd.map (cstring 7 mem) = .pipe (.redir (.exec [[97]]) ⟨[98], oRdonly, 0⟩)
        (.redir (.exec [[99]]) ⟨[100], oWronly ||| oCreate, 1⟩) ∧
      ∀ a ∈ cmd.strings, ∃ w, Spells [97, lt, 98, bar, 99, gt, 100] a w ∧ cstring 7 mem a = w :=
  ⟨_, _, rfl, rfl, rfl, (strings_terminated _ (by decide) rfl).1⟩

end BasicOS.Sh
