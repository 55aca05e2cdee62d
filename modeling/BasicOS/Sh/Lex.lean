/-
# BasicOS.Sh.Lex — peek and gettoken read the tokens of the line

`peek` looks at the first token, `gettoken` takes it, and for a word it stores where the
word begins and ends.  The ends of words are not characters of words, so that the zeros
that `nulterminate` stores leave every word as it was (`cstring_nulterminate`).
-/
import BasicOS.Sh.Grammar
import Mathlib.Data.List.TakeWhile

namespace BasicOS.Sh

set_option autoImplicit false

/-! ## Skipping -/

theorem skip_eq (s : Ptr) : skip s = s.dropWhile isSpace := by
  induction s with
  | nil => rfl
  | cons c s ih => rw [skip, List.dropWhile_cons, ih]; rfl

theorem skipWord_eq (s : Ptr) : skipWord s = s.dropWhile isPlain := by
  induction s with
  | nil => rfl
  | cons c s ih => rw [skipWord, List.dropWhile_cons, ih]; rfl

theorem skip_suffix (s : Ptr) : skip s <:+ s := by
  rw [skip_eq]
  exact List.dropWhile_suffix isSpace

theorem skip_skip (s : Ptr) : skip (skip s) = skip s := by
  induction s with
  | nil => rfl
  | cons c s ih =>
    by_cases space : strchr whitespace c = true
    · rw [skip, if_pos space, ih]
    · rw [skip, if_neg space, skip, if_neg space]

/-- What is left after skipping begins with another character. -/
theorem skip_head {s t : Ptr} {c : UInt8} (h : skip s = c :: t) : isSpace c = false := by
  by_contra space
  have again := skip_skip s
  rw [h, skip, if_pos (show strchr whitespace c = true from eq_true_of_ne_false space)]
    at again
  have shorter := (skip_suffix t).length_le
  rw [again, List.length_cons] at shorter
  omega

theorem tokens_nil : tokens [] = [] := by rw [tokens]

theorem tokens_skip (s : Ptr) : tokens (skip s) = tokens s := by
  induction s with
  | nil => rfl
  | cons c s ih =>
    rw [skip]
    split
    · rename_i space
      rw [ih, tokens, if_pos (show isSpace c = true from space)]
    · rfl

theorem tokens_skip_nil {s : Ptr} (h : skip s = []) : tokens s = [] := by
  rw [← tokens_skip, h, tokens_nil]

/-! ## The first token -/

namespace Token

/-- The first character. -/
def first : Token → UInt8
  | .sym c => c
  | .append => gt
  | .word w => w.headD 0

/-- What `gettoken` returns for it. -/
def code : Token → UInt8
  | .sym c => c
  | .append => 43
  | .word _ => 97

/-- The tokens of a line. -/
def Valid : Token → Prop
  | .sym c => isSymbol c = true
  | .append => True
  | .word w => ∃ c w', w = c :: w' ∧ isPlain c = true

end Token

/-- The string `a` is the word `w` of the line. -/
structure Spells (line : List UInt8) (a : Str) (w : List UInt8) : Prop where
  split : a.q = w ++ a.eq
  plain : ∀ c ∈ w, isPlain c = true
  stop : ∀ c, a.eq.head? = some c → isPlain c = false
  within : a.q <:+ line

/-- How `gettoken` takes a token from the line. -/
structure Takes (line : List UInt8) (s : Ptr) (tok : Token) : Prop where
  valid : tok.Valid
  head : (skip s).head? = some tok.first
  code : (gettoken s).ret = tok.code
  rest : tokens s = tok :: tokens (gettoken s).s
  within : (gettoken s).s <:+ line
  word : ∀ w, tok = .word w → Spells line (gettoken s).str w

theorem isSymbol_iff (c : UInt8) : isSymbol c = true ↔
    c = lt ∨ c = bar ∨ c = gt ∨ c = amp ∨ c = semi ∨ c = lpar ∨ c = rpar := by
  simp [isSymbol, symbols]

theorem isPlain_of {c : UInt8} (space : isSpace c = false) (symbol : ¬ isSymbol c = true) :
    isPlain c = true := by
  simp [isPlain, space, symbol]

section

variable {line : List UInt8} {s : Ptr}

theorem scanToken_gt (t : Ptr) :
    scanToken (gt :: t) = if t.head? = some gt then (43, t.tail) else (gt, t) := rfl

theorem gettoken_word {c : UInt8} {t : Ptr} (within : s <:+ line) (here : skip s = c :: t)
    (plain : isPlain c = true) (scans : scanToken (c :: t) = (97, skipWord (c :: t))) :
    Takes line s (.word (c :: t.takeWhile isPlain)) := by
  have space := skip_head here
  have symbol : ¬ isSymbol c = true := by
    intro symbol
    simp [isPlain, symbol] at plain
  have word_rest : skipWord (c :: t) = t.dropWhile isPlain := by
    rw [skipWord_eq, List.dropWhile_cons, if_pos plain]
  have got : gettoken s = ⟨97, ⟨c :: t, t.dropWhile isPlain⟩, skip (t.dropWhile isPlain)⟩ := by
    simp only [gettoken, here, scans, word_rest]
  have inside : c :: t <:+ line := by
    rw [← here]
    exact (skip_suffix s).trans within
  refine ⟨⟨c, _, rfl, plain⟩, by rw [here]; rfl, by rw [got]; rfl, ?_, ?_, ?_⟩
  · have not_append : ¬ (c = gt ∧ t.head? = some gt) := by
      rintro ⟨rfl, -⟩
      exact symbol (by decide)
    rw [got, tokens_skip, ← tokens_skip s, here, tokens, if_neg (by simp [space]),
      if_neg not_append, if_neg symbol]
  · rw [got]
    exact (skip_suffix _).trans ((List.dropWhile_suffix _).trans ((List.suffix_cons c t).trans inside))
  · intro w same
    cases same
    rw [got]
    refine ⟨?_, ?_, ?_, inside⟩
    · simp [List.takeWhile_append_dropWhile]
    · intro d mem
      rcases List.mem_cons.mp mem with rfl | mem
      · exact plain
      · exact List.mem_takeWhile_imp mem
    · intro d head
      by_contra plain'
      have := List.head?_dropWhile_not isPlain t
      rw [head] at this
      simp [plain'] at this

theorem gettoken_symbol {c : UInt8} {t rest : Ptr} {tok : Token} (within : s <:+ line)
    (here : skip s = c :: t) (scans : scanToken (c :: t) = (tok.code, rest)) (later : rest <:+ t)
    (valid : tok.Valid) (first : tok.first = c) (other : ∀ w, tok ≠ .word w)
    (lexes : tokens (c :: t) = tok :: tokens rest) : Takes line s tok := by
  have got : gettoken s = ⟨tok.code, ⟨c :: t, rest⟩, skip rest⟩ := by
    simp only [gettoken, here, scans]
  have inside : c :: t <:+ line := by
    rw [← here]
    exact (skip_suffix s).trans within
  refine ⟨valid, by rw [here, first]; rfl, by rw [got], ?_, ?_, fun w same => absurd same (other w)⟩
  · rw [got, tokens_skip, ← tokens_skip s, here, lexes]
  · rw [got]
    exact (skip_suffix _).trans (later.trans ((List.suffix_cons c t).trans inside))

/-- `gettoken` takes the first token of what is left. -/
theorem takes (nonzero : 0 ∉ line) (within : s <:+ line) (more : skip s ≠ []) :
    ∃ tok, Takes line s tok := by
  obtain ⟨c, t, here⟩ := List.exists_cons_of_ne_nil more
  have space := skip_head here
  have positive : c ≠ 0 := by
    rintro rfl
    have inside := ((skip_suffix s).trans within).subset
    exact nonzero (inside (by rw [here]; exact List.mem_cons_self))
  by_cases twice : c = gt ∧ t.head? = some gt
  · obtain ⟨rfl, next⟩ := twice
    refine ⟨.append, gettoken_symbol within here ?_ (List.tail_suffix t) trivial rfl
      (by rintro _ ⟨⟩) ?_⟩
    · rw [scanToken_gt, if_pos next]
      rfl
    · rw [tokens, if_neg (by simp [space]), if_pos ⟨rfl, next⟩]
  · by_cases symbol : isSymbol c = true
    · refine ⟨.sym c, gettoken_symbol within here ?_ List.suffix_rfl symbol rfl
        (by rintro _ ⟨⟩) ?_⟩
      · by_cases out : c = gt
        · have once : ¬ t.head? = some gt := fun next => twice ⟨out, next⟩
          subst out
          rw [scanToken_gt, if_neg once]
          rfl
        · have others : c = bar ∨ c = lpar ∨ c = rpar ∨ c = semi ∨ c = amp ∨ c = lt := by
            rcases (isSymbol_iff c).mp symbol with h | h | h | h | h | h | h <;> simp_all
          simp only [scanToken, if_neg positive, if_pos others, Token.code]
      · rw [tokens, if_neg (by simp [space]), if_neg twice, if_pos symbol]
    · refine ⟨_, gettoken_word within here (isPlain_of space symbol) ?_⟩
      have none_of : ¬ (c = bar ∨ c = lpar ∨ c = rpar ∨ c = semi ∨ c = amp ∨ c = lt) := by
        intro one_of
        refine symbol ((isSymbol_iff c).mpr ?_)
        rcases one_of with h | h | h | h | h | h <;> simp [h]
      have not_gt : c ≠ gt := by
        rintro rfl
        exact symbol (by decide)
      simp only [scanToken, if_neg positive, if_neg none_of, if_neg not_gt]

theorem takes_cons {tok : Token} {ts : List Token} (nonzero : 0 ∉ line) (within : s <:+ line)
    (h : tokens s = tok :: ts) : Takes line s tok ∧ tokens (gettoken s).s = ts := by
  have more : skip s ≠ [] := by
    intro none_left
    rw [tokens_skip_nil none_left] at h
    cases h
  obtain ⟨tok', taken⟩ := takes nonzero within more
  obtain ⟨rfl, rest⟩ := List.cons.inj (taken.rest.symm.trans h)
  exact ⟨taken, rest⟩

/-- At the end of the line. -/
theorem skip_nil (nonzero : 0 ∉ line) (within : s <:+ line) (h : tokens s = []) :
    skip s = [] := by
  by_contra more
  obtain ⟨tok, taken⟩ := takes nonzero within more
  rw [taken.rest] at h
  cases h

theorem gettoken_skip (s : Ptr) : gettoken (skip s) = gettoken s := by
  simp only [gettoken, skip_skip]

theorem peek_rest (s : Ptr) (toks : List UInt8) : (peek s toks).2 = skip s := by
  rw [peek]
  split <;> simp_all

theorem peek_nil (h : skip s = []) (toks : List UInt8) : (peek s toks).1 = false := by
  rw [peek, h]

theorem peek_cons (nonzero : 0 ∉ line) (within : s <:+ line) {tok : Token}
    (taken : Takes line s tok) (toks : List UInt8) :
    (peek s toks).1 = strchr toks tok.first := by
  have head := taken.head
  cases here : skip s with
  | nil => simp [here] at head
  | cons c t =>
    obtain rfl : c = tok.first := by simpa [here] using head
    have positive : tok.first ≠ 0 := by
      intro zero
      have inside := ((skip_suffix s).trans within).subset
      exact nonzero (inside (by rw [here, zero]; exact List.mem_cons_self))
    simp [peek, here, positive]

end

/-! ## The strings of a command -/

/-- The bytes of a string before it is terminated. -/
def text (a : Str) : List UInt8 :=
  a.q.take (a.q.length - a.eq.length)

/-- The string is a word of the line. -/
def Good (line : List UInt8) (a : Str) : Prop :=
  Spells line a (text a)

theorem Spells.text_eq {line : List UInt8} {a : Str} {w : List UInt8} (h : Spells line a w) :
    text a = w := by
  rw [text, h.split, List.length_append, Nat.add_sub_cancel, List.take_left]

theorem Spells.good {line : List UInt8} {a : Str} {w : List UInt8} (h : Spells line a w) :
    Good line a := by
  rw [Good, h.text_eq]
  exact h

theorem nulterminate_eq (n : Nat) (cmd : Cmd Str) (line : List UInt8) :
    nulterminate n cmd line = cmd.strings.foldl (putEnd n) line := by
  induction cmd generalizing line with
  | exec argv => rfl
  | redir cmd r ih => simp [nulterminate, Cmd.strings, ih]
  | pipe left right ihl ihr => simp [nulterminate, Cmd.strings, ihl, ihr]
  | list left right ihl ihr => simp [nulterminate, Cmd.strings, ihl, ihr]
  | back cmd ih => simp [nulterminate, Cmd.strings, ih]

/-- A byte is a zero at the end of a string, and otherwise as it was. -/
theorem foldl_putEnd_get {n i : Nat} {as : List Str} {bytes : List UInt8} :
    ((∃ a ∈ as, n - a.eq.length = i) → i < bytes.length →
      (as.foldl (putEnd n) bytes)[i]? = some 0) ∧
    ((∀ a ∈ as, n - a.eq.length ≠ i) → (as.foldl (putEnd n) bytes)[i]? = bytes[i]?) := by
  induction as generalizing bytes with
  | nil => exact ⟨nofun, fun _ => rfl⟩
  | cons a as ih =>
    have size : (putEnd n bytes a).length = bytes.length := List.length_set
    obtain ⟨ends, other⟩ := @ih (putEnd n bytes a)
    rw [size] at ends
    constructor
    · intro some_end inside
      rw [List.foldl_cons]
      by_cases later : ∃ b ∈ as, n - b.eq.length = i
      · exact ends later inside
      · obtain ⟨b, mem, here⟩ := some_end
        have first : b = a := by
          rcases List.mem_cons.mp mem with same | mem
          · exact same
          · exact absurd ⟨b, mem, here⟩ later
        rw [other fun b mem here => later ⟨b, mem, here⟩, putEnd, ← first, here,
          List.getElem?_set_self inside]
    · intro no_end
      rw [List.foldl_cons, other fun b mem => no_end b (List.mem_cons_of_mem _ mem), putEnd,
        List.getElem?_set_ne (no_end a List.mem_cons_self)]

theorem getElem?_suffix {e s : List UInt8} (h : e <:+ s) (j : Nat) :
    s[s.length - e.length + j]? = e[j]? := by
  obtain ⟨before, rfl⟩ := h
  rw [List.length_append, Nat.add_sub_cancel, List.getElem?_append_right (by omega)]
  congr 1
  omega

/-- A string that is followed by a zero. -/
theorem takeWhile_eq {w l : List UInt8} (nonzero : 0 ∉ w)
    (same : ∀ j, j < w.length → l[j]? = w[j]?) (ends : l[w.length]? = some 0) :
    l.takeWhile (· ≠ 0) = w := by
  induction w generalizing l with
  | nil =>
    cases l with
    | nil => simp at ends
    | cons c l =>
      obtain rfl : c = 0 := by simpa using ends
      rfl
  | cons d w ih =>
    cases l with
    | nil => simp at ends
    | cons c l =>
      obtain rfl : c = d := by simpa using same 0 (by simp)
      have positive : c ≠ 0 := fun zero => nonzero (by simp [zero])
      rw [List.takeWhile_cons_of_pos (by simpa using positive)]
      congr 1
      refine ih (fun mem => nonzero (List.mem_cons_of_mem _ mem)) (fun j inside => ?_) ?_
      · simpa using same (j + 1) (by simpa using inside)
      · simpa using ends

/-- After `nulterminate`, the string at `q` is the word that was found there. -/
theorem cstring_nulterminate {line : List UInt8} (nonzero : 0 ∉ line) {cmd : Cmd Str}
    (good : ∀ a ∈ cmd.strings, Good line a) {a : Str} (mem : a ∈ cmd.strings) :
    cstring line.length (nulterminate line.length cmd (line ++ [0])) a = text a := by
  obtain ⟨split, plain, stop, within⟩ := good a mem
  have eq_suffix : a.eq <:+ line := by
    refine List.IsSuffix.trans ?_ within
    rw [split]
    exact List.suffix_append _ _
  have length_q : a.q.length = (text a).length + a.eq.length := by
    rw [← List.length_append, ← split]
  have q_le := within.length_le
  rw [cstring, nulterminate_eq]
  apply takeWhile_eq
  · intro zero
    refine nonzero (within.subset ?_)
    rw [split]
    exact List.mem_append_left _ zero
  · -- no string ends within the word: the byte there is a character of a word
    intro j inside
    have byte := getElem?_suffix within j
    rw [split, List.getElem?_append_left inside, ← split] at byte
    have at_j : (text a)[j]? = some (text a)[j] := List.getElem?_eq_getElem inside
    rw [List.getElem?_drop, foldl_putEnd_get.2, List.getElem?_append_left (by omega), byte]
    intro b mem' ends
    obtain ⟨split', -, stop', within'⟩ := good b mem'
    have eq_suffix' : b.eq <:+ line := by
      refine List.IsSuffix.trans ?_ within'
      rw [split']
      exact List.suffix_append _ _
    have head : b.eq.head? = some (text a)[j] := by
      rw [← at_j, ← byte, ← ends, List.head?_eq_getElem?, ← getElem?_suffix eq_suffix' 0,
        Nat.add_zero]
    have := stop' _ head
    rw [plain _ (List.getElem_mem inside)] at this
    cases this
  · have here : line.length - a.q.length + (text a).length = line.length - a.eq.length := by
      have := eq_suffix.length_le
      omega
    rw [List.getElem?_drop, here]
    refine foldl_putEnd_get.1 ⟨a, mem, rfl⟩ ?_
    rw [List.length_append, List.length_singleton]
    omega

end BasicOS.Sh
