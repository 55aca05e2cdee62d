/-
# BasicOS.User.Match — the matcher of grep.c

A C string is the list of its characters before the NUL.  `matchhere` backtracks
over the text; `matchstar` is its loop for a starred character.

A pattern is read as a list of items and a mark for a final `$`, and the items
denote a language.  `matchIn_iff`: the matcher finds a match exactly where a
substring is in the language.
-/
import Mathlib.Computability.Language

namespace BasicOS.Grep

set_option autoImplicit false

/-! ## The code -/

abbrev star : UInt8 := 0x2A
abbrev dollar : UInt8 := 0x24
abbrev dot : UInt8 := 0x2E
abbrev caret : UInt8 := 0x5E

/-- `matchstar`: zero or more of `c`, and then what `here` looks for. -/
def matchstar (here : List UInt8 → Bool) (c : UInt8) : List UInt8 → Bool
  | [] => here []
  | x :: text => here (x :: text) || ((x == c || c == dot) && matchstar here c text)

/-- One character of the pattern, and then what `here` looks for. -/
def matchchar (here : List UInt8 → Bool) (c : UInt8) : List UInt8 → Bool
  | [] => false
  | x :: text => (c == dot || c == x) && here text

/-- `matchhere`: the pattern at the beginning of the text. -/
def matchhere : List UInt8 → List UInt8 → Bool
  | [], _ => true
  | [c], text => if c = dollar then text.isEmpty else matchchar (matchhere []) c text
  | c :: c' :: re, text =>
    if c' = star then matchstar (matchhere re) c text
    else matchchar (matchhere (c' :: re)) c text

/-- The loop of `match`. -/
def matchFrom (re : List UInt8) : List UInt8 → Bool
  | [] => matchhere re []
  | x :: text => matchhere re (x :: text) || matchFrom re text

/-- `match`: the pattern anywhere in the text. -/
def matchIn (re text : List UInt8) : Bool :=
  if re.head? = some caret then matchhere re.tail text else matchFrom re text

/-! ## The language -/

inductive Item where
  | one (c : UInt8)
  | many (c : UInt8)

/-- The items of a pattern, and whether it ends in a `$` that is none. -/
def parse : List UInt8 → List Item × Bool
  | [] => ([], false)
  | [c] => if c = dollar then ([], true) else ([.one c], false)
  | c :: c' :: re =>
    if c' = star then (.many c :: (parse re).1, (parse re).2)
    else (.one c :: (parse (c' :: re)).1, (parse (c' :: re)).2)

/-- The characters that `c` stands for. -/
def atom (c : UInt8) : Language UInt8 :=
  {w | ∃ x, w = [x] ∧ (c = dot ∨ c = x)}

def Item.lang : Item → Language UInt8
  | .one c => atom c
  | .many c => KStar.kstar (atom c)

def lang (items : List Item) : Language UInt8 :=
  (items.map Item.lang).prod

/-- What is left of the pattern after a `^` at its beginning. -/
def body (re : List UInt8) : List UInt8 :=
  if re.head? = some caret then re.tail else re

/-- A beginning of the text is in the language, the whole text if `ends`. -/
def Begins (l : Language UInt8) (ends : Bool) (text : List UInt8) : Prop :=
  ∃ sub post, text = sub ++ post ∧ sub ∈ l ∧ (ends = true → post = [])

/-! ## The matcher decides it -/

theorem mem_atom {c : UInt8} {w : List UInt8} : w ∈ atom c ↔ ∃ x, w = [x] ∧ (c = dot ∨ c = x) :=
  Iff.rfl

theorem begins_nil_lang {ends : Bool} {text : List UInt8} :
    Begins (lang []) ends text ↔ (ends = true → text = []) := by
  constructor
  · rintro ⟨sub, post, rfl, rfl, last⟩
    exact last
  · intro last
    exact ⟨[], text, rfl, rfl, last⟩

theorem begins_nothing (text : List UInt8) : Begins (lang []) false text :=
  begins_nil_lang.mpr nofun

/-- A character, and then the rest. -/
theorem begins_one {c : UInt8} {items : List Item} {ends : Bool} {text : List UInt8} :
    Begins (lang (.one c :: items)) ends text ↔
      ∃ x rest, text = x :: rest ∧ (c = dot ∨ c = x) ∧ Begins (lang items) ends rest := by
  simp only [Begins, lang, List.map_cons, List.prod_cons, Item.lang, Language.mem_mul, mem_atom]
  constructor
  · rintro ⟨_, post, rfl, ⟨_, ⟨x, rfl, stands⟩, sub, mem, rfl⟩, last⟩
    exact ⟨x, sub ++ post, rfl, stands, sub, post, rfl, mem, last⟩
  · rintro ⟨x, _, rfl, stands, sub, post, rfl, mem, last⟩
    exact ⟨x :: sub, post, rfl, ⟨[x], ⟨x, rfl, stands⟩, sub, mem, rfl⟩, last⟩

/-- No more of `c`, or one and then more. -/
theorem begins_many {c : UInt8} {items : List Item} {ends : Bool} {text : List UInt8} :
    Begins (lang (.many c :: items)) ends text ↔ Begins (lang items) ends text ∨
      ∃ x rest, text = x :: rest ∧ (c = dot ∨ c = x) ∧ Begins (lang (.many c :: items)) ends rest := by
  simp only [Begins, lang, List.map_cons, List.prod_cons, Item.lang, Language.mem_mul]
  constructor
  · rintro ⟨_, post, rfl, ⟨_, ⟨words, rfl, all⟩, sub, mem, rfl⟩, last⟩
    cases words with
    | nil => exact .inl ⟨sub, post, rfl, mem, last⟩
    | cons w words =>
      obtain ⟨x, rfl, stands⟩ := all w List.mem_cons_self
      refine .inr ⟨x, words.flatten ++ sub ++ post, rfl, stands, words.flatten ++ sub, post, rfl,
        ⟨words.flatten, ?_, sub, mem, rfl⟩, last⟩
      exact Language.join_mem_kstar fun y mem => all y (List.mem_cons_of_mem _ mem)
  · rintro (⟨sub, post, rfl, mem, last⟩ | ⟨x, _, rfl, stands, _, post, rfl, ⟨_, ⟨words, rfl, all⟩, sub,
      mem, rfl⟩, last⟩)
    · exact ⟨sub, post, rfl, ⟨[], Language.nil_mem_kstar _, sub, mem, rfl⟩, last⟩
    · refine ⟨x :: (words.flatten ++ sub), post, rfl, ⟨x :: words.flatten, ?_, sub, mem, rfl⟩, last⟩
      refine ⟨[x] :: words, rfl, fun y mem => ?_⟩
      rcases List.mem_cons.mp mem with rfl | mem
      · exact ⟨x, rfl, stands⟩
      · exact all y mem

theorem matchchar_iff {here : List UInt8 → Bool} {c : UInt8} {items : List Item} {ends : Bool}
    (decides : ∀ text, here text = true ↔ Begins (lang items) ends text) (text : List UInt8) :
    matchchar here c text = true ↔ Begins (lang (.one c :: items)) ends text := by
  rw [begins_one]
  cases text with
  | nil => simp [matchchar]
  | cons x text => simp [matchchar, decides]

/-- The loop tries every number of characters. -/
theorem matchstar_iff {here : List UInt8 → Bool} {c : UInt8} {items : List Item} {ends : Bool}
    (decides : ∀ text, here text = true ↔ Begins (lang items) ends text) (text : List UInt8) :
    matchstar here c text = true ↔ Begins (lang (.many c :: items)) ends text := by
  induction text with
  | nil =>
    rw [begins_many]
    simp [matchstar, decides]
  | cons x text ih =>
    rw [begins_many]
    simp only [matchstar, Bool.or_eq_true, Bool.and_eq_true, beq_iff_eq, decides, ih]
    refine or_congr_right ⟨?_, ?_⟩
    · rintro ⟨same, rest⟩
      exact ⟨x, text, rfl, same.symm.imp_right Eq.symm, rest⟩
    · rintro ⟨_, _, split, same, rest⟩
      obtain ⟨rfl, rfl⟩ := List.cons.inj split
      exact ⟨same.symm.imp_left Eq.symm, rest⟩

theorem matchhere_iff (re text : List UInt8) :
    matchhere re text = true ↔ Begins (lang (parse re).1) (parse re).2 text := by
  -- the pattern is consumed by the matcher as it is by `parse`
  induction re using parse.induct generalizing text with
  | case1 => exact ⟨fun _ => begins_nothing text, fun _ => rfl⟩
  | case2 =>
    simp only [matchhere, parse, if_true]
    rw [begins_nil_lang]
    simp
  | case3 c plain =>
    simp only [matchhere, parse, if_neg plain]
    exact matchchar_iff (fun rest => ⟨fun _ => begins_nothing rest, fun _ => rfl⟩) text
  | case4 c re ih =>
    simp only [matchhere, parse, if_true]
    exact matchstar_iff ih text
  | case5 c c' re plain ih =>
    simp only [matchhere, parse, if_neg plain]
    exact matchchar_iff ih text

/-- The loop tries every position of the text. -/
theorem matchFrom_iff {re text : List UInt8} : matchFrom re text = true ↔
    ∃ pre rest, text = pre ++ rest ∧ matchhere re rest = true := by
  induction text with
  | nil => simp [matchFrom]
  | cons x text ih =>
    simp only [matchFrom, Bool.or_eq_true, ih]
    constructor
    · rintro (here | ⟨pre, rest, rfl, later⟩)
      · exact ⟨[], x :: text, rfl, here⟩
      · exact ⟨x :: pre, rest, rfl, later⟩
    · rintro ⟨pre, rest, split, found⟩
      cases pre with
      | nil => exact .inl (split ▸ found)
      | cons y pre =>
        obtain ⟨-, rfl⟩ := List.cons.inj split
        exact .inr ⟨pre, rest, rfl, found⟩

/-- `match` returns 1 exactly when a substring, one at the beginning after a `^`, is in
the language of the pattern; a final `$` asks that it be at the end. -/
theorem matchIn_iff (re text : List UInt8) : matchIn re text = true ↔
    ∃ pre sub post, text = pre ++ sub ++ post ∧ (re.head? = some caret → pre = []) ∧
      sub ∈ lang (parse (body re)).1 ∧ ((parse (body re)).2 = true → post = []) := by
  unfold matchIn body
  by_cases anchored : re.head? = some caret
  · simp only [if_pos anchored, matchhere_iff, Begins]
    constructor
    · rintro ⟨sub, post, split, mem, last⟩
      exact ⟨[], sub, post, split, fun _ => rfl, mem, last⟩
    · rintro ⟨pre, sub, post, split, first, mem, last⟩
      rw [first anchored] at split
      exact ⟨sub, post, split, mem, last⟩
  · simp only [if_neg anchored, matchFrom_iff, matchhere_iff, Begins]
    constructor
    · rintro ⟨pre, _, rfl, sub, post, rfl, mem, last⟩
      exact ⟨pre, sub, post, (List.append_assoc ..).symm, fun no => absurd no anchored, mem, last⟩
    · rintro ⟨pre, sub, post, rfl, -, mem, last⟩
      exact ⟨pre, sub ++ post, List.append_assoc .., sub, post, rfl, mem, last⟩

/-- `a*$` in `baa`. -/
example : matchIn [0x61, star, dollar] [0x62, 0x61, 0x61] = true := by decide

end BasicOS.Grep
