/-
# BasicOS.Spec.LineDiscipline — what the console's input is for

Characters are typed into a line.  Backspace takes the last one back and the kill
character takes back the line; a newline, a control-D, or the last character there is
room for commits the line, which from then on cannot be edited.  Readers take the
committed characters in order, each once.  A control-D that a reader comes to ends its
read if it has got something, and otherwise is used up and gives the end of input.

`Line` has the committed characters as one list that only grows, and the number of
those taken.  The console's ring holds the ones between (`Holds`), and every step of
the console is this system's step with the same results (`console_discipline`).
-/
import BasicOS.Dev.Console
import BasicOS.Lib.Ring

namespace BasicOS.Console

open Lib Function

set_option autoImplicit false
set_option linter.unusedSectionVars false

structure Line where
  /-- The characters committed since the start. -/
  committed : List UInt8
  /-- How many of them readers have used up. -/
  taken : Nat
  /-- The line that is being edited. -/
  line : List UInt8
  received : List Item

namespace Line

/-- The characters typed and not yet taken. -/
def level (l : Line) : Nat :=
  l.committed.length + l.line.length - l.taken

def commit (l : Line) : Line :=
  { l with committed := l.committed ++ l.line, line := [] }

def type (l : Line) (c : UInt8) : Line × Bool :=
  match keyOf c with
  | .procdump => (l, false)
  | .killLine => ({ l with line := [] }, false)
  | .backspace => ({ l with line := l.line.dropLast }, false)
  | .other c =>
    if c ≠ 0 ∧ l.level < inputBuf then
      let l := { l with line := l.line ++ [cook c] }
      if cook c = newline ∨ cook c = ctlD ∨ l.level = inputBuf then (l.commit, true)
      else (l, false)
    else (l, false)

def typeAll : List UInt8 → Line → Line × List Unit
  | [], l => (l, [])
  | c :: chars, l =>
    let now := l.type c
    let rest := typeAll chars now.1
    (rest.1, if now.2 then () :: rest.2 else rest.2)

/-- Take the next committed character. -/
def take (l : Line) (item : Item) : Line :=
  { l with taken := l.taken + 1, received := l.received ++ [item] }

def read (killed : Bool) : Nat → List UInt8 → Line → Stretch Line Task Unit
  | 0, got, l => ⟨l, [], .returned (some got), none⟩
  | n + 1, got, l =>
    match l.committed[l.taken]? with
    | none =>
      if killed then ⟨l, [], .returned none, none⟩
      else ⟨l, [], .reading (n + 1) got, some ()⟩
    | some c =>
      if c = ctlD then
        if got ≠ [] then ⟨l, [], .returned (some got), none⟩
        else ⟨l.take .eof, [], .returned (some []), none⟩
      else if c = newline then ⟨l.take (.data c), [], .returned (some (got ++ [c])), none⟩
      else read killed n (got ++ [c]) (l.take (.data c))

end Line

def lineMonitor : Monitor Line Task Unit Act where
  body a killed task l :=
    match a, task with
    | .consoleintr chars, .idle =>
      let after := l.typeAll chars
      some ⟨after.1, after.2, .idle, none⟩
    | .go, .reading n got => some (l.read killed n got)
    | _, _ => none
  free a task l := (unlocked a task).map fun task => (task, l)

def lineInit {P : Type} : MState P Line Task Unit :=
  MState.init ⟨[], 0, [], []⟩ .idle

/-! ## Readers are given the committed characters, in order -/

/-- What a committed character is to its reader. -/
def Item.of (c : UInt8) : Item :=
  if c = ctlD then .eof else .data c

namespace Line

/-- What was given to readers is what was taken. -/
structure Ordered (l : Line) : Prop where
  behind : l.taken ≤ l.committed.length
  received : l.received = (l.committed.take l.taken).map Item.of

/-- What is committed stays, and what is taken stays taken. -/
structure Grows (l l' : Line) : Prop where
  committed : l.committed <+: l'.committed
  taken : l.taken ≤ l'.taken

variable {l l' l'' : Line}

theorem Grows.refl (l : Line) : Grows l l :=
  ⟨List.prefix_rfl, Nat.le_refl _⟩

theorem Grows.trans (first : Grows l l') (next : Grows l' l'') : Grows l l'' :=
  ⟨first.committed.trans next.committed, Nat.le_trans first.taken next.taken⟩

theorem Ordered.extend (h : Ordered l) (grown : l.committed <+: l'.committed)
    (taken : l'.taken = l.taken) (received : l'.received = l.received) : Ordered l' := by
  obtain ⟨more, grown⟩ := grown
  refine ⟨?_, ?_⟩
  · rw [taken, ← grown, List.length_append]
    exact Nat.le_add_right_of_le h.behind
  · rw [received, taken, ← grown, List.take_append_of_le_length h.behind]
    exact h.received

theorem Ordered.take (h : Ordered l) {c : UInt8} (next : l.committed[l.taken]? = some c) :
    Ordered (l.take (Item.of c)) := by
  obtain ⟨inside, -⟩ := List.getElem?_eq_some_iff.mp next
  refine ⟨inside, ?_⟩
  show l.received ++ [Item.of c] = (l.committed.take (l.taken + 1)).map Item.of
  rw [List.take_add_one, next, h.received, Option.toList_some, List.map_append, List.map_singleton]

/-- Typing gives nothing to a reader and takes nothing back that is committed. -/
theorem type_grows (l : Line) (c : UInt8) :
    l.committed <+: (l.type c).1.committed ∧ (l.type c).1.taken = l.taken ∧
      (l.type c).1.received = l.received := by
  rw [type]
  split
  · exact ⟨List.prefix_rfl, rfl, rfl⟩
  · exact ⟨List.prefix_rfl, rfl, rfl⟩
  · exact ⟨List.prefix_rfl, rfl, rfl⟩
  · split
    · simp only
      split
      · exact ⟨List.prefix_append _ _, rfl, rfl⟩
      · exact ⟨List.prefix_rfl, rfl, rfl⟩
    · exact ⟨List.prefix_rfl, rfl, rfl⟩

theorem typeAll_grows (chars : List UInt8) (l : Line) :
    l.committed <+: (l.typeAll chars).1.committed ∧ (l.typeAll chars).1.taken = l.taken ∧
      (l.typeAll chars).1.received = l.received := by
  induction chars generalizing l with
  | nil => exact ⟨List.prefix_rfl, rfl, rfl⟩
  | cons c chars ih =>
    obtain ⟨grown, taken, received⟩ := l.type_grows c
    obtain ⟨grown', taken', received'⟩ := ih (l.type c).1
    exact ⟨grown.trans grown', taken'.trans taken, received'.trans received⟩

/-- The result of a stretch of `consoleread`, from what it had got: the bytes it was
given since, or the end of input to a read that has got nothing. -/
def Gives (before : List Item) (got : List UInt8) (after : List Item) : Task → Prop
  | .idle => False
  | .reading _ got' | .returned (some got') =>
    (∃ new, got' = got ++ new ∧ after = before ++ new.map .data) ∨
      (got = [] ∧ got' = [] ∧ after = before ++ [.eof])
  -- killed in its sleep: what it was given is lost with it
  | .returned none => ∃ new : List UInt8, after = before ++ new.map .data

theorem Gives.same (items : List Item) (got : List UInt8) (n : Nat) :
    Gives items got items (.reading n got) ∧ Gives items got items (.returned (some got)) ∧
      Gives items got items (.returned none) :=
  ⟨.inl ⟨[], by simp⟩, .inl ⟨[], by simp⟩, [], by simp⟩

theorem Gives.cons {items after : List Item} {got : List UInt8} {c : UInt8} {task : Task}
    (rest : Gives (items ++ [.data c]) (got ++ [c]) after task) : Gives items got after task := by
  have more : ∀ {got' : List UInt8},
      ((∃ new, got' = (got ++ [c]) ++ new ∧ after = (items ++ [.data c]) ++ new.map .data) ∨
        (got ++ [c] = [] ∧ got' = [] ∧ after = (items ++ [.data c]) ++ [.eof])) →
      (∃ new, got' = got ++ new ∧ after = items ++ new.map .data) ∨
        (got = [] ∧ got' = [] ∧ after = items ++ [.eof]) := by
    rintro got' (⟨new, rfl, rfl⟩ | ⟨none_got, -⟩)
    · exact .inl ⟨c :: new, by simp⟩
    · simp at none_got
  match task with
  | .idle => exact rest
  | .reading _ got' => exact more rest
  | .returned (some got') => exact more rest
  | .returned none =>
    obtain ⟨new, rfl⟩ := rest
    exact ⟨c :: new, by simp⟩

/-- A stretch of `consoleread` takes committed characters one after the other. -/
theorem read_spec (h : Ordered l) (killed : Bool) (n : Nat) (got : List UInt8) :
    Ordered (l.read killed n got).data ∧ Grows l (l.read killed n got).data ∧
      Gives l.received got (l.read killed n got).data.received (l.read killed n got).next := by
  induction n generalizing l got with
  | zero => exact ⟨h, .refl l, (Gives.same l.received got 0).2.1⟩
  | succ n ih =>
    obtain ⟨sleeps, returns, dies⟩ := Gives.same l.received got (n + 1)
    rw [read]
    cases next : l.committed[l.taken]? with
    | none =>
      simp only
      split
      · exact ⟨h, .refl l, dies⟩
      · exact ⟨h, .refl l, sleeps⟩
    | some c =>
      have taken : Ordered (l.take (Item.of c)) := h.take next
      have grows : ∀ item, Grows l (l.take item) :=
        fun _ => ⟨List.prefix_rfl, Nat.le_succ _⟩
      simp only
      by_cases ends : c = ctlD
      · rw [if_pos ends]
        rw [Item.of, if_pos ends] at taken
        split
        · exact ⟨h, .refl l, returns⟩
        · rename_i none_got
          exact ⟨taken, grows _, .inr ⟨not_not.mp none_got, rfl, rfl⟩⟩
      · rw [if_neg ends]
        rw [Item.of, if_neg ends] at taken
        split
        · exact ⟨taken, grows _, .inl ⟨[c], rfl, rfl⟩⟩
        · obtain ⟨ordered, grown, gives⟩ := ih taken (got ++ [c])
          exact ⟨ordered, (grows _).trans grown, gives.cons⟩

end Line

/-! ## The ring holds the line -/

/-- The ring has the characters that are typed and not taken, and the indices are
their positions modulo `2 ^ 32`. -/
structure Holds (i : Input) (l : Line) : Prop where
  window : Window inputBuf i.buf (l.committed ++ l.line) l.taken
  behind : l.taken ≤ l.committed.length
  r : i.r = UInt32.ofNat l.taken
  w : i.w = UInt32.ofNat l.committed.length
  e : i.e = UInt32.ofNat (l.committed.length + l.line.length)
  /-- A newline is committed at once. -/
  plain : newline ∉ l.line
  /-- A full ring is committed. -/
  full : l.level = inputBuf → l.line = []
  received : i.received = l.received

namespace Holds

variable {i : Input} {l : Line}

section

variable (h : Holds i l)

include h

theorem room : l.committed.length + l.line.length ≤ l.taken + inputBuf := by
  have room := h.window.room
  rwa [List.length_append] at room

theorem level_eq : (i.e - i.r).toNat = l.level := by
  have room := h.room
  have behind := h.behind
  rw [h.e, h.r, Line.level]
  exact toNat_sub_ofNat (by omega) (by simp only [inputBuf] at room; omega)

theorem unread : (i.w - i.r).toNat = l.committed.length - l.taken := by
  have room := h.room
  rw [h.w, h.r]
  exact toNat_sub_ofNat h.behind (by simp only [inputBuf] at room; omega)

theorem edited : (i.e - i.w).toNat = l.line.length := by
  have room := h.room
  have behind := h.behind
  rw [h.e, h.w, toNat_sub_ofNat (by omega) (by simp only [inputBuf] at room; omega)]
  omega

theorem empty_iff : i.r = i.w ↔ l.taken = l.committed.length := by
  have room := h.room
  rw [h.r, h.w, ofNat_inj_of_near h.behind (by simp only [inputBuf] at room; omega)]

theorem edits_iff : i.e ≠ i.w ↔ l.line ≠ [] := by
  have room := h.room
  have behind := h.behind
  rw [h.e, h.w, ne_comm, Ne, ofNat_inj_of_near (by omega) (by simp only [inputBuf] at room; omega),
    ← List.length_pos_iff]
  omega

/-- The last character of the line, in its cell. -/
theorem last {line : List UInt8} {c : UInt8} (ends : l.line = line ++ [c]) :
    i.e - 1 = UInt32.ofNat (l.committed.length + line.length) ∧
      i.buf ((i.e - 1).toNat % inputBuf) = c := by
  have back : i.e - 1 = UInt32.ofNat (l.committed.length + line.length) := by
    rw [h.e, ends, List.length_append, List.length_singleton, ← Nat.add_assoc, UInt32.ofNat_add]
    exact UInt32.add_sub_cancel _ _
  refine ⟨back, ?_⟩
  have behind := h.behind
  have found := h.window.cell (l.committed.length + line.length) (by simp [ends]) (by omega)
  rw [back, toNat_ofNat_mod (by decide), found]
  simp [ends]

/-- The last character is taken back. -/
theorem back {line : List UInt8} {c : UInt8} (ends : l.line = line ++ [c]) :
    Holds { i with e := i.e - 1 } { l with line } := by
  have room := h.room
  have behind := h.behind
  refine ⟨?_, behind, h.r, h.w, (h.last ends).1, ?_, ?_, h.received⟩
  · have window := h.window
    rw [ends, ← List.append_assoc] at window
    exact window.unpush (by rw [List.length_append]; omega)
  · have plain := h.plain
    rw [ends] at plain
    exact fun mem => plain (List.mem_append_left _ mem)
  · intro full
    simp only [Line.level] at full
    rw [ends, List.length_append, List.length_singleton] at room
    omega

theorem killLine {k : Nat} (count : k = l.line.length) :
    Holds (i.killLine k) { l with line := [] } := by
  induction k generalizing i l with
  | zero =>
    obtain none_left : l.line = [] := List.length_eq_zero_iff.mp count.symm
    rw [← none_left]
    exact h
  | succ k ih =>
    obtain ⟨line, c, ends⟩ : ∃ line c, l.line = line ++ [c] := by
      refine ⟨l.line.dropLast, l.line.getLast ?_, (List.dropLast_concat_getLast _).symm⟩
      rintro none_left
      rw [none_left] at count
      cases count
    have edits : i.e ≠ i.w := h.edits_iff.mpr (by simp [ends])
    have other : i.buf ((i.e - 1).toNat % inputBuf) ≠ newline := by
      rw [(h.last ends).2]
      rintro rfl
      exact h.plain (by simp [ends])
    rw [Input.killLine, if_pos ⟨edits, other⟩]
    refine ih (l := { l with line }) (h.back ends) ?_
    simpa [ends] using count

theorem store (room : l.level < inputBuf) (c : UInt8) :
    Window inputBuf (i.store c).buf (l.committed ++ (l.line ++ [c])) l.taken ∧
      (i.store c).e = UInt32.ofNat (l.committed.length + (l.line ++ [c]).length) := by
  have behind := h.behind
  have free : (l.committed ++ l.line).length < l.taken + inputBuf := by
    simp only [Line.level] at room
    rw [List.length_append]
    omega
  refine ⟨?_, ?_⟩
  · have pushed := h.window.push free c
    rw [List.append_assoc, List.length_append] at pushed
    simp only [Input.store]
    rw [h.e, toNat_ofNat_mod (by decide)]
    exact pushed
  · simp only [Input.store, h.e, List.length_append, List.length_singleton, ← Nat.add_assoc,
      UInt32.ofNat_add]
    rfl

/-- One character typed. -/
theorem type (c : UInt8) :
    Holds (i.type c).1 (l.type c).1 ∧ (i.type c).2 = (l.type c).2 := by
  unfold Input.type Line.type
  cases keyOf c with
  | procdump => exact ⟨h, rfl⟩
  | killLine => exact ⟨h.killLine h.edited, rfl⟩
  | backspace =>
    refine ⟨?_, rfl⟩
    by_cases edits : i.e ≠ i.w
    · rw [if_pos edits]
      exact h.back (List.dropLast_concat_getLast (h.edits_iff.mp edits)).symm
    · rw [if_neg edits]
      have none_left : l.line = [] := by
        by_contra some_left
        exact edits (h.edits_iff.mpr some_left)
      rw [none_left]
      have same : ({ l with line := [].dropLast } : Line) = l := by
        rw [List.dropLast_nil, ← none_left]
      rw [same]
      exact h
  | other c =>
    simp only [h.level_eq]
    by_cases accepted : c ≠ 0 ∧ l.level < inputBuf
    · rw [if_pos accepted, if_pos accepted]
      have behind := h.behind
      have room := h.room
      obtain ⟨window, e⟩ := h.store accepted.2 (cook c)
      have full_iff : (i.store (cook c)).e = (i.store (cook c)).r + UInt32.ofNat inputBuf ↔
          ({ l with line := l.line ++ [cook c] } : Line).level = inputBuf := by
        have after := window.room
        rw [List.length_append] at after
        rw [e, show (i.store (cook c)).r = i.r from rfl, h.r, ← UInt32.ofNat_add, 
          ofNat_inj_of_near after (by simp only [inputBuf, List.length_append] at *; omega)]
        simp only [Line.level]
        omega
      simp only [full_iff]
      split
      · refine ⟨⟨?_, ?_, h.r, ?_, ?_, nofun, fun _ => rfl, h.received⟩, rfl⟩
        · simpa [Line.commit] using window
        · simp only [Line.commit, List.length_append]
          omega
        · simpa [Line.commit, Nat.add_assoc] using e
        · simpa [Line.commit, Nat.add_assoc] using e
      · rename_i open_line
        obtain ⟨other, -, notFull⟩ := not_or.mp open_line |>.imp_right not_or.mp
        refine ⟨⟨window, behind, h.r, h.w, e, ?_, fun full => absurd full notFull,
          h.received⟩, rfl⟩
        intro mem
        rcases List.mem_append.mp mem with mem | mem
        · exact h.plain mem
        · exact other (List.mem_singleton.mp mem).symm
    · rw [if_neg accepted, if_neg accepted]
      exact ⟨h, rfl⟩

theorem consoleintr (chars : List UInt8) :
    Holds (Console.consoleintr chars i).1 (l.typeAll chars).1 ∧
      (Console.consoleintr chars i).2 = (l.typeAll chars).2 := by
  induction chars generalizing i l with
  | nil => exact ⟨h, rfl⟩
  | cons c chars ih =>
    obtain ⟨now, woken⟩ := h.type c
    obtain ⟨rest, wakes⟩ := ih now
    refine ⟨rest, ?_⟩
    simp only [Console.consoleintr, Line.typeAll, woken, wakes]

/-- The next character is used up. -/
theorem take {c : UInt8} (next : l.committed[l.taken]? = some c) (item : Item) :
    i.buf (i.r.toNat % inputBuf) = c ∧
      Holds { i with r := i.r + 1, received := i.received ++ [item] } (l.take item) := by
  obtain ⟨inside, found⟩ := List.getElem?_eq_some_iff.mp next
  obtain ⟨cell, window⟩ := h.window.pop (by rw [List.length_append]; omega)
  have room := h.room
  refine ⟨?_, ⟨window, inside, ?_, h.w, h.e, h.plain, ?_, ?_⟩⟩
  · rw [h.r, toNat_ofNat_mod (by decide), cell, List.getElem_append_left inside, found]
  · rw [h.r]
    exact (UInt32.ofNat_add l.taken 1).symm
  · intro full
    simp only [Line.level, Line.take] at full
    omega
  · exact congrArg (· ++ [item]) h.received

theorem consoleread (killed : Bool) (n : Nat) (got : List UInt8) :
    Holds (Console.consoleread killed n got i).data (l.read killed n got).data ∧
      (Console.consoleread killed n got i).wakes = (l.read killed n got).wakes ∧
      (Console.consoleread killed n got i).next = (l.read killed n got).next ∧
      (Console.consoleread killed n got i).sleeps = (l.read killed n got).sleeps := by
  induction n generalizing i l got with
  | zero => exact ⟨h, rfl, rfl, rfl⟩
  | succ n ih =>
    rw [Console.consoleread, Line.read]
    by_cases empty : i.r = i.w
    · have none_left : l.committed[l.taken]? = none :=
        List.getElem?_eq_none (Nat.le_of_eq (h.empty_iff.mp empty).symm)
      rw [if_pos empty, none_left]
      simp only
      split <;> exact ⟨h, rfl, rfl, rfl⟩
    · have inside : l.taken < l.committed.length :=
        Nat.lt_of_le_of_ne h.behind fun same => empty (h.empty_iff.mpr same)
      have next : l.committed[l.taken]? = some l.committed[l.taken] :=
        List.getElem?_eq_getElem inside
      generalize l.committed[l.taken] = c at next
      have cell := (h.take next .eof).1
      rw [if_neg empty, next]
      simp only [cell]
      by_cases ends : c = ctlD
      · rw [if_pos ends, if_pos ends]
        by_cases some_got : got ≠ []
        · rw [if_pos some_got, if_pos some_got]
          refine ⟨?_, rfl, rfl, rfl⟩
          have same : ({ i with r := i.r + 1 - 1 } : Input) = i := by
            rw [UInt32.add_sub_cancel]
          simp only [same]
          exact h
        · rw [if_neg some_got, if_neg some_got]
          obtain rfl : got = [] := by simpa using some_got
          exact ⟨(h.take next .eof).2, rfl, rfl, rfl⟩
      · rw [if_neg ends, if_neg ends]
        have taken := (h.take next (.data c)).2
        by_cases line : c = newline
        · rw [if_pos line, if_pos line]
          exact ⟨taken, rfl, rfl, rfl⟩
        · rw [if_neg line, if_neg line]
          exact ih taken (got ++ [c])

end

end Holds

/-! ## Refinement -/

theorem body_simulation {a : Act} {killed : Bool} {task : Task} {i : Input} {l : Line}
    {r : Stretch Input Task Unit} (h : Holds i l) (does : monitor.body a killed task i = some r) :
    ∃ x, lineMonitor.body a killed task l = some ⟨x, r.wakes, r.next, r.sleeps⟩ ∧
      Holds r.data x := by
  simp only [monitor] at does
  split at does
  · rename_i chars
    cases does
    obtain ⟨held, wakes⟩ := h.consoleintr chars
    exact ⟨_, by simp only [lineMonitor, wakes], held⟩
  · rename_i n got
    cases does
    obtain ⟨held, wakes, next, sleeps⟩ := h.consoleread killed n got
    exact ⟨_, by simp only [lineMonitor, wakes, next, sleeps], held⟩
  · cases does

theorem free_simulation {a : Act} {task task' : Task} {i i' : Input} {l : Line} (h : Holds i l)
    (does : monitor.free a task i = some (task', i')) :
    ∃ x, lineMonitor.free a task l = some (task', x) ∧ Holds i' x := by
  simp only [monitor, Option.map_eq_some_iff, Prod.mk.injEq] at does
  obtain ⟨task, goes, rfl, rfl⟩ := does
  exact ⟨l, by simp only [lineMonitor, goes, Option.map_some], h⟩

section Runs

variable {P : Type} [DecidableEq P]

theorem init_alike (buf : Nat → UInt8) : Monitor.Alike Holds (init buf : State P) lineInit := by
  refine ⟨⟨⟨Nat.le_refl _, Nat.zero_le _, nofun⟩, Nat.le_refl _, rfl, rfl, rfl, nofun, nofun, rfl⟩,
    rfl, rfl, rfl, rfl⟩

/-- The stretches of the line's monitor. -/
theorem line_step {t t' : MState P Line Task Unit} {e : Event P}
    (h : t.data.Ordered) (stepped : lineMonitor.step t e = some t') :
    t'.data.Ordered ∧ t.data.Grows t'.data := by
  rcases Monitor.step_local stepped with ⟨same, -⟩ | ⟨q, a, r, -, does, now, -⟩ |
    ⟨q, a, task, -, does, -⟩
  · rw [same]
    exact ⟨h, .refl _⟩
  · rw [now]
    simp only [lineMonitor] at does
    split at does
    · rename_i chars _
      cases does
      obtain ⟨grown, taken, received⟩ := t.data.typeAll_grows chars
      exact ⟨h.extend grown taken received, grown, Nat.le_of_eq taken.symm⟩
    · rename_i n got _
      cases does
      obtain ⟨ordered, grows, -⟩ := Line.read_spec h (t.killed q) n got
      exact ⟨ordered, grows⟩
    · cases does
  · simp only [lineMonitor, Option.map_eq_some_iff, Prod.mk.injEq] at does
    obtain ⟨_, -, -, same⟩ := does
    rw [← same]
    exact ⟨h, .refl _⟩

/-- A reader's stretch in the console gives it what the line's stretch does. -/
theorem read_gives {i : Input} {l : Line} (held : Holds i l) (h : l.Ordered) (killed : Bool)
    (n : Nat) (got : List UInt8) :
    Line.Gives i.received got (consoleread killed n got i).data.received
      (consoleread killed n got i).next := by
  obtain ⟨after, -, next, -⟩ := held.consoleread killed n got
  rw [held.received, after.received, next]
  exact (Line.read_spec h killed n got).2.2

/-- **The console is a line discipline.**  Whatever is typed and however readers come
in between, the console goes through the steps of the line's system with every process
at the same point and with the same result.  The indices keep their order modulo
`2 ^ 32`, and a full ring is committed.  The ring has every committed character that
is not taken, in its cell, and no step changes what is committed.  What the readers
were given, in the order of time, is the committed characters up to the read index,
with a control-D as the end of input; and a call of `consoleread` returns the bytes it
was given, or no bytes for the end of input. -/
theorem console_discipline (buf : Nat → UInt8) (es : List (Event P)) (s : State P)
    (reached : run monitor.step (init buf) es = some s) :
    ∃ t : MState P Line Task Unit,
      run lineMonitor.step lineInit es = some t ∧ t.pc = s.pc ∧
      ((s.data.w - s.data.r).toNat ≤ (s.data.e - s.data.r).toNat ∧
        (s.data.e - s.data.r).toNat ≤ inputBuf ∧
        (s.data.e = s.data.r + UInt32.ofNat inputBuf → s.data.w = s.data.e)) ∧
      (s.data.r = UInt32.ofNat t.data.taken ∧
        s.data.w = UInt32.ofNat t.data.committed.length ∧
        (∀ k c, t.data.taken ≤ k → t.data.committed[k]? = some c →
          s.data.buf (k % inputBuf) = c) ∧
        ∀ e s', monitor.step s e = some s' → ∃ t', lineMonitor.step t e = some t' ∧
          t.data.committed <+: t'.data.committed ∧ t.data.taken ≤ t'.data.taken) ∧
      s.data.received = (t.data.committed.take t.data.taken).map Item.of ∧
      ∀ q s' n got, s.local q = .reading n got → monitor.step s (.enter q .go) = some s' →
        Line.Gives s.data.received got s'.data.received (s'.local q) := by
  have simulates : ∀ (s : State P) (t : MState P Line Task Unit) (e : Event P) (s' : State P),
      Monitor.Alike Holds s t → True → monitor.step s e = some s' →
        ∃ t', lineMonitor.step t e = some t' ∧ Monitor.Alike Holds s' t' :=
    fun _ _ _ _ alike _ stepped =>
      Monitor.step_simulation body_simulation free_simulation alike stepped
  obtain ⟨t, done, alike⟩ := run_simulation monitor.step simulates (init_alike buf)
    (fun _ _ => trivial) reached
  have ordered : t.data.Ordered :=
    run_invariant lineMonitor.step (I := fun t => t.data.Ordered)
      (fun _ _ _ h stepped => (line_step h stepped).1) ⟨Nat.le_refl _, rfl⟩ done
  have held := alike.data
  have behind := held.behind
  have room := held.room
  refine ⟨t, done, alike.pc, ⟨?_, ?_, ?_⟩, ⟨held.r, held.w, ?_, ?_⟩, ?_, ?_⟩
  · rw [held.level_eq, held.unread, Line.level]
    omega
  · rw [held.level_eq, Line.level]
    omega
  · intro full
    have none_left : t.data.line = [] := by
      refine held.full ?_
      rw [← held.level_eq, full]
      rw [UInt32.add_comm, UInt32.add_sub_cancel]
      rfl
    rw [held.w, held.e, none_left]
    rfl
  · intro k c from_r found
    obtain ⟨inside, found⟩ := List.getElem?_eq_some_iff.mp found
    rw [held.window.cell k (by rw [List.length_append]; omega) from_r,
      List.getElem_append_left inside, found]
  · intro e s' stepped
    obtain ⟨t', stepped', -⟩ := simulates s t e s' alike trivial stepped
    obtain ⟨-, grows⟩ := line_step ordered stepped'
    exact ⟨t', stepped', grows.committed, grows.taken⟩
  · rw [held.received]
    exact ordered.received
  · intro q s' n got reading stepped
    cases Monitor.moves_of_step stepped with
    | enter here clear does =>
      rw [MState.local, here] at reading
      obtain rfl := reading
      cases does
      simp only [MState.local, update_self]
      exact read_gives held ordered _ n got

/-- `a`, `b`, a backspace, a return and a control-D are typed; one process reads the
line, and the next read comes to the end of input. -/
def lineThenEnd : List (Event (Fin 3)) :=
  [.enter 0 (.consoleintr [97, 98, 8, 13, 4]), .wake 0, .wake 0, .release 0,
    .free 1 (.consoleread 10), .enter 1 .go, .release 1,
    .free 2 (.consoleread 10), .enter 2 .go, .release 2]

theorem line_then_end : ∃ s : State (Fin 3),
    run monitor.step (init fun _ => 0) lineThenEnd = some s ∧
      s.local 1 = .returned (some [97, newline]) ∧ s.local 2 = .returned (some []) ∧
      s.data.received = [.data 97, .data newline, .eof] ∧
      (s.data.e - s.data.r).toNat ≤ inputBuf := by
  obtain ⟨s, done, one, two, items⟩ : ∃ s : State (Fin 3),
      run monitor.step (init fun _ => 0) lineThenEnd = some s ∧
        s.local 1 = .returned (some [97, newline]) ∧ s.local 2 = .returned (some []) ∧
        s.data.received = [.data 97, .data newline, .eof] := ⟨_, rfl, rfl, rfl, rfl⟩
  obtain ⟨-, -, -, ⟨-, bound, -⟩, -⟩ := console_discipline (fun _ => 0) lineThenEnd s done
  exact ⟨s, done, one, two, items, bound⟩

end Runs

end BasicOS.Console
