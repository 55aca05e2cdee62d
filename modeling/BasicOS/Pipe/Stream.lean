/-
# BasicOS.Pipe.Stream — any number of readers and writers on one pipe

Processes call `pipewrite`, `piperead`, `pipeclose` and `kill` on one pipe in
any order.  One step is one stretch under `p->lock`; a process that sleeps goes
on only after a `wakeup` on its channel or a `kill`.  The descriptors that
guard the calls are left out: a call may come whether or not its end is open,
which only adds runs.  Once the page is freed no call is possible.

The state also records what the calls were given and what they answered:
`sent` the buffers of the `pipewrite` calls, `accepted` the bytes stored, each
with its call, and `replies` the values returned.  `pipe_stream` reads these
records as one stream.
-/
import BasicOS.Lib.Run
import BasicOS.Pipe.Basic
import Mathlib.Tactic.Set

namespace BasicOS.PipeRun

open Lib Function

set_option autoImplicit false
set_option linter.unusedSectionVars false

/-- A `pipewrite` in progress: its number, its `n` and the bytes left to store. -/
structure Call where
  id : Nat
  n : Nat
  left : List UInt8
  deriving DecidableEq, Repr

/-- Where a process stands; a process inside a call is asleep or has been woken
and is about to take the lock again. -/
inductive Task where
  | idle
  | writing (call : Call) (asleep : Bool)
  | reading (n : Nat) (asleep : Bool)
  deriving DecidableEq, Repr

namespace Task

/-- The effect of `wakeup(&p->nread)` on one process. -/
def wakeReader : Task → Task
  | reading n _ => reading n false
  | task => task

/-- The effect of `wakeup(&p->nwrite)` on one process. -/
def wakeWriter : Task → Task
  | writing call _ => writing call false
  | task => task

/-- The write the process is in. -/
def call : Task → Option Call
  | writing call _ => some call
  | _ => none

@[simp] theorem call_wakeReader (task : Task) : task.wakeReader.call = task.call := by
  cases task <;> rfl

@[simp] theorem call_wakeWriter (task : Task) : task.wakeWriter.call = task.call := by
  cases task <;> rfl

end Task

/-- What a call returned. -/
inductive Reply where
  /-- `pipewrite`, with the number of the call and its result. -/
  | wrote (id : Nat) (result : Int)
  /-- `piperead` of up to `n` bytes; the result is the number of bytes. -/
  | read (n : Nat) (bytes : List UInt8)
  /-- `piperead` of a killed process, -1. -/
  | readFailed
  deriving DecidableEq, Repr

/-- The bytes a reply carries out of the pipe. -/
def Reply.bytes : Reply → List UInt8
  | read _ bytes => bytes
  | _ => []

section Model

variable {P : Type} [DecidableEq P]

/-- One pipe and the processes that use it.  `pipe` is `none` once its page has
been freed. -/
structure State (P : Type) where
  pipe : Option Pipe
  task : P → Task
  killed : P → Bool
  sent : List (List UInt8)
  accepted : List (Nat × UInt8)
  replies : List Reply

namespace State

/-- The bytes stored in the pipe so far, in order. -/
def bytes (s : State P) : List UInt8 :=
  s.accepted.map Prod.snd

/-- The bytes returned by all reads so far, in the order of their removal. -/
def delivered (s : State P) : List UInt8 :=
  s.replies.flatMap Reply.bytes

end State

/-- The bytes of call `id` among those accepted. -/
def acceptedOf (accepted : List (Nat × UInt8)) (id : Nat) : List UInt8 :=
  (accepted.filter fun entry => entry.1 == id).map Prod.snd

/-- A fresh pipe. -/
def init (page : Nat → UInt8) : State P :=
  { pipe := some (Pipe.alloc page), task := fun _ => .idle, killed := fun _ => false,
    sent := [], accepted := [], replies := [] }

/-- `pipewrite` of process `q` under the lock, from its loop's test on. -/
def writeOn (s : State P) (q : P) (call : Call) (p : Pipe) : State P :=
  let out := pipewrite (s.killed q) call.left p
  let stored := call.left.take (call.left.length - out.2.1.length)
  let s := { s with
    pipe := some out.2.2
    accepted := s.accepted ++ stored.map fun b => (call.id, b) }
  match out.1 with
  | .done =>
    { s with
      task := fun x => (update s.task q .idle x).wakeReader
      replies := s.replies ++ [.wrote call.id call.n] }
  | .failed =>
    { s with
      task := update s.task q .idle
      replies := s.replies ++ [.wrote call.id (-1)] }
  | .asleep =>
    { s with
      task := fun x => (update s.task q (.writing { call with left := out.2.1 } true) x).wakeReader }

/-- `piperead` of process `q` under the lock, from its loop's test on. -/
def readOn (s : State P) (q : P) (n : Nat) (p : Pipe) : State P :=
  let out := piperead (s.killed q) n p
  let s := { s with pipe := some out.2 }
  match out.1 with
  | .done bytes =>
    { s with
      task := fun x => (update s.task q .idle x).wakeWriter
      replies := s.replies ++ [.read n bytes] }
  | .failed => { s with task := update s.task q .idle, replies := s.replies ++ [.readFailed] }
  | .asleep => { s with task := update s.task q (.reading n true) }

inductive Event (P : Type) where
  /-- `q` calls `pipewrite` with these `n` bytes in its buffer. -/
  | write (q : P) (bytes : List UInt8)
  /-- `q` calls `piperead` for up to `n` bytes. -/
  | read (q : P) (n : Nat)
  /-- `q` returns from `sleep`. -/
  | resume (q : P)
  /-- The last descriptor of one end is closed. -/
  | close (writable : Bool)
  /-- Somebody kills `q`. -/
  | kill (q : P)

def step (s : State P) : Event P → Option (State P)
  | .write q bytes =>
    match s.pipe, s.task q with
    | some p, .idle =>
      some (writeOn { s with sent := s.sent ++ [bytes] } q
        { id := s.sent.length, n := bytes.length, left := bytes } p)
    | _, _ => none
  | .read q n =>
    match s.pipe, s.task q with
    | some p, .idle => some (readOn s q n p)
    | _, _ => none
  | .resume q =>
    match s.pipe, s.task q with
    | some p, .writing call false => some (writeOn s q call p)
    | some p, .reading n false => some (readOn s q n p)
    | _, _ => none
  | .close writable =>
    match s.pipe with
    | some p =>
      some { s with
        pipe := pipeclose writable p
        task := fun x =>
          if writable then (s.task x).wakeReader else (s.task x).wakeWriter }
    | none => none
  | .kill q =>
    some { s with
      killed := update s.killed q true
      task := update s.task q (s.task q).wakeReader.wakeWriter }

/-! ## The books of the writes -/

theorem acceptedOf_append (accepted : List (Nat × UInt8)) (id : Nat) (stored : List UInt8)
    (other : Nat) :
    acceptedOf (accepted ++ stored.map fun b => (id, b)) other =
      acceptedOf accepted other ++ if id = other then stored else [] := by
  rw [acceptedOf, List.filter_append, List.map_append]
  congr 1
  split
  · next same =>
      subst same
      simp [List.filter_map, Function.comp_def]
  · next differ => simp [List.filter_map, Function.comp_def, differ]

/-- The records of the writes are consistent: `open_` gives the write each
process is in. -/
structure Books (open_ : P → Option Call) (sent : List (List UInt8))
    (accepted : List (Nat × UInt8)) (replies : List Reply) : Prop where
  known : ∀ entry ∈ accepted, entry.1 < sent.length
  apart : ∀ q q' x y, open_ q = some x → open_ q' = some y → x.id = y.id → q = q'
  progress : ∀ q x, open_ q = some x →
    sent[x.id]? = some (acceptedOf accepted x.id ++ x.left) ∧
      x.n = (acceptedOf accepted x.id ++ x.left).length
  inOrder : ∀ (id : Nat) (buf : List UInt8), sent[id]? = some buf → acceptedOf accepted id <+: buf
  answered : ∀ (id : Nat) (result : Int), .wrote id result ∈ replies →
    (∀ q x, open_ q = some x → x.id ≠ id) ∧
      ∃ buf, sent[id]? = some buf ∧
        (result = buf.length ∧ acceptedOf accepted id = buf ∨ result = -1)

namespace Books

variable {open_ : P → Option Call} {sent : List (List UInt8)} {accepted : List (Nat × UInt8)}
  {replies : List Reply} {q : P}

section

variable (books : Books open_ sent accepted replies)

include books

theorem acceptedOf_fresh :
    acceptedOf accepted sent.length = [] := by
  rw [acceptedOf, List.map_eq_nil_iff, List.filter_eq_nil_iff]
  intro entry mem same
  have := books.known entry mem
  rw [beq_iff_eq] at same
  omega

/-- A process that is in no write begins one. -/
theorem start (bytes : List UInt8) :
    Books (update open_ q (some { id := sent.length, n := bytes.length, left := bytes }))
      (sent ++ [bytes]) accepted replies := by
  have old : ∀ (id : Nat) (buf : List UInt8), sent[id]? = some buf →
      (sent ++ [bytes])[id]? = some buf := by
    intro id buf found
    have below := (List.getElem?_eq_some_iff.mp found).1
    rwa [List.getElem?_append_left below]
  have fresh : ∀ x y, open_ x = some y → y.id ≠ sent.length := by
    intro x y at_x same
    have found := (books.progress x y at_x).1
    rw [same, List.getElem?_eq_none (Nat.le_refl _)] at found
    cases found
  refine ⟨?_, ?_, ?_, ?_, ?_⟩
  · intro entry mem
    have := books.known entry mem
    simp only [List.length_append, List.length_singleton]
    omega
  · intro x x' y y' at_x at_x' same
    by_cases hx : x = q <;> by_cases hx' : x' = q
    · rw [hx, hx']
    · subst hx
      rw [update_self, Option.some.injEq] at at_x
      rw [update_of_ne hx'] at at_x'
      subst at_x
      exact absurd same.symm (fresh x' y' at_x')
    · subst hx'
      rw [update_self, Option.some.injEq] at at_x'
      rw [update_of_ne hx] at at_x
      subst at_x'
      exact absurd same (fresh x y at_x)
    · rw [update_of_ne hx] at at_x
      rw [update_of_ne hx'] at at_x'
      exact books.apart x x' y y' at_x at_x' same
  · intro x y at_x
    by_cases hx : x = q
    · subst hx
      rw [update_self, Option.some.injEq] at at_x
      subst at_x
      simp [books.acceptedOf_fresh]
    · rw [update_of_ne hx] at at_x
      obtain ⟨found, size⟩ := books.progress x y at_x
      exact ⟨old _ _ found, size⟩
  · intro id buf found
    by_cases below : id < sent.length
    · rw [List.getElem?_append_left below] at found
      exact books.inOrder id buf found
    · have last : id = sent.length := by
        have := (List.getElem?_eq_some_iff.mp found).1
        simp only [List.length_append, List.length_singleton] at this
        omega
      rw [last, books.acceptedOf_fresh]
      exact List.nil_prefix
  · intro id result mem
    obtain ⟨over_, buf, found, outcome⟩ := books.answered id result mem
    refine ⟨fun x y at_x => ?_, buf, old _ _ found, outcome⟩
    by_cases hx : x = q
    · subst hx
      rw [update_self, Option.some.injEq] at at_x
      subst at_x
      have := (List.getElem?_eq_some_iff.mp found).1
      exact fun same => absurd this (by simp only at same; omega)
    · rw [update_of_ne hx] at at_x
      exact over_ x y at_x

/-- A write stores some of the bytes it has left. -/
theorem store {call : Call}
    (at_q : open_ q = some call) {stored left : List UInt8} (parts : call.left = stored ++ left) :
    Books (update open_ q (some { call with left := left })) sent
      (accepted ++ stored.map fun b => (call.id, b)) replies := by
  obtain ⟨found, size⟩ := books.progress q call at_q
  have same_id : ∀ x y, update open_ q (some { call with left := left }) x = some y →
      ∃ z, open_ x = some z ∧ z.id = y.id := by
    intro x y at_x
    by_cases hx : x = q
    · subst hx
      rw [update_self, Option.some.injEq] at at_x
      exact ⟨call, at_q, by rw [← at_x]⟩
    · rw [update_of_ne hx] at at_x
      exact ⟨y, at_x, rfl⟩
  refine ⟨?_, ?_, ?_, ?_, ?_⟩
  · intro entry mem
    rcases List.mem_append.mp mem with mem | mem
    · exact books.known entry mem
    · obtain ⟨b, -, rfl⟩ := List.mem_map.mp mem
      exact (List.getElem?_eq_some_iff.mp found).1
  · intro x x' y y' at_x at_x' same
    obtain ⟨z, at_z, hz⟩ := same_id x y at_x
    obtain ⟨z', at_z', hz'⟩ := same_id x' y' at_x'
    exact books.apart x x' z z' at_z at_z' (by rw [hz, hz', same])
  · intro x y at_x
    by_cases hx : x = q
    · subst hx
      rw [update_self, Option.some.injEq] at at_x
      subst at_x
      rw [acceptedOf_append, if_pos rfl, List.append_assoc, ← parts]
      exact ⟨found, size⟩
    · rw [update_of_ne hx] at at_x
      have differ : call.id ≠ y.id := fun same => hx (books.apart x q y call at_x at_q same.symm)
      rw [acceptedOf_append, if_neg differ, List.append_nil]
      exact books.progress x y at_x
  · intro id buf at_id
    rw [acceptedOf_append]
    split
    · next same =>
        subst same
        rw [found, Option.some.injEq, parts, ← List.append_assoc] at at_id
        exact ⟨left, at_id⟩
    · rw [List.append_nil]
      exact books.inOrder id buf at_id
  · intro id result mem
    obtain ⟨over_, buf, at_id, outcome⟩ := books.answered id result mem
    have differ : call.id ≠ id := over_ q call at_q
    refine ⟨fun x y at_x => ?_, buf, at_id, ?_⟩
    · obtain ⟨z, at_z, hz⟩ := same_id x y at_x
      rw [← hz]
      exact over_ x z at_z
    · rw [acceptedOf_append, if_neg differ, List.append_nil]
      exact outcome

/-- A write returns: `n` with nothing left to store, or -1. -/
theorem finish {call : Call}
    (at_q : open_ q = some call) {result : Int}
    (outcome : result = call.n ∧ call.left = [] ∨ result = -1) :
    Books (update open_ q none) sent accepted (replies ++ [.wrote call.id result]) := by
  have before : ∀ x y, update open_ q none x = some y → x ≠ q ∧ open_ x = some y := by
    intro x y at_x
    by_cases hx : x = q
    · rw [hx, update_self] at at_x
      cases at_x
    · exact ⟨hx, by rwa [update_of_ne hx] at at_x⟩
  refine ⟨books.known, ?_, ?_, books.inOrder, ?_⟩
  · intro x x' y y' at_x at_x' same
    exact books.apart x x' y y' (before x y at_x).2 (before x' y' at_x').2 same
  · intro x y at_x
    exact books.progress x y (before x y at_x).2
  · intro id r mem
    rcases List.mem_append.mp mem with mem | mem
    · obtain ⟨over_, rest⟩ := books.answered id r mem
      exact ⟨fun x y at_x => over_ x y (before x y at_x).2, rest⟩
    · rw [List.mem_singleton, Reply.wrote.injEq] at mem
      obtain ⟨rfl, rfl⟩ := mem
      obtain ⟨found, size⟩ := books.progress q call at_q
      refine ⟨fun x y at_x same => ?_, _, found, ?_⟩
      · obtain ⟨hx, at_x⟩ := before x y at_x
        exact hx (books.apart x q y call at_x at_q same)
      · rcases outcome with ⟨rfl, none_left⟩ | rfl
        · refine Or.inl ⟨by rw [size], ?_⟩
          rw [none_left, List.append_nil]
        · exact Or.inr rfl

/-- A reply to a reader changes nothing in the books of the writes. -/
theorem reply {r : Reply}
    (reader : ∀ id result, r ≠ .wrote id result) :
    Books open_ sent accepted (replies ++ [r]) := by
  refine ⟨books.known, books.apart, books.progress, books.inOrder, fun id result mem => ?_⟩
  rcases List.mem_append.mp mem with mem | mem
  · exact books.answered id result mem
  · exact absurd (List.mem_singleton.mp mem).symm (reader id result)

end

end Books

/-! ## The invariant -/

/-- What holds in every reachable state. -/
structure Inv (s : State P) : Prop where
  ring : ∀ p, s.pipe = some p → p.Carries s.bytes s.delivered.length
  fifo : s.delivered <+: s.bytes
  books : Books (Task.call ∘ s.task) s.sent s.accepted s.replies

theorem init_inv (page : Nat → UInt8) : Inv (init page : State P) := by
  refine ⟨?_, List.nil_prefix, ?_⟩
  · rintro p ⟨⟩
    exact Pipe.alloc_carries page
  · refine ⟨?_, ?_, ?_, ?_, ?_⟩ <;> simp [init, Task.call, acceptedOf]

theorem call_comp_wakeReader (task : P → Task) :
    (Task.call ∘ fun x => (task x).wakeReader) = Task.call ∘ task :=
  funext fun x => (task x).call_wakeReader

theorem call_comp_wakeWriter (task : P → Task) :
    (Task.call ∘ fun x => (task x).wakeWriter) = Task.call ∘ task :=
  funext fun x => (task x).call_wakeWriter

/-- A stretch of `pipewrite` by a process whose write is in the books. -/
theorem writeOn_inv {s : State P} {q : P} {call : Call} {p : Pipe}
    (ring : p.Carries s.bytes s.delivered.length) (fifo : s.delivered <+: s.bytes)
    (books : Books (update (Task.call ∘ s.task) q (some call)) s.sent s.accepted s.replies) :
    Inv (writeOn s q call p) := by
  obtain ⟨stored, parts, held, all⟩ :=
    pipewrite_carries (s.killed q) call.left ring
  set out := pipewrite (s.killed q) call.left p with run_out
  have taken : call.left.take (call.left.length - out.2.1.length) = stored := by
    rw [parts]
    simp
  have at_q : update (Task.call ∘ s.task) q (some call) q = some call := update_self ..
  have books' := books.store at_q parts
  rw [update_idem] at books'
  have longer : (s.accepted ++ stored.map fun b => (call.id, b)).map Prod.snd =
      s.bytes ++ stored := by
    simp [State.bytes, Function.comp_def]
  have fifo' : s.delivered <+: s.bytes ++ stored := fifo.trans (List.prefix_append _ _)
  -- The three ways to end differ in the task of `q` and in the reply only.
  rw [writeOn, ← run_out, taken]
  cases ended : out.1 with
  | done =>
    have closed := books'.finish (update_self q _ _) (Or.inl ⟨rfl, all ended⟩)
    rw [update_idem] at closed
    refine ⟨?_, ?_, ?_⟩
    · rintro p' ⟨⟩
      simpa [State.bytes, State.delivered, Reply.bytes, longer] using held
    · simpa [State.bytes, State.delivered, Reply.bytes, longer] using fifo'
    · simpa only [call_comp_wakeReader, comp_update, Task.call] using closed
  | failed =>
    have closed := books'.finish (update_self q _ _) (Or.inr rfl)
    rw [update_idem] at closed
    refine ⟨?_, ?_, ?_⟩
    · rintro p' ⟨⟩
      simpa [State.bytes, State.delivered, Reply.bytes, longer] using held
    · simpa [State.bytes, State.delivered, Reply.bytes, longer] using fifo'
    · simpa only [comp_update, Task.call] using closed
  | asleep =>
    refine ⟨?_, ?_, ?_⟩
    · rintro p' ⟨⟩
      simpa only [State.bytes, State.delivered, longer] using held
    · simpa only [State.bytes, State.delivered, longer] using fifo'
    · simpa only [call_comp_wakeReader, comp_update, Task.call] using books'

/-- A stretch of `piperead` by a process that is in no write. -/
theorem readOn_inv {s : State P} {q : P} {n : Nat} {p : Pipe} (inv : Inv s)
    (at_pipe : s.pipe = some p) (reader : (s.task q).call = none) : Inv (readOn s q n p) := by
  have ring := inv.ring p at_pipe
  have same : update (Task.call ∘ s.task) q none = Task.call ∘ s.task := by
    rw [← reader]
    exact update_eq_self q _
  rcases piperead_cases (s.killed q) n p with ⟨out, -⟩ | ⟨out, -, -⟩ | ⟨out, -⟩
  · rw [readOn, out]
    have books := inv.books.reply (r := .readFailed) (by simp)
    refine ⟨?_, ?_, ?_⟩
    · rintro p' ⟨⟩
      simpa [State.bytes, State.delivered, Reply.bytes] using ring
    · simpa [State.bytes, State.delivered, Reply.bytes] using inv.fifo
    · simpa only [comp_update, Task.call, same] using books
  · rw [readOn, out]
    refine ⟨?_, inv.fifo, ?_⟩
    · rintro p' ⟨⟩
      exact ring
    · simpa only [comp_update, Task.call, same] using inv.books
  · rw [readOn, out]
    obtain ⟨kept, taken, -⟩ := pipereadCopy_carries n ring
    have books := inv.books.reply (r := .read n (pipereadCopy n p).1) (by simp)
    have removed : s.delivered ++ (pipereadCopy n p).1 <+: s.bytes := by
      obtain ⟨rest, parts⟩ := inv.fifo
      rw [← parts, List.drop_left] at taken
      rw [← parts, ← taken]
      exact (List.prefix_append_right_inj _).mpr (List.take_prefix _ _)
    refine ⟨?_, ?_, ?_⟩
    · rintro p' ⟨⟩
      simpa [State.bytes, State.delivered, Reply.bytes] using kept
    · simpa [State.bytes, State.delivered, Reply.bytes] using removed
    · simpa only [call_comp_wakeWriter, comp_update, Task.call, same] using books

/-- Every step keeps the invariant. -/
theorem step_inv {s s' : State P} {e : Event P} (inv : Inv s) (next : step s e = some s') :
    Inv s' := by
  cases e with
  | write q bytes =>
    simp only [step] at next
    split at next
    · next p at_pipe idle =>
        cases next
        exact writeOn_inv (inv.ring p at_pipe) inv.fifo (inv.books.start bytes)
    · cases next
  | read q n =>
    simp only [step] at next
    split at next
    · next p at_pipe idle =>
        cases next
        exact readOn_inv inv at_pipe (by rw [idle]; rfl)
    · cases next
  | resume q =>
    simp only [step] at next
    split at next
    · next p call at_pipe woken =>
        cases next
        refine writeOn_inv (inv.ring p at_pipe) inv.fifo ?_
        have at_q : (Task.call ∘ s.task) q = some call := by simp [woken, Task.call]
        rw [← at_q, update_eq_self]
        exact inv.books
    · next p n at_pipe woken =>
        cases next
        exact readOn_inv inv at_pipe (by rw [woken]; rfl)
    · cases next
  | close writable =>
    simp only [step] at next
    split at next
    · next p at_pipe =>
        cases next
        refine ⟨fun p' left => ?_, inv.fifo, ?_⟩
        · rw [pipeclose_eq_some left]
          exact (inv.ring p at_pipe).close writable
        · cases writable
          · simpa only [Bool.false_eq_true, if_false, call_comp_wakeWriter] using inv.books
          · simpa only [if_true, call_comp_wakeReader] using inv.books
    · cases next
  | kill q =>
    cases next
    refine ⟨inv.ring, inv.fifo, ?_⟩
    have same : update (Task.call ∘ s.task) q (s.task q).call = Task.call ∘ s.task :=
      update_eq_self q (Task.call ∘ s.task)
    simpa only [comp_update, Task.call_wakeWriter, Task.call_wakeReader, same] using inv.books

/-! ## End of file -/

/-- A stretch of `pipewrite` replies to its own call or to nobody. -/
theorem writeOn_replies (s : State P) (q : P) (call : Call) (p : Pipe) :
    (writeOn s q call p).replies = s.replies ∨
      ∃ id result, (writeOn s q call p).replies = s.replies ++ [.wrote id result] := by
  rw [writeOn]
  cases (pipewrite (s.killed q) call.left p).1
  · exact Or.inr ⟨_, _, rfl⟩
  · exact Or.inr ⟨_, _, rfl⟩
  · exact Or.inl rfl

/-- A reader that asked for bytes and got none has met the end of the stream. -/
theorem readOn_eof {s : State P} {q : P} {n m : Nat} {p : Pipe} (inv : Inv s)
    (at_pipe : s.pipe = some p) (asked : 0 < m)
    (got : (readOn s q n p).replies = s.replies ++ [.read m []]) :
    p.writeopen = false ∧ (readOn s q n p).delivered = (readOn s q n p).bytes := by
  have ring := inv.ring p at_pipe
  rcases piperead_cases (s.killed q) n p with ⟨out, -⟩ | ⟨out, -, -⟩ | ⟨out, shut⟩
  · simp [readOn, out] at got
  · simp [readOn, out] at got
  · simp only [readOn, out, List.append_cancel_left_eq, List.cons.injEq, Reply.read.injEq,
      and_true] at got
    obtain ⟨rfl, none_read⟩ := got
    have drained := (pipereadCopy_carries n ring).2.2 (by simp [none_read, asked])
    simp only [none_read, List.length_nil, Nat.add_zero] at drained
    refine ⟨shut (ring.empty_iff.mpr drained), ?_⟩
    have all : s.delivered = s.bytes := inv.fifo.eq_of_length drained
    simpa [readOn, out, none_read, State.delivered, State.bytes, Reply.bytes] using all

theorem step_eof {s s' : State P} {e : Event P} {n : Nat} (inv : Inv s)
    (next : step s e = some s') (asked : 0 < n)
    (got : s'.replies = s.replies ++ [.read n []]) :
    (∃ p, s.pipe = some p ∧ p.writeopen = false) ∧ s'.delivered = s'.bytes := by
  have not_writer : ∀ (t : State P) q call p, t.replies = s.replies →
      (writeOn t q call p).replies ≠ s.replies ++ [.read n []] := by
    intro t q call p same
    rcases writeOn_replies t q call p with kept | ⟨id, result, added⟩
    · simp [kept, same]
    · simp [added, same]
  have reader : ∀ q m p, s.pipe = some p → s' = readOn s q m p →
      (∃ p, s.pipe = some p ∧ p.writeopen = false) ∧ s'.delivered = s'.bytes := by
    rintro q m p at_pipe rfl
    obtain ⟨shut, all⟩ := readOn_eof inv at_pipe asked got
    exact ⟨⟨p, at_pipe, shut⟩, all⟩
  cases e with
  | write q bytes =>
    simp only [step] at next
    split at next
    · cases next
      exact absurd got (not_writer _ _ _ _ rfl)
    · cases next
  | read q m =>
    simp only [step] at next
    split at next
    · next p at_pipe _ => exact reader q m p at_pipe (Option.some.inj next).symm
    · cases next
  | resume q =>
    simp only [step] at next
    split at next
    · cases next
      exact absurd got (not_writer _ _ _ _ rfl)
    · next p m at_pipe _ => exact reader q m p at_pipe (Option.some.inj next).symm
    · cases next
  | close writable =>
    simp only [step] at next
    split at next
    · cases next
      simp at got
    · cases next
  | kill q =>
    cases next
    simp at got

/-! ## A pipe is a byte stream -/

/-- **A pipe is a FIFO byte stream**, for every interleaving: what reads return
is what writes stored, in that order; the wrapping counters stay within the
ring; each write's bytes are stored in order, all of them when it returns `n`;
and a read returns nothing only at the end of the stream. -/
theorem pipe_stream {page : Nat → UInt8} {es : List (Event P)} {s : State P}
    (done : run step (init page) es = some s) :
    s.delivered <+: s.bytes ∧
      (∀ p, s.pipe = some p →
        p.nread = UInt32.ofNat s.delivered.length ∧ p.nwrite = UInt32.ofNat s.bytes.length ∧
          (p.nwrite - p.nread).toNat = s.bytes.length - s.delivered.length ∧
          (p.nwrite - p.nread).toNat ≤ pipesize) ∧
      (∀ (id : Nat) (buf : List UInt8), s.sent[id]? = some buf →
        acceptedOf s.accepted id <+: buf) ∧
      (∀ e s' n, step s e = some s' → 0 < n → s'.replies = s.replies ++ [.read n []] →
        (∃ p, s.pipe = some p ∧ p.writeopen = false) ∧ s'.delivered = s'.bytes) ∧
      ∀ id result, .wrote id result ∈ s.replies → ∃ buf, s.sent[id]? = some buf ∧
        (result = buf.length ∧ acceptedOf s.accepted id = buf ∨ result = -1) := by
  have inv : Inv s := run_invariant step (fun _ _ _ => step_inv) (init_inv page) done
  refine ⟨inv.fifo, fun p at_pipe => ?_, inv.books.inOrder, fun e s' n => ?_, ?_⟩
  · have ring := inv.ring p at_pipe
    have room := ring.window.room
    have level := ring.level
    exact ⟨ring.nread, ring.nwrite, level, by omega⟩
  · exact step_eof inv
  · intro id result mem
    exact (inv.books.answered id result mem).2

/-- Two writers, and a reader that first sleeps and at last meets the end. -/
def twoWriters : List (Event (Fin 3)) :=
  [.read 2 2, .write 0 [1, 2, 3], .write 1 [4], .resume 2, .close true, .read 2 600, .read 2 1]

/-- The bytes of that run arrive in the order of their writes. -/
theorem two_writers_stream :
    ∃ s, run step (init fun _ => 0) twoWriters = some s ∧
      s.delivered <+: s.bytes ∧ s.delivered = [1, 2, 3, 4] := by
  obtain ⟨s, done⟩ := Option.isSome_iff_exists.mp
    (by decide +kernel : (run step (init fun _ => 0) twoWriters).isSome = true)
  have shown : (run step (init fun _ => 0) twoWriters).map State.delivered =
      some [1, 2, 3, 4] := by
    decide +kernel
  rw [done] at shown
  exact ⟨s, done, (pipe_stream done).1, Option.some.inj shown⟩

end Model

end BasicOS.PipeRun
