/-
# BasicOS.Pipe.Basic — struct pipe and the functions of pipe.c

Each function is modelled between two points at which `p->lock` is taken or
given up: `pipewrite` and `piperead` run until they return or sleep, and are
entered again at the test of their loop when the sleep is over.
-/
import BasicOS.Lib.Ring

namespace BasicOS

open Lib

set_option autoImplicit false

/-- `PIPESIZE`. -/
def pipesize : Nat := 512

/-- `struct pipe`, without its lock. -/
structure Pipe where
  data : Nat → UInt8
  nread : UInt32
  nwrite : UInt32
  readopen : Bool
  writeopen : Bool

namespace Pipe

/-- The pipe `pipealloc` makes in a page; the ring's bytes are what the page held. -/
def alloc (page : Nat → UInt8) : Pipe :=
  { data := page, nread := 0, nwrite := 0, readopen := true, writeopen := true }

/-- `p->nwrite == p->nread + PIPESIZE`. -/
def full (p : Pipe) : Bool :=
  p.nwrite == p.nread + UInt32.ofNat pipesize

/-- `p->nread == p->nwrite`. -/
def empty (p : Pipe) : Bool :=
  p.nread == p.nwrite

/-- `p->data[p->nwrite++ % PIPESIZE] = b`. -/
def store (p : Pipe) (b : UInt8) : Pipe :=
  { p with
    data := Function.update p.data (p.nwrite.toNat % pipesize) b
    nwrite := p.nwrite + 1 }

/-- `p->data[p->nread % PIPESIZE]`. -/
def next (p : Pipe) : UInt8 :=
  p.data (p.nread.toNat % pipesize)

/-- `p->nread++`. -/
def skip (p : Pipe) : Pipe :=
  { p with nread := p.nread + 1 }

/-- `p->writeopen = 0` or `p->readopen = 0`. -/
def close (p : Pipe) (writable : Bool) : Pipe :=
  if writable then { p with writeopen := false } else { p with readopen := false }

/-- `p->writeopen` or `p->readopen`. -/
def isOpen (p : Pipe) (writable : Bool) : Bool :=
  if writable then p.writeopen else p.readopen

end Pipe

/-- How a stretch of `pipewrite` under the lock ends. -/
inductive WriteEnd where
  /-- All bytes are stored: readers are woken and `n` is returned. -/
  | done
  /-- The pipe is full with no reader or a killed writer: -1, nobody is woken. -/
  | failed
  /-- The pipe is full: readers are woken and the writer sleeps on `nwrite`. -/
  | asleep
  deriving DecidableEq, Repr

/-- `pipewrite` from its loop's test on, with the bytes `addr[i]`, …,
`addr[n-1]` still to store; also gives the bytes it has not stored. -/
def pipewrite (killed : Bool) : List UInt8 → Pipe → WriteEnd × List UInt8 × Pipe
  | [], p => (.done, [], p)
  | b :: left, p =>
    if p.full then
      if p.readopen = false ∨ killed then (.failed, b :: left, p) else (.asleep, b :: left, p)
    else pipewrite killed left (p.store b)

/-- The copying loop of `piperead`: up to `n` bytes, as many as there are. -/
def pipereadCopy : Nat → Pipe → List UInt8 × Pipe
  | 0, p => ([], p)
  | n + 1, p =>
    if p.empty then ([], p)
    else
      let rest := pipereadCopy n p.skip
      (p.next :: rest.1, rest.2)

/-- How a stretch of `piperead` under the lock ends. -/
inductive ReadEnd where
  /-- These bytes are returned, and writers are woken. -/
  | done (bytes : List UInt8)
  /-- The reader was killed while the pipe was empty: -1. -/
  | failed
  /-- The pipe is empty: the reader sleeps on `nread`. -/
  | asleep
  deriving DecidableEq, Repr

/-- `piperead` of `n` bytes from the test of its first loop on. -/
def piperead (killed : Bool) (n : Nat) (p : Pipe) : ReadEnd × Pipe :=
  if p.empty ∧ p.writeopen then (if killed then .failed else .asleep, p)
  else
    let copied := pipereadCopy n p
    (.done copied.1, copied.2)

/-- `pipeclose`: the pipe afterwards, or nothing when its page has been freed. -/
def pipeclose (writable : Bool) (p : Pipe) : Option Pipe :=
  if (p.close writable).readopen = false ∧ (p.close writable).writeopen = false then none
  else some (p.close writable)

/-! ## The ends -/

namespace Pipe

theorem isOpen_alloc (page : Nat → UInt8) (w : Bool) : (alloc page).isOpen w = true := by
  cases w <;> rfl

theorem isOpen_close (p : Pipe) (v w : Bool) :
    (p.close v).isOpen w = if w = v then false else p.isOpen w := by
  cases v <;> cases w <;> rfl

theorem closed_iff (p : Pipe) :
    p.readopen = false ∧ p.writeopen = false ↔ ∀ w, p.isOpen w = false := by
  constructor
  · rintro ⟨reader, writer⟩ (_ | _)
    · exact reader
    · exact writer
  · intro all
    exact ⟨all false, all true⟩

theorem isOpen_pipewrite (killed : Bool) (bytes : List UInt8) (p : Pipe) (w : Bool) :
    (pipewrite killed bytes p).2.2.isOpen w = p.isOpen w := by
  induction bytes generalizing p with
  | nil => rfl
  | cons b left ih =>
    unfold pipewrite
    split
    · split <;> rfl
    · exact ih (p.store b)

theorem isOpen_pipereadCopy (n : Nat) (p : Pipe) (w : Bool) :
    (pipereadCopy n p).2.isOpen w = p.isOpen w := by
  induction n generalizing p with
  | zero => rfl
  | succ n ih =>
    unfold pipereadCopy
    split
    · rfl
    · exact ih p.skip

theorem isOpen_piperead (killed : Bool) (n : Nat) (p : Pipe) (w : Bool) :
    (piperead killed n p).2.isOpen w = p.isOpen w := by
  unfold piperead
  split
  · rfl
  · exact isOpen_pipereadCopy n p w

end Pipe

/-! ## The ring as a window of a stream -/

/-- The pipe holds the bytes of `accepted` from position `r` on, with counters
that are these positions modulo `2 ^ 32`. -/
structure Pipe.Carries (p : Pipe) (accepted : List UInt8) (r : Nat) : Prop where
  window : Window pipesize p.data accepted r
  nread : p.nread = UInt32.ofNat r
  nwrite : p.nwrite = UInt32.ofNat accepted.length

namespace Pipe

variable {p : Pipe} {accepted : List UInt8} {r : Nat}

theorem alloc_carries (page : Nat → UInt8) : (alloc page).Carries [] 0 :=
  ⟨window_empty _ _, rfl, rfl⟩

section

variable (held : p.Carries accepted r)

include held

/-- The test for a full pipe is exact for any number of wraps. -/
theorem Carries.full_iff :
    p.full = true ↔ accepted.length = r + pipesize := by
  have room := held.window.room
  have behind := held.window.behind
  rw [full, held.nread, held.nwrite, ← UInt32.ofNat_add, beq_iff_eq,
    ofNat_inj_of_near room (by simp only [pipesize] at *; omega)]

theorem Carries.empty_iff :
    p.empty = true ↔ r = accepted.length := by
  have room := held.window.room
  rw [empty, held.nread, held.nwrite, beq_iff_eq,
    ofNat_inj_of_near held.window.behind (by simp only [pipesize] at *; omega)]

/-- `nwrite - nread` is the number of bytes in the ring. -/
theorem Carries.level :
    (p.nwrite - p.nread).toNat = accepted.length - r := by
  have room := held.window.room
  rw [held.nread, held.nwrite]
  exact toNat_sub_ofNat held.window.behind (by simp only [pipesize] at *; omega)

theorem Carries.store (free : p.full = false) (b : UInt8) :
    (p.store b).Carries (accepted ++ [b]) r := by
  have below : accepted.length < r + pipesize := by
    refine Nat.lt_of_le_of_ne held.window.room fun full => ?_
    simp [held.full_iff.mpr full] at free
  refine ⟨?_, held.nread, ?_⟩
  · have cell : p.nwrite.toNat % pipesize = accepted.length % pipesize := by
      rw [held.nwrite]
      exact toNat_ofNat_mod (by decide) _
    simp only [Pipe.store, cell]
    exact held.window.push below b
  · simp only [Pipe.store, held.nwrite, List.length_append, List.length_singleton,
      UInt32.ofNat_add]
    rfl

theorem Carries.fetch (some_left : p.empty = false) :
    accepted[r]? = some p.next ∧ p.skip.Carries accepted (r + 1) := by
  have below : r < accepted.length := by
    refine Nat.lt_of_le_of_ne held.window.behind fun none_left => ?_
    simp [held.empty_iff.mpr none_left] at some_left
  obtain ⟨found, rest⟩ := held.window.pop below
  have cell : p.nread.toNat % pipesize = r % pipesize := by
    rw [held.nread]
    exact toNat_ofNat_mod (by decide) _
  refine ⟨?_, rest, ?_, held.nwrite⟩
  · rw [List.getElem?_eq_getElem below, next, cell, found]
  · simp only [skip, held.nread, UInt32.ofNat_add]
    rfl

end

end Pipe

/-! ## What the loops do to the stream -/

/-- `pipewrite` stores the bytes it has not left over, in order, and leaves none
over only when it is done. -/
theorem pipewrite_carries (killed : Bool) (bytes : List UInt8) {p : Pipe}
    {accepted : List UInt8} {r : Nat} (held : p.Carries accepted r) :
    ∃ stored, bytes = stored ++ (pipewrite killed bytes p).2.1 ∧
      (pipewrite killed bytes p).2.2.Carries (accepted ++ stored) r ∧
      ((pipewrite killed bytes p).1 = .done → (pipewrite killed bytes p).2.1 = []) := by
  induction bytes generalizing p accepted with
  | nil => exact ⟨[], rfl, by simpa [pipewrite] using held, fun _ => rfl⟩
  | cons b left ih =>
    rw [pipewrite]
    split
    · refine ⟨[], ?_, ?_, ?_⟩ <;> split <;> simp [held]
    · rename_i free
      obtain ⟨stored, split_at, kept, all⟩ := ih (held.store (by simpa using free) b)
      refine ⟨b :: stored, by rw [List.cons_append, ← split_at], ?_, all⟩
      simpa using kept

/-- The copying loop removes the next bytes of the stream, and stops short of
`n` only at the end of what was accepted. -/
theorem pipereadCopy_carries (n : Nat) {p : Pipe} {accepted : List UInt8} {r : Nat}
    (held : p.Carries accepted r) :
    (pipereadCopy n p).2.Carries accepted (r + (pipereadCopy n p).1.length) ∧
      (accepted.drop r).take (pipereadCopy n p).1.length = (pipereadCopy n p).1 ∧
      ((pipereadCopy n p).1.length < n →
        r + (pipereadCopy n p).1.length = accepted.length) := by
  induction n generalizing p r with
  | zero => exact ⟨held, rfl, fun h => absurd h (Nat.not_lt_zero _)⟩
  | succ n ih =>
    rw [pipereadCopy]
    split
    · rename_i none_left
      exact ⟨held, rfl, fun _ => held.empty_iff.mp none_left⟩
    · rename_i some_left
      obtain ⟨found, rest⟩ := held.fetch (by simpa using some_left)
      obtain ⟨kept, taken, short⟩ := ih rest
      obtain ⟨below, item⟩ := List.getElem?_eq_some_iff.mp found
      refine ⟨?_, ?_, fun few => ?_⟩
      · simpa [Nat.add_assoc, Nat.add_comm 1] using kept
      · rw [List.drop_eq_getElem_cons below, List.length_cons, List.take_succ_cons, taken, item]
      · have := short (by simpa using few)
        simp only [List.length_cons]
        omega

theorem pipereadCopy_length_le (n : Nat) (p : Pipe) : (pipereadCopy n p).1.length ≤ n := by
  induction n generalizing p with
  | zero => exact Nat.le_refl 0
  | succ n ih =>
    rw [pipereadCopy]
    split
    · exact Nat.zero_le _
    · exact Nat.succ_le_succ (ih p.skip)

/-- `piperead` on an empty pipe with a writer does not return bytes; otherwise
it copies. -/
theorem piperead_cases (killed : Bool) (n : Nat) (p : Pipe) :
    piperead killed n p = (.failed, p) ∧ killed = true ∨
      piperead killed n p = (.asleep, p) ∧ p.empty = true ∧ p.writeopen = true ∨
      piperead killed n p = (.done (pipereadCopy n p).1, (pipereadCopy n p).2) ∧
        (p.empty = true → p.writeopen = false) := by
  by_cases waits : p.empty = true ∧ p.writeopen = true
  · cases killed
    · exact Or.inr (Or.inl ⟨if_pos waits, waits⟩)
    · exact Or.inl ⟨if_pos waits, rfl⟩
  · refine Or.inr (Or.inr ⟨if_neg waits, fun none_left => ?_⟩)
    rw [← Bool.not_eq_true]
    exact fun still_open => waits ⟨none_left, still_open⟩

/-- Closing an end leaves the ring alone. -/
theorem Pipe.Carries.close {p : Pipe} {accepted : List UInt8} {r : Nat}
    (held : p.Carries accepted r) (writable : Bool) : (p.close writable).Carries accepted r := by
  cases writable <;> exact ⟨held.window, held.nread, held.nwrite⟩

theorem pipeclose_eq_some {writable : Bool} {p p' : Pipe} (left : pipeclose writable p = some p') :
    p' = p.close writable := by
  rw [pipeclose] at left
  split at left
  · cases left
  · exact (Option.some.inj left).symm

end BasicOS
