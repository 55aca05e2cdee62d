/-
# BasicOS.Pipe.Wakeup — who sleeps on a pipe

Any number of processes call `pipewrite`, `piperead` and `pipeclose` on one pipe, and
kill each other.  They are processes at a monitor (`Lib.Monitor`): `p->lock` guards
the pipe, and `sleep` and `wakeup` are taken apart into what they do with the lock
and with the lock of the process table.

No writer sleeps while there is room or no reader is left.  No reader sleeps while
there are bytes or no writer is left, as long as no `pipewrite` gives up in a stretch
in which it has stored bytes: that path of the source returns -1 without a wakeup.
-/
import BasicOS.Lib.Monitor
import BasicOS.Pipe.Basic

namespace BasicOS.PipeWait

open Lib Function

set_option autoImplicit false
set_option linter.unusedSectionVars false

/-- The channels `&p->nread` and `&p->nwrite`. -/
inductive Chan where
  | nread
  | nwrite
  deriving DecidableEq, Repr

/-- The call a process is in, from where it takes the lock next. -/
inductive Task where
  | idle
  | writing (left : List UInt8)
  | reading (n : Nat)
  | closing (writable : Bool)
  deriving DecidableEq, Repr

inductive Act where
  | pipewrite (bytes : List UInt8)
  | piperead (n : Nat)
  | pipeclose (writable : Bool)
  /-- The call that has begun goes on. -/
  | go
  deriving DecidableEq, Repr

/-- An idle process calls a function of the pipe. -/
def enterCall : Act → Task → Option Task
  | .pipewrite bytes, .idle => some (.writing bytes)
  | .piperead n, .idle => some (.reading n)
  | .pipeclose writable, .idle => some (.closing writable)
  | _, _ => none

/-- A call under the lock, to where it returns or sleeps. -/
def underLock (killed : Bool) : Task → Pipe → Option (Stretch (Option Pipe) Task Chan)
  | .idle, _ => none
  | .writing left, p =>
    let out := pipewrite killed left p
    match out.1 with
    | .done => some ⟨some out.2.2, [.nread], .idle, none⟩
    | .failed => some ⟨some out.2.2, [], .idle, none⟩
    | .asleep => some ⟨some out.2.2, [.nread], .writing out.2.1, some .nwrite⟩
  | .reading n, p =>
    let out := piperead killed n p
    match out.1 with
    | .done _ => some ⟨some out.2, [.nwrite], .idle, none⟩
    | .failed => some ⟨some out.2, [], .idle, none⟩
    | .asleep => some ⟨some out.2, [], .reading n, some .nread⟩
  | .closing writable, p =>
    some ⟨pipeclose writable p, [if writable then .nread else .nwrite], .idle, none⟩

/-- The processes at a pipe; there is nothing to lock once its page is freed. -/
def monitor : Monitor (Option Pipe) Task Chan Act where
  body a killed task data :=
    match a, data with
    | .go, some p => underLock killed task p
    | _, _ => none
  free a task data := (enterCall a task).map fun task => (task, data)

/-- The state of a pipe with its processes. -/
abbrev State (P : Type) := MState P (Option Pipe) Task Chan

abbrev Event (P : Type) := MEvent P Act

section

variable {P : Type} [DecidableEq P]

abbrev step (s : State P) (e : Event P) : Option (State P) :=
  monitor.step s e

def init (page : Nat → UInt8) : State P :=
  MState.init (some (Pipe.alloc page)) .idle

/-- A `pipewrite` that stores bytes and, in the same stretch, gives up. -/
def givesUp (s : State P) : Event P → Bool
  | .enter q _ =>
    match s.local q, s.data with
    | .writing left, some p =>
      let out := pipewrite (s.killed q) left p
      out.1 = .failed ∧ out.2.1 ≠ left
    | _, _ => false
  | _ => false

/-! ## The conditions for a sleep -/

/-- A reader waits for bytes, or for the last writer to go. -/
def ReaderWaits (p : Pipe) : Prop :=
  p.nread = p.nwrite ∧ p.writeopen = true

/-- A writer waits for room, or for the last reader to go. -/
def WriterWaits (p : Pipe) : Prop :=
  p.full = true ∧ p.readopen = true

def waits : Chan → Option Pipe → Prop
  | _, none => False
  | .nread, some p => ReaderWaits p
  | .nwrite, some p => WriterWaits p

/-! ## What a stretch leaves behind -/

theorem pipewrite_of_full {p : Pipe} (full : p.full = true) (killed : Bool) (left : List UInt8) :
    (pipewrite killed left p).2.2 = p := by
  cases left with
  | nil => rfl
  | cons b left =>
    rw [pipewrite, if_pos full]
    split <;> rfl

theorem pipewrite_left_length (killed : Bool) (left : List UInt8) (p : Pipe) :
    (pipewrite killed left p).2.1.length ≤ left.length := by
  induction left generalizing p with
  | nil => exact Nat.le_refl 0
  | cons b left ih =>
    rw [pipewrite]
    split
    · split <;> exact Nat.le_refl _
    · exact Nat.le_succ_of_le (ih (p.store b))

/-- A stretch that leaves all of its bytes over leaves the pipe alone. -/
theorem pipewrite_of_left {killed : Bool} {left : List UInt8} {p : Pipe}
    (all : (pipewrite killed left p).2.1 = left) : (pipewrite killed left p).2.2 = p := by
  cases left with
  | nil => rfl
  | cons b left =>
    rw [pipewrite] at all ⊢
    split
    · split <;> rfl
    · rename_i room
      rw [if_neg room] at all
      have short := pipewrite_left_length killed left (p.store b)
      rw [all, List.length_cons] at short
      omega

theorem pipewrite_asleep {killed : Bool} {left : List UInt8} {p : Pipe}
    (asleep : (pipewrite killed left p).1 = .asleep) :
    WriterWaits (pipewrite killed left p).2.2 := by
  induction left generalizing p with
  | nil => cases asleep
  | cons b left ih =>
    rw [pipewrite] at asleep ⊢
    split at asleep
    · rename_i full
      rw [if_pos full]
      split at asleep
      · cases asleep
      · rename_i alone
        rw [if_neg alone]
        simp only [not_or, Bool.not_eq_false] at alone
        exact ⟨full, alone.1⟩
    · rename_i room
      rw [if_neg room]
      exact ih asleep

theorem close_waits {p : Pipe} {writable : Bool} {c : Chan}
    (other : c ≠ if writable then .nread else .nwrite) (now : waits c (some p)) :
    waits c (pipeclose writable p) := by
  cases c with
  | nread =>
    obtain rfl : writable = false := by simpa using other
    rw [pipeclose, if_neg fun both => by simp [Pipe.close, now.2] at both]
    exact now
  | nwrite =>
    obtain rfl : writable = true := by simpa using other
    rw [pipeclose, if_neg fun both => by simp [Pipe.close, now.2] at both]
    exact now

/-- A stretch wakes the channels whose condition it ends, but for a `pipewrite` that
gives up, and sleeps only while the condition holds. -/
theorem underLock_signals {killed : Bool} {task : Task} {p : Pipe}
    {r : Stretch (Option Pipe) Task Chan} (does : underLock killed task p = some r) :
    (∀ c, waits c (some p) → waits c r.data ∨ c ∈ r.wakes ∨
      c = .nread ∧ ∃ left, task = .writing left ∧ (pipewrite killed left p).1 = .failed ∧
        (pipewrite killed left p).2.1 ≠ left) ∧
    ∀ c, r.sleeps = some c → waits c r.data := by
  cases task with
  | idle => cases does
  | writing left =>
    have writer : waits .nwrite (some p) → waits .nwrite (some (pipewrite killed left p).2.2) := by
      intro now
      rw [pipewrite_of_full now.1]
      exact now
    simp only [underLock] at does
    split at does
    · cases does
      refine ⟨?_, nofun⟩
      rintro (_ | _) now
      · exact .inr (.inl (List.mem_singleton.mpr rfl))
      · exact .inl (writer now)
    · rename_i failed
      cases does
      refine ⟨?_, nofun⟩
      rintro (_ | _) now
      · by_cases all : (pipewrite killed left p).2.1 = left
        · rw [pipewrite_of_left all]
          exact .inl now
        · exact .inr (.inr ⟨rfl, left, rfl, failed, all⟩)
      · exact .inl (writer now)
    · rename_i asleep
      cases does
      refine ⟨?_, ?_⟩
      · rintro (_ | _) now
        · exact .inr (.inl (List.mem_singleton.mpr rfl))
        · exact .inl (writer now)
      · rintro c ⟨⟩
        exact pipewrite_asleep asleep
  | reading n =>
    simp only [underLock] at does
    rcases piperead_cases killed n p with ⟨out, -⟩ | ⟨out, empty, writer⟩ | ⟨out, shut⟩
    · rw [out] at does
      cases does
      exact ⟨fun _ now => .inl now, nofun⟩
    · rw [out] at does
      cases does
      refine ⟨fun _ now => .inl now, ?_⟩
      rintro c ⟨⟩
      exact ⟨beq_iff_eq.mp empty, writer⟩
    · rw [out] at does
      cases does
      refine ⟨?_, nofun⟩
      rintro (_ | _) now
      · -- an empty pipe with a writer is not read
        have closed := shut (beq_iff_eq.mpr now.1)
        rw [now.2] at closed
        cases closed
      · exact .inr (.inl (List.mem_singleton.mpr rfl))
  | closing writable =>
    cases does
    refine ⟨?_, nofun⟩
    intro c now
    by_cases woken : c = if writable then .nread else .nwrite
    · exact .inr (.inl (List.mem_singleton.mpr woken))
    · exact .inl (close_waits woken now)

/-! ## No wakeup is lost -/

variable {s s' : State P} {e : Event P}

theorem step_signals {need : Chan → Option Pipe → Prop}
    (stretch : ∀ {q a p r}, e = .enter q a → s.data = some p →
      underLock (s.killed q) (s.local q) p = some r →
      (∀ c, need c (some p) → need c r.data ∨ c ∈ r.wakes) ∧
        ∀ c, r.sleeps = some c → need c r.data) : monitor.Signals need s e := by
  cases e with
  | enter q a =>
    intro r does
    cases a with
    | go =>
      cases held : s.data with
      | none =>
        rw [held] at does
        cases does
      | some p =>
        rw [held] at does
        exact stretch rfl held does
    | _ => cases does
  | free q a =>
    intro r does c now
    obtain ⟨task, -, rfl⟩ := Option.map_eq_some_iff.mp does
    exact now
  | _ => trivial

/-- The condition of the writers' channel alone. -/
def writerWaits (c : Chan) (data : Option Pipe) : Prop :=
  c = .nwrite → waits .nwrite data

theorem writer_signals : monitor.Signals writerWaits s e := by
  refine step_signals fun _ _ does => ?_
  obtain ⟨kept, sleeps⟩ := underLock_signals does
  refine ⟨fun c now => ?_, fun c asleep isWriter => ?_⟩
  · by_cases isWriter : c = .nwrite
    · subst isWriter
      rcases kept .nwrite (now rfl) with still | woken | ⟨other, -⟩
      · exact .inl fun _ => still
      · exact .inr woken
      · cases other
    · exact .inl fun same => absurd same isWriter
  · rw [isWriter] at asleep
    exact sleeps .nwrite asleep

theorem waits_signals (keeps : givesUp s e = false) : monitor.Signals waits s e := by
  refine step_signals fun {q a p r} entered held does => ?_
  obtain ⟨kept, sleeps⟩ := underLock_signals does
  refine ⟨fun c now => ?_, sleeps⟩
  rcases kept c now with still | woken | ⟨-, left, task, failed, stored⟩
  · exact .inl still
  · exact .inr woken
  · rw [entered, givesUp, task, held] at keeps
    simp [failed, stored] at keeps

/-- In every state in which `p->lock` is free, a process that sleeps on `&p->nwrite`
finds the pipe full with a reader left; and a process that sleeps on `&p->nread`
finds it empty with a writer left, if no `pipewrite` has given up in a stretch in
which it had stored bytes. -/
theorem pipe_wakeups (page : Nat → UInt8) (es : List (Event P)) (s : State P)
    (reached : run step (init page) es = some s) (clear : s.lock = false) :
    (∀ q task, s.pc q = .asleep .nwrite task →
      ∃ p, s.data = some p ∧ p.full = true ∧ p.readopen = true) ∧
    (Along step (fun s e => givesUp s e = false) (init page) es →
      ∀ q task, s.pc q = .asleep .nread task →
        ∃ p, s.data = some p ∧ p.nread = p.nwrite ∧ p.writeopen = true) := by
  have open_of_waits : ∀ {c}, waits c s.data → ∃ p, s.data = some p ∧ waits c (some p) := by
    intro c now
    cases held : s.data with
    | none =>
      rw [held] at now
      cases c <;> cases now
    | some p => exact ⟨p, rfl, held ▸ now⟩
  refine ⟨?_, ?_⟩
  · intro q task asleep
    have signals : Along step (monitor.Signals writerWaits) (init page) es :=
      along_of_invariant step (I := fun _ => True) (fun _ _ _ _ _ => trivial)
        (fun _ _ _ => writer_signals) trivial
    obtain ⟨exclusive, attended⟩ := Monitor.run_attended signals reached
    exact open_of_waits (attended.need_of_asleep exclusive clear asleep rfl)
  · intro along q task asleep
    have signals : Along step (monitor.Signals waits) (init page) es :=
      along_mono step (fun _ _ => waits_signals) along
    obtain ⟨exclusive, attended⟩ := Monitor.run_attended signals reached
    exact open_of_waits (attended.need_of_asleep exclusive clear asleep)

end

/-- A reader of an empty pipe sleeps. -/
def readerSleeps : List (Event (Fin 2)) :=
  [.free 0 (.piperead 1), .enter 0 .go, .sleepAcquire 0, .sleepRelease 0, .sleepSwitch 0]

theorem reader_sleeps_on_empty : ∃ s p, run step (init fun _ => 0) readerSleeps = some s ∧
    s.pc 0 = .asleep .nread (.reading 1) ∧ s.data = some p ∧ p.nread = p.nwrite ∧
    p.writeopen = true := by
  obtain ⟨s, done, clear, asleep⟩ : ∃ s, run step (init fun _ => 0) readerSleeps = some s ∧
      s.lock = false ∧ s.pc 0 = .asleep .nread (.reading 1) := ⟨_, rfl, rfl, rfl⟩
  obtain ⟨p, held, empty, writer⟩ :=
    (pipe_wakeups (fun _ => 0) readerSleeps s done clear).2 (by decide) 0 _ asleep
  exact ⟨s, p, done, asleep, held, empty, writer⟩

/-- A killed writer fills the pipe of the sleeping reader and gives up. -/
def writerGivesUp : List (Event (Fin 2)) :=
  readerSleeps ++ [.kill 1, .free 1 (.pipewrite (List.replicate 513 0)), .enter 1 .go, .release 1]

/-- The reader is asleep with 512 bytes in the pipe, and the lock is free. -/
theorem reader_sleeps_on_full : ∃ s p, run step (init fun _ => 0) writerGivesUp = some s ∧
    s.lock = false ∧ s.pc 0 = .asleep .nread (.reading 1) ∧ s.data = some p ∧
    p.nwrite - p.nread = 512 := by
  have shown : (run step (init fun _ => 0) writerGivesUp).map
      (fun s => (s.lock, s.pc 0, s.data.map fun p => p.nwrite - p.nread)) =
      some (false, .asleep .nread (.reading 1), some 512) := by
    decide +kernel
  obtain ⟨s, done, seen⟩ := Option.map_eq_some_iff.mp shown
  simp only [Prod.mk.injEq, Option.map_eq_some_iff] at seen
  obtain ⟨clear, asleep, p, held, level⟩ := seen
  exact ⟨s, p, done, clear, asleep, held, level⟩

end BasicOS.PipeWait
