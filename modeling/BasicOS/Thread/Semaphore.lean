/-
# BasicOS.Thread.Semaphore — sem_wait and sem_post, load by load

The semaphore of thread_lock_impl.h: a mutex word, an `int` count and a channel.  The
mutex is a word in user memory.  `sem_wait` takes it there, but while it waits,
`thread_sleep` of proc.c clears it inside the kernel, under `ptable.lock`, and takes
it again after the wakeup without `ptable.lock`.  `sem_post` gives the mutex up before
it wakes the channel.

A step is one exchange, load or store of a thread, or one action under `ptable.lock`.
A thread can be woken for other reasons than a post.  A failed exchange leads to
`sleep(1)` or `yield`, and then to the next exchange; a thread that sleeps on
`&ticks` there does not sleep on the semaphore.

The count is the initial count with the posts and without the waits, modulo `2 ^ 32`
(`semaphore_safe`).  It is an `int`, so that it is that number itself only below
`2 ^ 31` (`post_wraps`).
-/
import BasicOS.Lib.LockWord
import BasicOS.Lib.Run
import Mathlib.Data.BitVec

namespace BasicOS.Semaphore

open Lib Function

set_option autoImplicit false

/-! ## Threads -/

/-- What a thread does next. -/
inductive Pc where
  | out
  /-- `sem_wait`: the `xchg` of `thread_mutex_lock`. -/
  | waitLock
  /-- The load of `while (sem->count == 0)`. -/
  | test
  /-- `thread_sleep`: `acquire(&ptable.lock)`. -/
  | sleepAcquire
  /-- `mutex_unlock(lk)`. -/
  | sleepUnlock
  /-- `p->chan = chan; p->state = SLEEPING`. -/
  | sleepMark
  /-- `sched`: SLEEPING, and the scheduler has yet to release `ptable.lock`. -/
  | sleepSwitch
  /-- SLEEPING on the channel. -/
  | asleep
  /-- RUNNABLE: the scheduler has to acquire `ptable.lock` and switch to it. -/
  | woken
  /-- Back from `sched`: `release(&ptable.lock)`. -/
  | sleepRelease
  /-- The `xchg` of `mutex_lock(lk)`. -/
  | relock
  /-- The load of `sem->count--`. -/
  | decLoad
  /-- Its store, with the value loaded. -/
  | decStore (count : BitVec 32)
  | waitUnlock
  /-- `sem_post`: the `xchg` of `thread_mutex_lock`. -/
  | postLock
  /-- The load of `sem->count++`. -/
  | incLoad
  | incStore (count : BitVec 32)
  | postUnlock
  /-- `wakeup`: `acquire(&ptable.lock)`. -/
  | wakeAcquire
  /-- `wakeup1(chan)`. -/
  | wakeAll
  | wakeRelease
  deriving DecidableEq

namespace Pc

/-- Between `thread_mutex_lock` and `thread_mutex_unlock`, and not where `thread_sleep`
has given the mutex up. -/
def inMutex : Pc → Bool
  | .test | .sleepAcquire | .sleepUnlock | .decLoad | .decStore _ | .waitUnlock => true
  | .incLoad | .incStore _ | .postUnlock => true
  | _ => false

/-- The thread has `ptable.lock`, or gave it to the scheduler that will release it. -/
def inTable : Pc → Bool
  | .sleepUnlock | .sleepMark | .sleepSwitch | .sleepRelease | .wakeAll | .wakeRelease => true
  | _ => false

def sleeping : Pc → Bool
  | .sleepSwitch | .asleep => true
  | _ => false

/-- The thread sleeps, or has given up the mutex to do so. -/
def bound : Pc → Bool
  | .sleepMark => true
  | pc => pc.sleeping

/-- A post that has incremented the count and has not made its wakeup. -/
def signals : Pc → Bool
  | .postUnlock | .wakeAcquire | .wakeAll => true
  | _ => false

/-- `wakeup1` for one thread. -/
def wake : Pc → Pc
  | .asleep => .woken
  | pc => pc

/-- What the thread knows of the count. -/
def Knows (count : BitVec 32) : Pc → Prop
  | .sleepAcquire | .sleepUnlock => count = 0
  | .decLoad => count ≠ 0
  | .decStore loaded => loaded = count ∧ count ≠ 0
  | .incStore loaded => loaded = count
  | _ => True

variable {pc : Pc} {count : BitVec 32}

@[simp] theorem inMutex_wake (pc : Pc) : pc.wake.inMutex = pc.inMutex := by cases pc <;> rfl

@[simp] theorem inTable_wake (pc : Pc) : pc.wake.inTable = pc.inTable := by cases pc <;> rfl

/-- Only a thread in the mutex knows something of the count. -/
theorem knows_of_outside (outside : pc.inMutex = false) : pc.Knows count := by
  cases pc <;> trivial

theorem knows_wake (knows : pc.Knows count) : pc.wake.Knows count := by
  cases pc <;> exact knows

/-- What a wakeup leaves asleep has `ptable.lock`. -/
theorem inTable_of_bound_wake (bound : pc.wake.bound = true) : pc.inTable = true := by
  cases pc <;> first | rfl | cases bound

end Pc

structure State (P : Type) where
  /-- `sem->m.locked`. -/
  locked : Bool
  /-- `sem->count`. -/
  count : BitVec 32
  /-- `ptable.lock.locked`. -/
  table : Bool
  pc : P → Pc
  /-- The calls of `sem_wait` past their decrement. -/
  waited : Nat
  /-- The calls of `sem_post` past their increment. -/
  posted : Nat

inductive Event (P : Type) where
  | semWait (p : P)
  | semPost (p : P)
  /-- The thread makes its next step. -/
  | go (p : P)
  /-- The thread is woken, but not by a post. -/
  | spurious (p : P)
  deriving DecidableEq

/-- `sem_init`. -/
def init {P : Type} (count : Nat) : State P where
  locked := false
  count := BitVec.ofNat 32 count
  table := false
  pc _ := .out
  waited := 0
  posted := 0

section

variable {P : Type} [DecidableEq P]

namespace State

def goto (s : State P) (p : P) (pc : Pc) : State P :=
  { s with pc := update s.pc p pc }

/-- `xchg(&m->locked, 1)`, where the thread goes on if the word was clear. -/
def xchg (s : State P) (p : P) (next : Pc) : State P :=
  if s.locked then { s with locked := true } else { s.goto p next with locked := true }

/-- The word is cleared. -/
def unlock (s : State P) (p : P) (next : Pc) : State P :=
  { s.goto p next with locked := false }

def acquire (s : State P) (p : P) (next : Pc) : Option (State P) :=
  if s.table then none else some { s.goto p next with table := true }

def release (s : State P) (p : P) (next : Pc) : State P :=
  { s.goto p next with table := false }

/-- The next step of a thread. -/
def go (s : State P) (p : P) : Option (State P) :=
  match s.pc p with
  | .out => none
  | .waitLock => some (s.xchg p .test)
  | .test => some (s.goto p (if s.count = 0 then .sleepAcquire else .decLoad))
  | .sleepAcquire => s.acquire p .sleepUnlock
  | .sleepUnlock => some (s.unlock p .sleepMark)
  | .sleepMark => some (s.goto p .sleepSwitch)
  | .sleepSwitch => some (s.release p .asleep)
  | .asleep => none
  | .woken => s.acquire p .sleepRelease
  | .sleepRelease => some (s.release p .relock)
  | .relock => some (s.xchg p .test)
  | .decLoad => some (s.goto p (.decStore s.count))
  | .decStore count =>
    some { s.goto p .waitUnlock with count := count - 1, waited := s.waited + 1 }
  | .waitUnlock => some (s.unlock p .out)
  | .postLock => some (s.xchg p .incLoad)
  | .incLoad => some (s.goto p (.incStore s.count))
  | .incStore count =>
    some { s.goto p .postUnlock with count := count + 1, posted := s.posted + 1 }
  | .postUnlock => some (s.unlock p .wakeAcquire)
  | .wakeAcquire => s.acquire p .wakeAll
  | .wakeAll => some { s with pc := fun q => (update s.pc p .wakeRelease q).wake }
  | .wakeRelease => some (s.release p .out)

end State

def step (s : State P) : Event P → Option (State P)
  | .semWait p => if s.pc p = .out then some (s.goto p .waitLock) else none
  | .semPost p => if s.pc p = .out then some (s.goto p .postLock) else none
  | .go p => s.go p
  | .spurious p => if s.table = false ∧ s.pc p = .asleep then some (s.goto p .woken) else none

/-! ## The invariant -/

structure Inv (c : Nat) (s : State P) : Prop where
  mutex : Guarded s.locked fun p => (s.pc p).inMutex
  table : Guarded s.table fun p => (s.pc p).inTable
  knows : ∀ p, (s.pc p).Knows s.count
  admitted : s.waited ≤ c + s.posted
  count : s.count = BitVec.ofNat 32 (c + s.posted - s.waited)
  attended : ∀ p, (s.pc p).bound = true → s.count = 0 ∨ ∃ q, (s.pc q).signals = true

omit [DecidableEq P] in
theorem init_inv (c : Nat) : Inv c (init c : State P) :=
  ⟨guarded_init, guarded_init, fun _ => trivial, Nat.zero_le _, rfl, nofun⟩

variable {c : Nat} {s s' : State P} {p : P} {next : Pc}

section

variable (h : Inv c s)

include h

/-- A thread moves, and the count stays. -/
theorem Inv.move {locked table : Bool}
    (mutex : Guarded locked fun q => (update s.pc p next q).inMutex)
    (ptable : Guarded table fun q => (update s.pc p next q).inTable)
    (knows : next.Knows s.count)
    (bound : next.bound = true → (s.pc p).bound = true ∨ s.count = 0)
    (signals : (s.pc p).signals = true → next.signals = true) :
    Inv c { s.goto p next with locked := locked, table := table } := by
  refine ⟨mutex, ptable, ?_, h.admitted, h.count, ?_⟩
  · intro q
    by_cases here : q = p
    · simpa only [State.goto, here, update_self] using knows
    · simpa only [State.goto, update_of_ne here] using h.knows q
  · -- a post that signalled still does, at its old place or at the new one
    have still : ∀ q, (s.pc q).signals = true → ∃ r, (update s.pc p next r).signals = true := by
      intro q signals'
      by_cases here : q = p
      · exact ⟨p, by rw [update_self]; exact signals (here ▸ signals')⟩
      · exact ⟨q, by rwa [update_of_ne here]⟩
    have attended : ∀ q, (s.pc q).bound = true →
        s.count = 0 ∨ ∃ r, (update s.pc p next r).signals = true := by
      intro q bound'
      rcases h.attended q bound' with zero | ⟨r, signals'⟩
      · exact .inl zero
      · exact .inr (still r signals')
    intro q bound'
    by_cases here : q = p
    · simp only [State.goto, here, update_self] at bound'
      rcases bound bound' with before | zero
      · exact attended p before
      · exact .inl zero
    · simp only [State.goto, update_of_ne here] at bound'
      exact attended q bound'

/-- A thread moves, with the locks as they are. -/
theorem Inv.goto (mutex : next.inMutex = (s.pc p).inMutex)
    (table : next.inTable = (s.pc p).inTable) (knows : next.Knows s.count)
    (bound : next.bound = true → (s.pc p).bound = true ∨ s.count = 0)
    (signals : (s.pc p).signals = true → next.signals = true) : Inv c (s.goto p next) :=
  h.move (h.mutex.stays mutex) (h.table.stays table) knows bound signals

theorem Inv.xchg (gets : next.inMutex = true)
    (table : next.inTable = (s.pc p).inTable) (knows : next.Knows s.count)
    (awake : next.bound = false) (quiet : (s.pc p).signals = false) :
    Inv c (s.xchg p next) := by
  rw [State.xchg]
  split
  · rename_i taken
    have mutex := h.mutex
    rw [taken] at mutex
    exact ⟨mutex, h.table, h.knows, h.admitted, h.count, h.attended⟩
  · rename_i clear
    have mutex := h.mutex
    rw [Bool.not_eq_true] at clear
    rw [clear] at mutex
    refine h.move (mutex.takes gets) (h.table.stays table) knows ?_ ?_
    · intro bound
      rw [awake] at bound
      cases bound
    · intro signals
      rw [quiet] at signals
      cases signals

theorem Inv.unlock (had : (s.pc p).inMutex = true) (gone : next.inMutex = false)
    (table : next.inTable = (s.pc p).inTable) (zero : next.bound = true → s.count = 0)
    (signals : (s.pc p).signals = true → next.signals = true) : Inv c (s.unlock p next) :=
  h.move (h.mutex.gives had gone) (h.table.stays table) (Pc.knows_of_outside gone)
    (fun bound => .inr (zero bound)) signals

theorem Inv.acquire (done : s.acquire p next = some s')
    (gets : next.inTable = true)
    (mutex : next.inMutex = (s.pc p).inMutex) (knows : next.Knows s.count)
    (awake : next.bound = false) (signals : (s.pc p).signals = true → next.signals = true) :
    Inv c s' := by
  rw [State.acquire] at done
  split at done
  · cases done
  · rename_i clear
    cases done
    have table := h.table
    rw [Bool.not_eq_true] at clear
    rw [clear] at table
    refine h.move (h.mutex.stays mutex) (table.takes gets) knows ?_ signals
    intro bound
    rw [awake] at bound
    cases bound

theorem Inv.release (had : (s.pc p).inTable = true) (gone : next.inTable = false)
    (outside : (s.pc p).inMutex = false) (still : next.inMutex = false)
    (bound : next.bound = true → (s.pc p).bound = true) (quiet : (s.pc p).signals = false) :
    Inv c (s.release p next) := by
  refine h.move (h.mutex.stays (by rw [still, outside])) (h.table.gives had gone)
    (Pc.knows_of_outside still) (fun now => .inl (bound now)) ?_
  intro signals
  rw [quiet] at signals
  cases signals

/-- The thread in the mutex stores to the count; the others know nothing of it. -/
theorem Inv.store (inside : (s.pc p).inMutex = true) (stays : next.inMutex = true)
    (table : next.inTable = (s.pc p).inTable) {count : BitVec 32} {waited posted : Nat}
    (knows : next.Knows count) (admitted : waited ≤ c + posted)
    (exact_count : count = BitVec.ofNat 32 (c + posted - waited))
    (attended : ∀ q, (update s.pc p next q).bound = true →
      count = 0 ∨ ∃ r, (update s.pc p next r).signals = true) :
    Inv c { s.goto p next with count, waited, posted } := by
  refine ⟨h.mutex.stays (by rw [stays, inside]), h.table.stays table, ?_, admitted, exact_count,
    attended⟩
  intro q
  by_cases here : q = p
  · simpa only [State.goto, here, update_self] using knows
  · simp only [State.goto, update_of_ne here]
    refine Pc.knows_of_outside ?_
    by_contra held
    exact here (h.mutex.one q p (by simpa using held) inside)

theorem Inv.decrement {count : BitVec 32} (here : s.pc p = .decStore count) :
    Inv c { s.goto p .waitUnlock with count := count - 1, waited := s.waited + 1 } := by
  have knows := h.knows p
  rw [here] at knows
  obtain ⟨rfl, positive⟩ := knows
  have admitted := h.admitted
  have some_left : c + s.posted - s.waited ≠ 0 := by
    intro none_left
    rw [h.count, none_left] at positive
    exact positive rfl
  show Inv c { s.goto p .waitUnlock with
    count := s.count - 1, waited := s.waited + 1, posted := s.posted }
  refine h.store (by rw [here]; rfl) rfl (by rw [here]; rfl) trivial (by omega) ?_ ?_
  · rw [show c + s.posted - (s.waited + 1) = c + s.posted - s.waited - 1 by omega,
      ← BitVec.ofNat_sub_ofNat_of_le _ _ (by decide) (by omega), ← h.count]
    rfl
  · -- a post that has to signal is not the thread that decrements
    intro q bound
    have before : (s.pc q).bound = true := by
      by_cases at_p : q = p
      · rw [at_p, update_self] at bound
        cases bound
      · rwa [update_of_ne at_p] at bound
    obtain ⟨r, signals⟩ := (h.attended q before).resolve_left positive
    refine .inr ⟨r, ?_⟩
    have other : r ≠ p := by
      rintro rfl
      rw [here] at signals
      cases signals
    rwa [update_of_ne other]

theorem Inv.increment {count : BitVec 32} (here : s.pc p = .incStore count) :
    Inv c { s.goto p .postUnlock with count := count + 1, posted := s.posted + 1 } := by
  have knows := h.knows p
  rw [here] at knows
  obtain rfl : count = s.count := knows
  have admitted := h.admitted
  show Inv c { s.goto p .postUnlock with
    count := s.count + 1, waited := s.waited, posted := s.posted + 1 }
  refine h.store (by rw [here]; rfl) rfl (by rw [here]; rfl) trivial (by omega) ?_ ?_
  · rw [show c + (s.posted + 1) - s.waited = c + s.posted - s.waited + 1 by omega,
      BitVec.ofNat_add, ← h.count]
    rfl
  · exact fun _ _ => .inr ⟨p, by rw [update_self]; rfl⟩

/-- With `ptable.lock` in the hands of the post, nobody is on the way to sleep, and
everyone who sleeps is woken. -/
theorem Inv.wakeAll (here : s.pc p = .wakeAll) :
    Inv c { s with pc := fun q => (update s.pc p .wakeRelease q).wake } := by
  refine ⟨?_, ?_, ?_, h.admitted, h.count, ?_⟩
  · exact (h.mutex.stays (by rw [here]; rfl)).keep fun q => Pc.inMutex_wake _
  · exact (h.table.stays (by rw [here]; rfl)).keep fun q => Pc.inTable_wake _
  · intro q
    refine Pc.knows_wake ?_
    by_cases at_p : q = p
    · rw [at_p, update_self]
      trivial
    · rw [update_of_ne at_p]
      exact h.knows q
  · intro q bound
    have has := Pc.inTable_of_bound_wake bound
    have same : q = p := by
      by_contra at_p
      rw [update_of_ne at_p] at has
      exact at_p (h.table.one q p has (by rw [here]; rfl))
    simp only [same, update_self] at bound
    cases bound

theorem go_inv (went : s.go p = some s') : Inv c s' := by
  have knows := h.knows p
  rw [State.go] at went
  cases here : s.pc p <;> rw [here] at knows <;> simp only [here] at went
  case out | asleep => cases went
  case waitLock | relock | postLock =>
    cases went
    exact h.xchg rfl (by rw [here]; rfl) trivial rfl (by rw [here]; rfl)
  case test =>
    cases went
    split
    · rename_i zero
      exact h.goto (by rw [here]; rfl) (by rw [here]; rfl) zero nofun (by rw [here]; nofun)
    · rename_i positive
      exact h.goto (by rw [here]; rfl) (by rw [here]; rfl) positive nofun (by rw [here]; nofun)
  case sleepAcquire =>
    exact h.acquire went rfl (by rw [here]; rfl) knows rfl (by rw [here]; nofun)
  case sleepUnlock =>
    -- the count is still zero: the thread has been in the mutex since its test
    cases went
    exact h.unlock (by rw [here]; rfl) rfl (by rw [here]; rfl) (fun _ => knows)
      (by rw [here]; nofun)
  case sleepMark =>
    cases went
    exact h.goto (by rw [here]; rfl) (by rw [here]; rfl) trivial
      (fun _ => .inl (by rw [here]; rfl)) (by rw [here]; nofun)
  case sleepSwitch =>
    cases went
    exact h.release (by rw [here]; rfl) rfl (by rw [here]; rfl) rfl (fun _ => by rw [here]; rfl)
      (by rw [here]; rfl)
  case woken => exact h.acquire went rfl (by rw [here]; rfl) trivial rfl (by rw [here]; nofun)
  case sleepRelease | wakeRelease =>
    cases went
    exact h.release (by rw [here]; rfl) rfl (by rw [here]; rfl) rfl nofun (by rw [here]; rfl)
  case decLoad =>
    cases went
    exact h.goto (by rw [here]; rfl) (by rw [here]; rfl) ⟨rfl, knows⟩ nofun (by rw [here]; nofun)
  case decStore =>
    cases went
    exact h.decrement here
  case waitUnlock =>
    cases went
    exact h.unlock (by rw [here]; rfl) rfl (by rw [here]; rfl) nofun (by rw [here]; nofun)
  case incLoad =>
    cases went
    exact h.goto (by rw [here]; rfl) (by rw [here]; rfl) rfl nofun (by rw [here]; nofun)
  case incStore =>
    cases went
    exact h.increment here
  case postUnlock =>
    cases went
    exact h.unlock (by rw [here]; rfl) rfl (by rw [here]; rfl) nofun (fun _ => rfl)
  case wakeAcquire => exact h.acquire went rfl (by rw [here]; rfl) trivial rfl (fun _ => rfl)
  case wakeAll =>
    cases went
    exact h.wakeAll here

theorem step_inv {e : Event P} (stepped : step s e = some s') : Inv c s' := by
  cases e with
  | go p => exact go_inv h stepped
  | semWait p | semPost p =>
    simp only [step] at stepped
    split at stepped
    · rename_i here
      cases stepped
      exact h.goto (by rw [here]; rfl) (by rw [here]; rfl) trivial nofun (by rw [here]; nofun)
    · cases stepped
  | spurious p =>
    simp only [step] at stepped
    split at stepped
    · rename_i here
      cases stepped
      exact h.goto (by rw [here.2]; rfl) (by rw [here.2]; rfl) trivial nofun
        (by rw [here.2]; nofun)
    · cases stepped

end

/-- **The semaphore.**  Whatever the threads do and however they are woken: one thread
at most is in the mutex; no more waits are admitted than the initial count and the
posts allow, and the count is what is left, as an `int`; and if a thread sleeps though
the count is not zero, some post has incremented it and has yet to make its wakeup. -/
theorem semaphore_safe (c : Nat) (es : List (Event P)) (s : State P)
    (reached : run step (init c) es = some s) :
    (∀ p q, (s.pc p).inMutex = true → (s.pc q).inMutex = true → p = q) ∧
    (s.waited ≤ c + s.posted ∧ s.count = BitVec.ofNat 32 (c + s.posted - s.waited) ∧
      (c + s.posted - s.waited < 2 ^ 31 →
        s.count.toInt = (c : Int) + s.posted - s.waited)) ∧
    ∀ p, (s.pc p).sleeping = true → s.count ≠ 0 → ∃ q, (s.pc q).signals = true := by
  have h : Inv c s := run_invariant step (fun _ _ _ h stepped => step_inv h stepped)
    (init_inv c) reached
  have admitted := h.admitted
  refine ⟨h.mutex.one, ⟨admitted, h.count, fun small => ?_⟩, fun p asleep positive => ?_⟩
  · rw [h.count, BitVec.toInt_ofNat', Int.bmod_eq_of_le (by omega) (by omega)]
    omega
  · have bound : (s.pc p).bound = true := by
      cases at_p : s.pc p <;> rw [at_p] at asleep <;> first | rfl | cases asleep
    exact (h.attended p bound).resolve_left positive

end

/-- Thread 0 waits at a count of zero and sleeps; thread 1 posts, up to its wakeup. -/
def postBeforeWakeup : List (Event (Fin 2)) :=
  [.semWait 0] ++ List.replicate 6 (.go 0) ++ [.semPost 1] ++ List.replicate 4 (.go 1)

theorem post_before_wakeup : ∃ s : State (Fin 2),
    run step (init 0) postBeforeWakeup = some s ∧ s.pc 0 = .asleep ∧ s.count = 1 ∧
      s.waited ≤ 0 + s.posted ∧ ∃ q, (s.pc q).signals = true := by
  obtain ⟨s, done, asleep, count⟩ : ∃ s : State (Fin 2),
      run step (init 0) postBeforeWakeup = some s ∧ s.pc 0 = .asleep ∧ s.count = 1 :=
    ⟨_, rfl, rfl, rfl⟩
  obtain ⟨-, ⟨admitted, -⟩, attended⟩ := semaphore_safe 0 postBeforeWakeup s done
  refine ⟨s, done, asleep, count, admitted, attended 0 (by rw [asleep]; rfl) ?_⟩
  rw [count]
  decide

/-- One post at the largest initial count: `count` is negative. -/
theorem post_wraps : ∃ s : State (Fin 1),
    run step (init (2 ^ 31 - 1)) [.semPost 0, .go 0, .go 0, .go 0] = some s ∧
      s.waited = 0 ∧ s.posted = 1 ∧ s.count.toInt = -2 ^ 31 ∧
      s.count.toInt ≠ ((2 ^ 31 - 1 : Nat) : Int) + s.posted - s.waited :=
  ⟨_, rfl, rfl, rfl, by decide, by decide⟩

end BasicOS.Semaphore
