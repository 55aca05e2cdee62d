/-
# BasicOS.Lib.LockWord — a lock that is a word in memory

A process that finds the word clear sets it and has the lock; the process that has the
lock clears the word.  Nothing else is kept of who has it.  `Guarded` says that the
word is set exactly when some process is at a point where it has the lock, and that
there is one such process.  It is kept when processes move: one that takes the lock
(`Guarded.takes`), gives it up (`Guarded.gives`) or does neither (`Guarded.stays`).
-/
import Mathlib.Algebra.GroupWithZero.Nat
import Mathlib.Logic.Function.Basic

namespace BasicOS.Lib

open Function

set_option autoImplicit false

variable {P : Type}

/-- A lock word and the processes that have set it. -/
structure Guarded (word : Bool) (holds : P → Bool) : Prop where
  set : ∀ p, holds p = true → word = true
  one : ∀ p q, holds p = true → holds q = true → p = q
  owned : word = true → ∃ p, holds p = true

variable {word : Bool} {holds holds' : P → Bool} {p : P}

theorem guarded_init : Guarded false fun _ : P => false :=
  ⟨nofun, nofun, nofun⟩

theorem Guarded.none (h : Guarded false holds) (q : P) : holds q = false := by
  by_contra held
  exact absurd (h.set q (by simpa using held)) Bool.false_ne_true

/-- The lock is taken by one process. -/
theorem Guarded.acquire (h : Guarded false holds) (own : holds' p = true)
    (others : ∀ q, q ≠ p → holds' q = holds q) : Guarded true holds' := by
  have only : ∀ q, holds' q = true → q = p := by
    intro q held
    by_contra other
    rw [others q other, h.none q] at held
    cases held
  exact ⟨fun _ _ => rfl, fun q r hq hr => (only q hq).trans (only r hr).symm, fun _ => ⟨p, own⟩⟩

/-- The lock is given up by the process that has it. -/
theorem Guarded.release (h : Guarded word holds) (had : holds p = true) (gone : holds' p = false)
    (others : ∀ q, q ≠ p → holds' q = holds q) : Guarded false holds' := by
  have empty : ∀ q, holds' q = false := by
    intro q
    by_cases same : q = p
    · rw [same, gone]
    · rw [others q same]
      by_contra held
      exact same (h.one q p (by simpa using held) had)
  refine ⟨fun q held => ?_, fun q r held => ?_, nofun⟩
  · rw [empty q] at held
    cases held
  · rw [empty q] at held
    cases held

/-- Nobody takes the lock or gives it up. -/
theorem Guarded.keep (h : Guarded word holds) (same : ∀ q, holds' q = holds q) :
    Guarded word holds' := by
  obtain rfl : holds' = holds := funext same
  exact h

section Moves

variable {X : Type} [DecidableEq P] {f : X → Bool} {pc : P → X} {q : P} {x : X}

theorem Guarded.stays (h : Guarded word fun p => f (pc p)) (same : f x = f (pc q)) :
    Guarded word fun p => f (update pc q x p) := by
  refine h.keep fun p => ?_
  by_cases here : p = q
  · rw [here, update_self, same]
  · rw [update_of_ne here]

theorem Guarded.takes (h : Guarded false fun p => f (pc p)) (own : f x = true) :
    Guarded true fun p => f (update pc q x p) :=
  h.acquire (p := q) (by rw [update_self, own]) fun p other => by rw [update_of_ne other]

theorem Guarded.gives (h : Guarded word fun p => f (pc p)) (had : f (pc q) = true)
    (gone : f x = false) : Guarded false fun p => f (update pc q x p) :=
  h.release had (by rw [update_self, gone]) fun p other => by rw [update_of_ne other]

end Moves

end BasicOS.Lib
