/-
# BasicOS.Lib.Slots — a table of slots as a finite map

A table has numbered slots, each free or holding a key and a value.  While no
two slots hold the same key, the table is a finite map: filling a free slot adds
one binding (`binds_fill`), emptying a slot removes one (`binds_clear`), and
both keep the keys apart.
-/
import Mathlib.Algebra.GroupWithZero.Nat
import Mathlib.Logic.Function.Basic
import Mathlib.Tactic.Common

namespace BasicOS.Lib

open Function

set_option autoImplicit false

/-- The slots below `len` are the table; the others are not part of it. -/
@[ext] structure Slots (K V : Type) where
  len : Nat
  cell : Nat → Option (K × V)

namespace Slots

variable {K V : Type}

/-- Slot `e` of the table holds the binding. -/
def At (s : Slots K V) (e : Nat) (k : K) (v : V) : Prop :=
  e < s.len ∧ s.cell e = some (k, v)

def Binds (s : Slots K V) (k : K) (v : V) : Prop :=
  ∃ e, s.At e k v

/-- The slot holds the binding and none before it has the key. -/
def First (s : Slots K V) (e : Nat) (k : K) (v : V) : Prop :=
  s.At e k v ∧ ∀ j < e, ∀ v', ¬ s.At j k v'

/-- The value in the first slot with the key. -/
def lookup [DecidableEq K] (s : Slots K V) (k : K) : Option V :=
  (List.range s.len).findSome? fun e =>
    (s.cell e).bind fun x => if x.1 = k then some x.2 else none

/-- No two slots hold one key. -/
def Distinct (s : Slots K V) : Prop :=
  ∀ ⦃e e' k v v'⦄, s.At e k v → s.At e' k v' → e = e'

/-- A slot is free, or just behind the table. -/
def Free (s : Slots K V) (e : Nat) : Prop :=
  e < s.len ∧ s.cell e = none ∨ e = s.len

/-- Slot `e` gets new contents; the table grows if the slot is behind it. -/
def put (s : Slots K V) (e : Nat) (x : Option (K × V)) : Slots K V :=
  ⟨max s.len (e + 1), update s.cell e x⟩

variable {s : Slots K V} {e : Nat} {k : K} {v : V}

theorem not_binds_of_empty (empty : s.len = 0) (k : K) (v : V) : ¬ s.Binds k v := by
  rintro ⟨e, inside, -⟩
  omega

section Lookup

variable [DecidableEq K]

theorem bind_eq_some_iff_at (inside : e < s.len) :
    ((s.cell e).bind fun x => if x.1 = k then some x.2 else none) = some v ↔ s.At e k v := by
  simp only [Option.bind_eq_some_iff, Option.ite_none_right_eq_some, Option.some.injEq, At, inside,
    true_and]
  constructor
  · rintro ⟨⟨_, _⟩, here, rfl, rfl⟩
    exact here
  · intro here
    exact ⟨_, here, rfl, rfl⟩

theorem lookup_eq_none (absent : ∀ v, ¬ s.Binds k v) : s.lookup k = none := by
  refine List.findSome?_eq_none_iff.mpr fun e mem => ?_
  by_contra found
  obtain ⟨v, found⟩ := Option.ne_none_iff_exists'.mp found
  exact absent v ⟨e, (bind_eq_some_iff_at (List.mem_range.mp mem)).mp found⟩

theorem First.lookup (first : s.First e k v) : s.lookup k = some v := by
  have inside := first.1.1
  have split : List.range s.len = List.range e ++ e :: List.range' (e + 1) (s.len - e - 1) := by
    rw [List.range_eq_range', List.range_eq_range',
      show s.len = e + (s.len - e - 1 + 1) by omega, ← List.range'_append_1, List.range'_succ]
    simp
  have here : ((s.cell e).bind fun x => if x.1 = k then some x.2 else none) = some v :=
    (bind_eq_some_iff_at inside).mpr first.1
  have before : ((List.range e).findSome? fun e =>
      (s.cell e).bind fun x => if x.1 = k then some x.2 else none) = none := by
    refine List.findSome?_eq_none_iff.mpr fun j mem => ?_
    by_contra found
    obtain ⟨v', found⟩ := Option.ne_none_iff_exists'.mp found
    have lower := List.mem_range.mp mem
    exact first.2 j lower v' ((bind_eq_some_iff_at (by omega)).mp found)
  rw [Slots.lookup, split, List.findSome?_append, before, List.findSome?_cons, here]
  rfl

end Lookup

theorem Free.le_len (free : s.Free e) : e ≤ s.len := by
  rcases free with ⟨inside, -⟩ | rfl
  · exact Nat.le_of_lt inside
  · exact Nat.le_refl _

theorem Free.not_at (free : s.Free e) : ¬ s.At e k v := by
  rintro ⟨inside, holds⟩
  rcases free with ⟨-, none_there⟩ | rfl
  · rw [none_there] at holds
    cases holds
  · exact Nat.lt_irrefl _ inside

/-- What the slots hold after a change of one of them. -/
theorem at_put (near : e ≤ s.len) {x : Option (K × V)} {j : Nat} :
    (s.put e x).At j k v ↔ j = e ∧ x = some (k, v) ∨ j ≠ e ∧ s.At j k v := by
  unfold At put
  by_cases here : j = e
  · subst here
    simp only [update_self, true_and, ne_eq, not_true_eq_false, false_and, or_false,
      and_iff_right_iff_imp]
    intro _
    omega
  · simp only [update_of_ne here, here, false_and, ne_eq, not_false_eq_true, true_and, false_or,
      and_congr_left_iff]
    omega

theorem binds_fill (free : s.Free e) {k' : K} {v' : V} :
    (s.put e (some (k, v))).Binds k' v' ↔ k' = k ∧ v' = v ∨ s.Binds k' v' := by
  unfold Binds
  simp only [at_put free.le_len]
  constructor
  · rintro ⟨j, ⟨-, same⟩ | ⟨-, old⟩⟩
    · simp only [Option.some.injEq, Prod.mk.injEq] at same
      exact .inl ⟨same.1.symm, same.2.symm⟩
    · exact .inr ⟨j, old⟩
  · rintro (⟨rfl, rfl⟩ | ⟨j, old⟩)
    · exact ⟨e, .inl ⟨rfl, rfl⟩⟩
    · refine ⟨j, .inr ⟨?_, old⟩⟩
      rintro rfl
      exact free.not_at old

theorem Distinct.fill (distinct : s.Distinct) (near : e ≤ s.len)
    (absent : ∀ v, ¬ s.Binds k v) : (s.put e (some (k, v))).Distinct := by
  intro j j' l w w' here there
  rw [at_put near] at here there
  rcases here with ⟨rfl, same⟩ | ⟨-, old⟩ <;> rcases there with ⟨rfl, same'⟩ | ⟨-, old'⟩
  · rfl
  · obtain rfl : k = l := by simpa using congrArg (Option.map Prod.fst) same
    exact absurd ⟨j', old'⟩ (absent w')
  · obtain rfl : k = l := by simpa using congrArg (Option.map Prod.fst) same'
    exact absurd ⟨j, old⟩ (absent w)
  · exact distinct old old'

theorem binds_clear (distinct : s.Distinct) (here : s.At e k v) {k' : K} {v' : V} :
    (s.put e none).Binds k' v' ↔ k' ≠ k ∧ s.Binds k' v' := by
  unfold Binds
  simp only [at_put (Nat.le_of_lt here.1), reduceCtorEq, and_false, false_or]
  constructor
  · rintro ⟨j, other, old⟩
    refine ⟨?_, j, old⟩
    rintro rfl
    exact other (distinct old here)
  · rintro ⟨other, j, old⟩
    refine ⟨j, ?_, old⟩
    rintro rfl
    exact other (by simpa using congrArg (Option.map Prod.fst) (old.2.symm.trans here.2))

theorem Distinct.clear (distinct : s.Distinct) (near : e ≤ s.len) : (s.put e none).Distinct := by
  intro j j' l w w' here there
  rw [at_put near] at here there
  rcases here with ⟨-, bad⟩ | ⟨-, old⟩
  · cases bad
  · rcases there with ⟨-, bad⟩ | ⟨-, old'⟩
    · cases bad
    · exact distinct old old'

theorem len_put_inside {x : Option (K × V)} (inside : e < s.len) : (s.put e x).len = s.len :=
  Nat.max_eq_left inside

end Slots

end BasicOS.Lib
