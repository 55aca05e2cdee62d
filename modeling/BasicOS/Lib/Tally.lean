/-
# BasicOS.Lib.Tally — how many places hold a value

`tally f b` counts the places of a finite table `f` that hold `b`.  A reference
count is right when it is such a tally; `tally_update` says how one write to the
table changes it.
-/
import Mathlib.Algebra.BigOperators.Ring.Finset
import Mathlib.Algebra.BigOperators.Pi
import Mathlib.Data.Fintype.Prod

namespace BasicOS.Lib

open Function

set_option autoImplicit false

variable {ι κ β : Type} [Fintype ι] [DecidableEq ι] [DecidableEq β]

/-- The number of places that hold `b`. -/
def tally (f : ι → Option β) (b : β) : Nat :=
  (Finset.univ.filter fun i => f i = some b).card

/-- What one place adds to the tallies. -/
def credit (o : Option β) (b : β) : Int :=
  if o = some b then 1 else 0

@[simp] theorem credit_none : credit (none : Option β) = 0 := by
  funext b
  simp [credit]

@[simp] theorem credit_some_self (b : β) : credit (some b) b = 1 := by
  simp [credit]

theorem credit_some (b c : β) : credit (some b) c = if c = b then 1 else 0 := by
  unfold credit
  by_cases here : c = b
  · simp [here]
  · simp [here, Ne.symm here]

theorem credit_nonneg (o : Option β) (b : β) : 0 ≤ credit o b := by
  unfold credit
  split <;> decide

omit [DecidableEq ι] in
theorem tally_eq_sum (f : ι → Option β) (b : β) : (tally f b : Int) = ∑ i, credit (f i) b := by
  simp [tally, credit]

theorem tally_update (f : ι → Option β) (i : ι) (o : Option β) (b : β) :
    (tally (update f i o) b : Int) = tally f b + credit o b - credit (f i) b := by
  rw [tally_eq_sum, tally_eq_sum]
  have moved : (fun j => credit (update f i o j) b) =
      update (fun j => credit (f j) b) i (credit o b) := by
    apply funext
    intro j
    exact apply_update (fun _ v => credit v b) f i o j
  have split := Finset.add_sum_erase Finset.univ (fun j => credit (f j) b) (Finset.mem_univ i)
  rw [moved, Finset.sum_update_of_mem (Finset.mem_univ i), ← Finset.erase_eq]
  omega

omit [DecidableEq ι] in
theorem tally_pos {f : ι → Option β} {i : ι} {b : β} (held : f i = some b) : 0 < tally f b :=
  Finset.card_pos.mpr ⟨i, by simp [held]⟩

omit [DecidableEq ι] in
theorem exists_of_tally_pos {f : ι → Option β} {b : β} (pos : 0 < tally f b) :
    ∃ i, f i = some b := by
  obtain ⟨i, member⟩ := Finset.card_pos.mp pos
  exact ⟨i, by simpa using member⟩

omit [Fintype ι] [DecidableEq β] in
/-- A write to one row of a table of two indices. -/
theorem uncurry_update [DecidableEq κ] (f : ι → κ → Option β) (i : ι) (j : κ) (o : Option β) :
    uncurry (update f i (update (f i) j o)) = update (uncurry f) (i, j) o := by
  apply funext
  rintro ⟨i', j'⟩
  by_cases row : i' = i
  · subst row
    by_cases column : j' = j
    · simp [uncurry, column]
    · simp [uncurry, column]
  · simp [uncurry, row]

end BasicOS.Lib
