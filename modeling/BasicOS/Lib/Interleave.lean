/-
# BasicOS.Lib.Interleave — one stream made of pieces of several

Several writers put pieces into one stream.  The history is the list of the
pieces in their order, each with its writer: `merged` is the stream, and `own i`
is what writer `i` has put into it.  Every element of the stream belongs to one
piece, so the lengths of the parts add up to the length of the stream.
-/
import Mathlib.Algebra.BigOperators.Group.Finset.Piecewise
import Mathlib.Data.Fintype.Basic

namespace BasicOS.Lib

set_option autoImplicit false

variable {ι α : Type}

/-- The stream: all pieces in order. -/
def merged (pieces : List (ι × List α)) : List α :=
  (pieces.map Prod.snd).flatten

theorem merged_concat (pieces : List (ι × List α)) (i : ι) (piece : List α) :
    merged (pieces ++ [(i, piece)]) = merged pieces ++ piece := by
  simp [merged]

variable [DecidableEq ι]

/-- The pieces of one writer, in order. -/
def own (i : ι) (pieces : List (ι × List α)) : List α :=
  merged (pieces.filter fun piece => piece.1 = i)

theorem own_concat (pieces : List (ι × List α)) (i j : ι) (piece : List α) :
    own j (pieces ++ [(i, piece)]) = if i = j then own j pieces ++ piece else own j pieces := by
  unfold own
  by_cases mine : i = j
  · simp [mine, merged]
  · simp [mine]

theorem sum_length_own [Fintype ι] (pieces : List (ι × List α)) :
    ∑ i, (own i pieces).length = (merged pieces).length := by
  induction pieces using List.reverseRecOn with
  | nil => simp [own, merged]
  | append_singleton pieces piece ih =>
    obtain ⟨i, piece⟩ := piece
    have each : ∀ j, (own j (pieces ++ [(i, piece)])).length =
        (own j pieces).length + if i = j then piece.length else 0 := by
      intro j
      rw [own_concat]
      split <;> simp
    simp only [each, Finset.sum_add_distrib, ih, Finset.sum_ite_eq, Finset.mem_univ, if_true]
    rw [merged_concat, List.length_append]

end BasicOS.Lib
