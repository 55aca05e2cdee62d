/-
# BasicOS.Lib.Tree — following names through a tree

A tree has nodes, and some nodes are directories whose children have names.
`resolve` follows a list of names from a node.  `parentOf` follows all names but the last,
and gives the directory it comes to with the name that is left.
-/
import Mathlib.Algebra.GroupWithZero.Nat
import Mathlib.Tactic.Common

namespace BasicOS.Lib

set_option autoImplicit false

structure Tree (N K : Type) where
  isDir : N → Bool
  child : N → K → Option N

namespace Tree

variable {N K : Type} (t : Tree N K)

/-- The node that the names lead to. -/
def resolve : N → List K → Option N
  | n, [] => some n
  | n, k :: ks => if t.isDir n then (t.child n k).bind fun m => resolve m ks else none

/-- The directory that all names but the last lead to, with the last. -/
def parentOf (n : N) (ks : List K) : Option (N × K) :=
  ks.getLast?.bind fun last =>
    (t.resolve n ks.dropLast).bind fun m => if t.isDir m then some (m, last) else none

variable {t} {n : N}

theorem resolve_cons (dir : t.isDir n = true) (k : K) (ks : List K) :
    t.resolve n (k :: ks) = (t.child n k).bind fun m => t.resolve m ks :=
  if_pos dir

theorem resolve_leaf (leaf : t.isDir n = false) (k : K) (ks : List K) :
    t.resolve n (k :: ks) = none :=
  if_neg (by simp [leaf])

theorem parentOf_single (dir : t.isDir n = true) (k : K) : t.parentOf n [k] = some (n, k) :=
  if_pos dir

theorem parentOf_leaf (leaf : t.isDir n = false) (k : K) (ks : List K) :
    t.parentOf n (k :: ks) = none := by
  cases ks with
  | nil => exact if_neg (by simp [leaf])
  | cons l ks => simp [parentOf, resolve, leaf]

theorem parentOf_cons (dir : t.isDir n = true) (k : K) {ks : List K} (more : ks ≠ []) :
    t.parentOf n (k :: ks) = (t.child n k).bind fun m => t.parentOf m ks := by
  unfold parentOf
  rw [List.getLast?_cons_of_ne_nil more, List.dropLast_cons_of_ne_nil more, resolve_cons dir]
  cases t.child n k with
  | none => cases ks.getLast? <;> rfl
  | some m => rfl

end Tree

end BasicOS.Lib
