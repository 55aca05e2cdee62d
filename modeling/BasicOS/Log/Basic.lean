/-
# BasicOS.Log.Basic — the in-memory log of log.c

`struct log` without its spinlock: where the log lies on disk, how many
operations are executing, whether a commit is running, and the block numbers
`log.lh.block[0..n)` of the current transaction.  The functions below are the
critical sections of `begin_op`, `log_write` and `end_op`; a caller that has to
sleep gets `none`.
-/
import BasicOS.Param

namespace BasicOS

set_option autoImplicit false

structure Log where
  start : Nat
  size : Nat
  outstanding : Nat
  committing : Bool
  /-- `lh.block[0..n)`, so that `lh.n` is the length. -/
  lh : List Nat
  deriving DecidableEq, Repr

namespace Log

/-- A block more fits in the log. -/
abbrev Room (lg : Log) : Prop :=
  lg.lh.length < logsize ∧ lg.lh.length < lg.size - 1

/-- The admission test of `begin_op`: `none` while the caller has to sleep. -/
def beginOp (lg : Log) : Option Log :=
  if lg.committing then none
  else if lg.lh.length + (lg.outstanding + 1) * maxopblocks > logsize then none
  else some { lg with outstanding := lg.outstanding + 1 }

/-- The two tests `log_write` makes before it takes `log.lock`. -/
def logWriteCheck (lg : Log) : Except Panic Unit :=
  if lg.lh.length ≥ logsize ∨ lg.lh.length ≥ lg.size - 1 then .error "too big a transaction"
  else if lg.outstanding < 1 then .error "log_write outside of trans"
  else .ok ()

/-- Record a block number; one that is already there is absorbed. -/
def absorb (lh : List Nat) (b : Nat) : List Nat :=
  if b ∈ lh then lh else lh ++ [b]

/-- The part of `log_write` under `log.lock`. -/
def logAppend (lg : Log) (b : Nat) : Log :=
  { lg with lh := absorb lg.lh b }

/-- The first critical section of `end_op`: the flag says whether the caller
has to commit. -/
def endOp (lg : Log) : Except Panic (Bool × Log) :=
  if lg.committing then .error "log.committing"
  else if lg.outstanding - 1 = 0 then
    .ok (true, { lg with outstanding := lg.outstanding - 1, committing := true })
  else .ok (false, { lg with outstanding := lg.outstanding - 1 })

/-! ## Absorption -/

theorem mem_absorb {lh : List Nat} {b x : Nat} : x ∈ absorb lh b ↔ x ∈ lh ∨ x = b := by
  unfold absorb
  split
  · rename_i present
    constructor
    · exact Or.inl
    · rintro (h | rfl)
      · exact h
      · exact present
  · simp

theorem absorb_nodup {lh : List Nat} (distinct : lh.Nodup) (b : Nat) : (absorb lh b).Nodup := by
  unfold absorb
  split
  · exact distinct
  · rename_i absent
    exact List.nodup_append.mpr ⟨distinct, by simp, by
      intro x hx y hy
      rw [List.mem_singleton] at hy
      rintro rfl
      exact absent (hy ▸ hx)⟩

theorem absorb_of_mem {lh : List Nat} {b : Nat} (present : b ∈ lh) : absorb lh b = lh :=
  if_pos present

theorem length_absorb_of_not_mem {lh : List Nat} {b : Nat} (absent : b ∉ lh) :
    (absorb lh b).length = lh.length + 1 := by
  simp [absorb, absent]

theorem length_absorb_le (lh : List Nat) (b : Nat) : (absorb lh b).length ≤ lh.length + 1 := by
  unfold absorb
  split <;> simp

theorem length_le_absorb (lh : List Nat) (b : Nat) : lh.length ≤ (absorb lh b).length := by
  unfold absorb
  split <;> simp

end Log

end BasicOS
