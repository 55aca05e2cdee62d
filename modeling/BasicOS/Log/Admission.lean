/-
# BasicOS.Log.Admission — whether begin_op reserves enough log space

`begin_op` admits an operation when `n + (outstanding + 1) * MAXOPBLOCKS` is at
most `LOGSIZE`.  `log_write` refuses to go on when `n` has reached
`log.size - 1`, since one block of the log area holds the header.  `mkfs` sets
`log.size` to `LOGSIZE`, so the two bounds differ by one block.

* `admission_run_iff`: a run stays clear of the panic exactly when every
  `log_write` finds fewer than `LOGSIZE - 1` blocks logged since the last
  commit.  The blocks are read off the calls alone (`sinceCommit`).
* `admission_budget`: when every operation keeps to `MAXOPBLOCKS - 1` blocks, no
  interleaving reaches the panic.  `headroom` is the invariant that carries it.
* `fullRun_stops`: three operations of `MAXOPBLOCKS` blocks each do reach it.

`log_admission` puts the three together.
-/
import BasicOS.Log.Protocol
import Mathlib.Algebra.BigOperators.Ring.Finset

namespace BasicOS.Protocol

open Lib Function

set_option autoImplicit false
set_option linter.unusedSectionVars false

/-- The panic of `log_write` on a full log. -/
abbrev tooBig : Panic := "too big a transaction"

section Trace

variable {P : Type}

/-- How one call changes the blocks logged since the last commit. -/
def advance (blocks : List Nat) : Event P → List Nat
  | .logAppend _ b => Log.absorb blocks b
  | .commit _ => []
  | _ => blocks

/-- The distinct blocks logged since the last commit, read off the calls. -/
def sinceCommit (es : List (Event P)) : List Nat :=
  es.foldl advance []

variable [DecidableEq P]

theorem moves_header {s s' : Sys P} {e : Event P} (h : Moves s e s') :
    s'.log.lh = advance s.log.lh e ∧ s'.log.size = s.log.size := by
  cases h <;> exact ⟨rfl, rfl⟩

theorem run_header {s t : Sys P} {es : List (Event P)} (h : run step s es = some t) :
    t.log.lh = es.foldl advance s.log.lh ∧ t.log.size = s.log.size := by
  induction es generalizing s with
  | nil =>
    cases h
    exact ⟨rfl, rfl⟩
  | cons e es ih =>
    obtain ⟨s', hs, rest⟩ := (run_cons step).mp h
    obtain ⟨header, size⟩ := moves_header (moves_of_step hs).2
    obtain ⟨header', size'⟩ := ih rest
    exact ⟨by rw [header', header]; rfl, by rw [size', size]⟩

/-- `log.lh.n` is the number of distinct blocks logged since the last commit. -/
theorem header_eq_sinceCommit {start size : Nat} {t : Sys P} {es : List (Event P)}
    (h : run step (init start size) es = some t) :
    t.log.lh = sinceCommit es ∧ t.log.size = size :=
  run_header h

/-- After a panic no step follows. -/
theorem run_of_panicked {s t : Sys P} {es : List (Event P)} (stopped : s.panicked.isSome)
    (h : run step s es = some t) : es = [] ∧ t = s := by
  cases es with
  | nil =>
    cases h
    exact ⟨rfl, rfl⟩
  | cons e es =>
    obtain ⟨s', hs, -⟩ := (run_cons step).mp h
    have running := (moves_of_step hs).1
    rw [running] at stopped
    cases stopped

end Trace

/-! ## One run -/

section Runs

variable {P : Type} [DecidableEq P] [Fintype P]

/-- A call of `log_write` that passes found the log below its limit. -/
theorem check_room {s s' : Sys P} {p : P} {b : Nat} (inv : Inv s.log s.phase)
    (size : s.log.size = logsize) (h : step s (.logCheck p b) = some s')
    (calm : s'.panicked ≠ some tooBig) : s.log.lh.length < logsize - 1 := by
  obtain ⟨-, moves⟩ := moves_of_step h
  cases moves with
  | tooBig here full => exact absurd rfl calm
  | outside here none =>
    have pos := inv.outstanding_pos (p := p) (by rw [here]; rfl)
    omega
  | check here fits room => rwa [size] at room

/-- The panic comes from a call of `log_write` on a full log. -/
theorem step_tooBig {s s' : Sys P} {e : Event P} (size : s.log.size = logsize)
    (h : step s e = some s') (stopped : s'.panicked = some tooBig) :
    ∃ p b, e = .logCheck p b ∧ logsize - 1 ≤ s.log.lh.length := by
  obtain ⟨running, moves⟩ := moves_of_step h
  cases moves with
  | @tooBig p b blocks here full => exact ⟨p, b, rfl, by omega⟩
  | outside here none => simp [tooBig] at stopped
  | clash here busy => simp [tooBig] at stopped
  | sleep here refused => simp [running] at stopped
  | admitted here idle room => simp [running] at stopped
  | check here fits room => simp [running] at stopped
  | append here => simp [running] at stopped
  | last here idle zero => simp [running] at stopped
  | leave here idle more => simp [running] at stopped
  | commit here => simp [running] at stopped
  | finish here => simp [running] at stopped

/-- **When a run stays clear of the panic.**  Exactly when each `log_write` finds
fewer than `LOGSIZE - 1` blocks logged since the last commit. -/
theorem admission_run_iff {start : Nat} {es : List (Event P)} {t : Sys P}
    (h : run step (init start logsize) es = some t) :
    t.panicked ≠ some tooBig ↔
      ∀ pre p b post, es = pre ++ .logCheck p b :: post →
        (sinceCommit pre).length < logsize - 1 := by
  constructor
  · rintro calm pre p b post rfl
    obtain ⟨u, before, after⟩ := (run_append step).mp h
    obtain ⟨v, called, rest⟩ := (run_cons step).mp after
    obtain ⟨header, size⟩ := header_eq_sinceCommit before
    rw [← header]
    refine check_room (run_inv before) size called fun stopped => ?_
    obtain ⟨-, rfl⟩ := run_of_panicked (by simp [stopped]) rest
    exact calm stopped
  · intro room stopped
    rcases List.eq_nil_or_concat es with rfl | ⟨pre, e, rfl⟩
    · cases h
      cases stopped
    · rw [List.concat_eq_append] at h
      obtain ⟨u, before, after⟩ := (run_append step).mp h
      obtain ⟨v, called, rest⟩ := (run_cons step).mp after
      cases rest
      obtain ⟨header, size⟩ := header_eq_sinceCommit before
      obtain ⟨p, b, rfl, full⟩ := step_tooBig size called stopped
      have bound := room pre p b [] (by simp)
      rw [header] at full
      omega

/-! ## Every interleaving, operation by operation -/

/-- Every call of `log_write` keeps its operation within `k` distinct blocks. -/
def Budget (k : Nat) (s : Sys P) : Event P → Prop
  | .logCheck p b => (Log.absorb (s.phase p).logged b).length ≤ k
  | _ => True

instance (k : Nat) (s : Sys P) (e : Event P) : Decidable (Budget k s e) := by
  cases e <;> unfold Budget <;> infer_instance

/-- The blocks an operation may still log within a budget of `k`. -/
def Phase.left (k : Nat) : Phase → Nat
  | .inOp blocks => k - blocks.length
  | .checked blocks _ => k - blocks.length
  | _ => 0

@[simp] theorem left_wake (k : Nat) (x : Phase) : x.wake.left k = x.left k := by
  cases x <;> rfl

theorem left_inOp (k : Nat) (blocks : List Nat) :
    (Phase.inOp blocks).left k = k - blocks.length := rfl

theorem left_checked (k : Nat) (blocks : List Nat) (b : Nat) :
    (Phase.checked blocks b).left k = k - blocks.length := rfl

theorem left_of_inactive {x : Phase} (still : x.active = 0) (k : Nat) : x.left k = 0 := by
  cases x <;> simp_all [Phase.left, Phase.active]

theorem left_le (k : Nat) (x : Phase) : x.left k ≤ k * x.active := by
  cases x <;> simp [Phase.left, Phase.active]

/-- The log can take everything the admitted operations may still log, and a
block that has passed the tests of `log_write` is within its budget. -/
structure Headroom (s : Sys P) : Prop where
  room : s.log.lh.length + ∑ p, (s.phase p).left (maxopblocks - 1) ≤ logsize - 2
  within : ∀ p blocks b, s.phase p = .checked blocks b →
    (Log.absorb blocks b).length ≤ maxopblocks - 1

/-- The operations admitted so far can log at most their budgets. -/
theorem sum_left_le (k : Nat) {lg : Log} {phase : P → Phase} (inv : Inv lg phase) :
    (∑ p, (phase p).left k) ≤ k * lg.outstanding := by
  rw [← inv.count, Finset.mul_sum]
  exact Finset.sum_le_sum fun p _ => left_le k (phase p)

theorem headroom_init (start : Nat) : Headroom (init start logsize : Sys P) where
  room := by simp [init, Phase.left]
  within := by simp [init]

/-- A process that is not in `log_write` after the step adds nothing to check. -/
theorem within_update {phase : P → Phase} {p : P} {x : Phase}
    (within : ∀ q blocks b, phase q = .checked blocks b →
      (Log.absorb blocks b).length ≤ maxopblocks - 1)
    (here : ∀ blocks b, x = .checked blocks b → (Log.absorb blocks b).length ≤ maxopblocks - 1) :
    ∀ q blocks b, update phase p x q = .checked blocks b →
      (Log.absorb blocks b).length ≤ maxopblocks - 1 :=
  (forall_update_iff phase fun _ y => ∀ blocks b, y = .checked blocks b →
    (Log.absorb blocks b).length ≤ maxopblocks - 1).mpr ⟨here, fun q _ => within q⟩

theorem within_wake {phase : P → Phase}
    (within : ∀ q blocks b, phase q = .checked blocks b →
      (Log.absorb blocks b).length ≤ maxopblocks - 1) :
    ∀ q blocks b, (phase q).wake = .checked blocks b →
      (Log.absorb blocks b).length ≤ maxopblocks - 1 := by
  intro q blocks b h
  refine within q blocks b ?_
  cases hq : phase q <;> rw [hq] at h <;> simp_all [Phase.wake]

/-- A process that leaves the log alone and ends outside any operation only
returns room. -/
theorem room_update {lh : List Nat} {phase : P → Phase} {p : P} {x : Phase}
    (room : lh.length + ∑ q, (phase q).left (maxopblocks - 1) ≤ logsize - 2)
    (still : x.active = 0) :
    lh.length + ∑ q, (update phase p x q).left (maxopblocks - 1) ≤ logsize - 2 := by
  have moved := sum_update (Phase.left (maxopblocks - 1)) phase p x
  rw [left_of_inactive still] at moved
  omega

/-- Within budgets of `MAXOPBLOCKS - 1` blocks every step keeps the headroom. -/
theorem moves_headroom {s s' : Sys P} {e : Event P} (inv : Inv s.log s.phase)
    (headroom : Headroom s) (budget : Budget (maxopblocks - 1) s e) (h : Moves s e s') :
    Headroom s' := by
  obtain ⟨room, within⟩ := headroom
  have moved := sum_update (Phase.left (maxopblocks - 1)) s.phase
  cases h with
  | sleep here refused => exact ⟨room_update room rfl, within_update within (by simp)⟩
  | @admitted p here idle fits =>
    refine ⟨?_, within_update within (by simp)⟩
    have after := moved p (.inOp [])
    have bound := sum_left_le (maxopblocks - 1) inv
    simp only [left_inOp, List.length_nil] at after ⊢
    -- the first operation of a transaction finds the log empty; a later one
    -- shares the reservation of at least one other operation
    by_cases first : s.log.outstanding = 0
    · have nil := inv.empty first idle
      rw [first] at bound
      rw [nil]
      simp only [maxopblocks, logsize, List.length_nil] at *
      omega
    · simp only [maxopblocks, logsize] at *
      omega
  | tooBig here full => exact ⟨room, within⟩
  | outside here none => exact ⟨room, within⟩
  | @check p b blocks here fits small =>
    have after := moved p (.checked blocks b)
    rw [here, left_checked, left_inOp] at after
    refine ⟨by simp only; omega, within_update within ?_⟩
    rintro blocks' b' ⟨⟩
    simpa [Budget, here, Phase.logged] using budget
  | @append p b blocks here =>
    have after := moved p (.inOp (Log.absorb blocks b))
    have small := within p blocks b here
    have logged := inv.within p
    rw [here] at after logged
    rw [left_checked, left_inOp] at after
    refine ⟨?_, within_update within (by simp)⟩
    simp only [Log.logAppend]
    by_cases again : b ∈ blocks
    · rw [Log.absorb_of_mem again] at after ⊢
      rw [Log.absorb_of_mem (logged b again)]
      omega
    · rw [Log.length_absorb_of_not_mem again] at after small
      have := Log.length_absorb_le s.log.lh b
      omega
  | clash here busy => exact ⟨room, within⟩
  | last here idle zero => exact ⟨room_update room rfl, within_update within (by simp)⟩
  | @leave p blocks here idle more =>
    have after : s.log.lh.length + _ ≤ _ := room_update (p := p) room (x := .idle) rfl
    exact ⟨by simpa only [left_wake] using after, within_wake (within_update within (by simp))⟩
  | @commit p here =>
    have after : s.log.lh.length + _ ≤ _ := room_update (p := p) room (x := .committed) rfl
    exact ⟨by simp only [List.length_nil]; omega, within_update within (by simp)⟩
  | @finish p here =>
    have after : s.log.lh.length + _ ≤ _ := room_update (p := p) room (x := .idle) rfl
    exact ⟨by simpa only [left_wake] using after, within_wake (within_update within (by simp))⟩

/-- **Budgets below `MAXOPBLOCKS` are safe in every interleaving.** -/
theorem admission_budget {start : Nat} {es : List (Event P)} {t : Sys P}
    (budget : Along step (Budget (maxopblocks - 1)) (init start logsize) es)
    (h : run step (init start logsize) es = some t) : t.panicked ≠ some tooBig := by
  let I : Sys P → Prop := fun s => (Inv s.log s.phase ∧ Headroom s ∧ s.log.size = logsize) ∧
    s.panicked ≠ some tooBig
  have keep : ∀ s e s', I s → Budget (maxopblocks - 1) s e → step s e = some s' → I s' := by
    rintro s e s' ⟨⟨inv, headroom, size⟩, -⟩ small called
    obtain ⟨-, moves⟩ := moves_of_step called
    refine ⟨⟨moves_inv inv moves, moves_headroom inv headroom small moves, ?_⟩, fun stopped => ?_⟩
    · rw [(moves_header moves).2, size]
    · obtain ⟨p, b, -, full⟩ := step_tooBig size called stopped
      have room := headroom.room
      simp only [logsize, maxopblocks] at full room
      omega
  have start : I (init start logsize) := by
    exact ⟨⟨inv_init start logsize, headroom_init start, rfl⟩, by simp [init]⟩
  exact (run_invariant_along step keep start budget h).2

end Runs

/-! ## Full budgets -/

/-- Three operations, each logging its own ten blocks; the last block is only
tested, not stored. -/
def fullRun : List (Event (Fin 3)) :=
  [.beginOp 0, .beginOp 1, .beginOp 2] ++
    (List.range (logsize - 1)).flatMap (fun b =>
      [.logCheck (Fin.ofNat 3 (b / maxopblocks)) b, .logAppend (Fin.ofNat 3 (b / maxopblocks)) b]) ++
    [.logCheck 2 (logsize - 1)]

set_option maxRecDepth 4000 in
theorem fullRun_budget :
    Along step (Budget maxopblocks) (init 2 logsize) fullRun := by
  decide +kernel

set_option maxRecDepth 4000 in
theorem fullRun_stops :
    (run step (init 2 logsize) fullRun).bind (fun t => t.panicked) = some tooBig := by
  decide +kernel

/-- **Three admitted operations of `MAXOPBLOCKS` blocks each do not fit the log**:
the thirtieth `log_write` finds 29 blocks and panics. -/
theorem full_reservations_panic :
    ∃ t, Along step (Budget maxopblocks) (init 2 logsize) fullRun ∧
      run step (init 2 logsize) fullRun = some t ∧ t.panicked = some tooBig := by
  obtain ⟨t, h, stopped⟩ := Option.bind_eq_some_iff.mp fullRun_stops
  exact ⟨t, fullRun_budget, h, stopped⟩

theorem Budget.mono {P : Type} {j k : Nat} (le : j ≤ k) {s : Sys P} {e : Event P}
    (h : Budget j s e) : Budget k s e := by
  cases e with
  | logCheck p b => exact Nat.le_trans h le
  | _ => trivial

/-- **What log admission is worth**, with `log.size = LOGSIZE` and any number of
processes.  A run keeps clear of the panic exactly when every `log_write` finds
fewer than `LOGSIZE - 1` distinct blocks logged since the last commit; and it does
when its operations log at most `k` distinct blocks each, for a `k` below
`MAXOPBLOCKS`. -/
theorem log_admission {n start : Nat} {es : List (Event (Fin n))} {t : Sys (Fin n)}
    (done : run step (init start logsize) es = some t) :
    (t.panicked ≠ some tooBig ↔ ∀ pre p b post, es = pre ++ .logCheck p b :: post →
      (sinceCommit pre).length < logsize - 1) ∧
    ∀ k < maxopblocks, Along step (Budget k) (init start logsize) es →
      t.panicked ≠ some tooBig := by
  refine ⟨admission_run_iff done, fun k small budget => ?_⟩
  have budget' := along_mono step
    (fun s e => Budget.mono (s := s) (e := e) (by omega : k ≤ maxopblocks - 1)) budget
  exact admission_budget budget' done

/-- Two operations with a block each, in one transaction. -/
def writersRun : List (Event (Fin 2)) :=
  [.beginOp 0, .beginOp 1, .logCheck 0 60, .logAppend 0 60, .logCheck 1 61, .logAppend 1 61,
    .endOp 0, .endOp 1, .commit 1, .finish 1]

theorem two_writers_admitted :
    ∃ t, run step (init 2 logsize) writersRun = some t ∧ t.panicked ≠ some tooBig := by
  obtain ⟨t, done⟩ := Option.isSome_iff_exists.mp
    (by decide +kernel : (run step (init 2 logsize) writersRun).isSome = true)
  exact ⟨t, done, (log_admission done).2 1 (by decide) (by decide +kernel)⟩

end BasicOS.Protocol
