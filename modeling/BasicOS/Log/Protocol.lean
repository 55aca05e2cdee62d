/-
# BasicOS.Log.Protocol — begin_op, log_write and end_op, interleaved

Any number of processes call `begin_op`, `log_write` and `end_op`.  One step is
one critical section under `log.lock`, with two places where the code works
without the lock modelled as steps of their own: `log_write` tests the log
before it takes the lock, and `commit` runs between the two critical sections
of `end_op`.  A panic stops the machine: no step follows it.

`Moves` says once what a step can do; `Inv` is what every interleaving keeps.
-/
import BasicOS.Lib.Run
import BasicOS.Log.Basic
import Mathlib.Algebra.Order.BigOperators.Group.Finset
import Mathlib.Data.Fintype.Basic

namespace BasicOS.Protocol

open Lib Function

set_option autoImplicit false
set_option linter.unusedSectionVars false

/-- Where a process stands in its file system call. -/
inductive Phase where
  /-- Outside any operation. -/
  | idle
  /-- Asleep on `&log` in `begin_op`. -/
  | sleeping
  /-- Woken in `begin_op`, about to test again. -/
  | woken
  /-- Between `begin_op` and `end_op`, with the distinct blocks it has logged. -/
  | inOp (logged : List Nat)
  /-- In `log_write(b)`, past the tests and about to take `log.lock`. -/
  | checked (logged : List Nat) (b : Nat)
  /-- In `end_op` with `do_commit` set, running `commit`. -/
  | committing
  /-- Back from `commit`, about to clear `log.committing`. -/
  | committed
  deriving DecidableEq, Repr

namespace Phase

/-- One for a process inside an operation. -/
def active : Phase → Nat
  | inOp _ => 1
  | checked _ _ => 1
  | _ => 0

/-- The distinct blocks the current operation has logged. -/
def logged : Phase → List Nat
  | inOp blocks => blocks
  | checked blocks _ => blocks
  | _ => []

/-- The process carries out a commit. -/
def commits : Phase → Bool
  | committing => true
  | committed => true
  | _ => false

/-- The effect of `wakeup(&log)` on one process. -/
def wake : Phase → Phase
  | sleeping => woken
  | phase => phase

@[simp] theorem active_wake (x : Phase) : x.wake.active = x.active := by cases x <;> rfl

@[simp] theorem logged_wake (x : Phase) : x.wake.logged = x.logged := by cases x <;> rfl

@[simp] theorem commits_wake (x : Phase) : x.wake.commits = x.commits := by cases x <;> rfl

@[simp] theorem wake_eq_committed {x : Phase} : x.wake = .committed ↔ x = .committed := by
  cases x <;> simp [wake]

end Phase

section Model

variable {P : Type} [DecidableEq P]

structure Sys (P : Type) where
  log : Log
  phase : P → Phase
  panicked : Option Panic

inductive Event (P : Type) where
  /-- The loop of `begin_op`, once: admitted, or put to sleep. -/
  | beginOp (p : P)
  /-- The tests at the head of `log_write(b)`. -/
  | logCheck (p : P) (b : Nat)
  /-- The locked part of `log_write(b)`. -/
  | logAppend (p : P) (b : Nat)
  /-- The first critical section of `end_op`. -/
  | endOp (p : P)
  /-- The call of `commit`. -/
  | commit (p : P)
  /-- The second critical section of `end_op`. -/
  | finish (p : P)

/-- The log that `initlog` sets up, with every process outside any operation. -/
def init (start size : Nat) : Sys P where
  log := { start := start, size := size, outstanding := 0, committing := false, lh := [] }
  phase := fun _ => .idle
  panicked := none

/-- One critical section of a machine that has not panicked. -/
def act (s : Sys P) : Event P → Option (Sys P)
  | .beginOp p =>
    match s.phase p with
    | .idle | .woken =>
      match s.log.beginOp with
      | none => some { s with phase := update s.phase p .sleeping }
      | some lg => some { s with log := lg, phase := update s.phase p (.inOp []) }
    | _ => none
  | .logCheck p b =>
    match s.phase p with
    | .inOp blocks =>
      match s.log.logWriteCheck with
      | .error msg => some { s with panicked := some msg }
      | .ok () => some { s with phase := update s.phase p (.checked blocks b) }
    | _ => none
  | .logAppend p b =>
    match s.phase p with
    | .checked blocks b' =>
      if b = b' then
        some { s with log := s.log.logAppend b
                      phase := update s.phase p (.inOp (Log.absorb blocks b)) }
      else none
    | _ => none
  | .endOp p =>
    match s.phase p with
    | .inOp _ =>
      match s.log.endOp with
      | .error msg => some { s with panicked := some msg }
      | .ok (true, lg) => some { s with log := lg, phase := update s.phase p .committing }
      | .ok (false, lg) =>
        some { s with log := lg, phase := fun q => (update s.phase p .idle q).wake }
    | _ => none
  | .commit p =>
    match s.phase p with
    | .committing =>
      some { s with log := { s.log with lh := [] }, phase := update s.phase p .committed }
    | _ => none
  | .finish p =>
    match s.phase p with
    | .committed =>
      some { s with log := { s.log with committing := false }
                    phase := fun q => (update s.phase p .idle q).wake }
    | _ => none

def step (s : Sys P) (e : Event P) : Option (Sys P) :=
  if s.panicked.isSome then none else act s e

/-! ## What a step can do -/

/-- The steps, with the guards the code tests. -/
inductive Moves (s : Sys P) : Event P → Sys P → Prop where
  | sleep {p : P} (here : s.phase p = .idle ∨ s.phase p = .woken)
      (refused : s.log.beginOp = none) :
      Moves s (.beginOp p) { s with phase := update s.phase p .sleeping }
  | admitted {p : P} (here : s.phase p = .idle ∨ s.phase p = .woken)
      (idle : s.log.committing = false)
      (room : s.log.lh.length + (s.log.outstanding + 1) * maxopblocks ≤ logsize) :
      Moves s (.beginOp p)
        { s with log := { s.log with outstanding := s.log.outstanding + 1 }
                 phase := update s.phase p (.inOp []) }
  | tooBig {p : P} {b : Nat} {blocks : List Nat} (here : s.phase p = .inOp blocks)
      (full : logsize ≤ s.log.lh.length ∨ s.log.size - 1 ≤ s.log.lh.length) :
      Moves s (.logCheck p b) { s with panicked := some "too big a transaction" }
  | outside {p : P} {b : Nat} {blocks : List Nat} (here : s.phase p = .inOp blocks)
      (none : s.log.outstanding < 1) :
      Moves s (.logCheck p b) { s with panicked := some "log_write outside of trans" }
  | check {p : P} {b : Nat} {blocks : List Nat} (here : s.phase p = .inOp blocks)
      (fits : s.log.lh.length < logsize) (room : s.log.lh.length < s.log.size - 1) :
      Moves s (.logCheck p b) { s with phase := update s.phase p (.checked blocks b) }
  | append {p : P} {b : Nat} {blocks : List Nat} (here : s.phase p = .checked blocks b) :
      Moves s (.logAppend p b)
        { s with log := s.log.logAppend b
                 phase := update s.phase p (.inOp (Log.absorb blocks b)) }
  | clash {p : P} {blocks : List Nat} (here : s.phase p = .inOp blocks)
      (busy : s.log.committing = true) :
      Moves s (.endOp p) { s with panicked := some "log.committing" }
  | last {p : P} {blocks : List Nat} (here : s.phase p = .inOp blocks)
      (idle : s.log.committing = false) (zero : s.log.outstanding - 1 = 0) :
      Moves s (.endOp p)
        { s with log := { s.log with outstanding := s.log.outstanding - 1, committing := true }
                 phase := update s.phase p .committing }
  | leave {p : P} {blocks : List Nat} (here : s.phase p = .inOp blocks)
      (idle : s.log.committing = false) (more : s.log.outstanding - 1 ≠ 0) :
      Moves s (.endOp p)
        { s with log := { s.log with outstanding := s.log.outstanding - 1 }
                 phase := fun q => (update s.phase p .idle q).wake }
  | commit {p : P} (here : s.phase p = .committing) :
      Moves s (.commit p)
        { s with log := { s.log with lh := [] }, phase := update s.phase p .committed }
  | finish {p : P} (here : s.phase p = .committed) :
      Moves s (.finish p)
        { s with log := { s.log with committing := false }
                 phase := fun q => (update s.phase p .idle q).wake }

theorem moves_of_begin {s s' : Sys P} {p : P} (here : s.phase p = .idle ∨ s.phase p = .woken)
    (h : (match s.log.beginOp with
      | none => some { s with phase := update s.phase p .sleeping }
      | some lg => some { s with log := lg, phase := update s.phase p (.inOp []) }) = some s') :
    Moves s (.beginOp p) s' := by
  cases refused : s.log.beginOp with
  | none =>
    rw [refused] at h
    cases h
    exact .sleep here refused
  | some lg =>
    rw [refused] at h
    cases h
    unfold Log.beginOp at refused
    split at refused
    · cases refused
    · rename_i idle
      split at refused
      · cases refused
      · rename_i room
        cases refused
        exact .admitted here (by simpa using idle) (by omega)

theorem moves_of_act {s s' : Sys P} {e : Event P} (h : act s e = some s') : Moves s e s' := by
  cases e with
  | beginOp p =>
    simp only [act] at h
    split at h
    · exact moves_of_begin (Or.inl ‹_›) h
    · exact moves_of_begin (Or.inr ‹_›) h
    · cases h
  | logCheck p b =>
    simp only [act, Log.logWriteCheck] at h
    split at h
    · rename_i blocks here
      by_cases full : s.log.lh.length ≥ logsize ∨ s.log.lh.length ≥ s.log.size - 1
      · rw [if_pos full] at h
        cases h
        exact .tooBig here full
      · rw [if_neg full] at h
        by_cases none : s.log.outstanding < 1
        · rw [if_pos none] at h
          cases h
          exact .outside here none
        · rw [if_neg none] at h
          cases h
          exact .check here (by omega) (by omega)
    · cases h
  | logAppend p b =>
    simp only [act] at h
    split at h
    · rename_i blocks b' here
      split at h
      · rename_i same
        subst same
        cases h
        exact .append here
      · cases h
    · cases h
  | endOp p =>
    simp only [act, Log.endOp] at h
    split at h
    · rename_i blocks here
      by_cases busy : s.log.committing = true
      · rw [if_pos busy] at h
        cases h
        exact .clash here busy
      · rw [if_neg busy] at h
        have idle : s.log.committing = false := by simpa using busy
        by_cases zero : s.log.outstanding - 1 = 0
        · rw [if_pos zero] at h
          cases h
          exact .last here idle zero
        · rw [if_neg zero] at h
          cases h
          exact .leave here idle zero
    · cases h
  | commit p =>
    simp only [act] at h
    split at h
    · rename_i here
      cases h
      exact .commit here
    · cases h
  | finish p =>
    simp only [act] at h
    split at h
    · rename_i here
      cases h
      exact .finish here
    · cases h

theorem moves_of_step {s s' : Sys P} {e : Event P} (h : step s e = some s') :
    s.panicked = none ∧ Moves s e s' := by
  unfold step at h
  split at h
  · cases h
  · rename_i running
    exact ⟨by simpa using running, moves_of_act h⟩

end Model

/-! ## Sums over the processes -/

section Sums

variable {P : Type} [Fintype P]

theorem sum_update [DecidableEq P] (w : Phase → Nat) (f : P → Phase) (p : P) (x : Phase) :
    (∑ q, w (update f p x q)) + w (f p) = (∑ q, w (f q)) + w x := by
  have split : ∀ g : P → Phase, (∑ q, w (g q)) = w (g p) + ∑ q ∈ Finset.univ.erase p, w (g q) :=
    fun g => (Finset.add_sum_erase _ _ (Finset.mem_univ p)).symm
  have rest : (∑ q ∈ Finset.univ.erase p, w (update f p x q)) =
      ∑ q ∈ Finset.univ.erase p, w (f q) :=
    Finset.sum_congr rfl fun q hq => by rw [update_of_ne (Finset.ne_of_mem_erase hq)]
  rw [split, split f, rest, update_self]
  omega

/-- The weight of one process is at most the whole weight. -/
theorem le_sum (w : Phase → Nat) (f : P → Phase) (p : P) : w (f p) ≤ ∑ q, w (f q) :=
  Finset.single_le_sum (f := fun q => w (f q)) (fun _ _ => Nat.zero_le _) (Finset.mem_univ p)

end Sums

/-! ## The invariant of every interleaving -/

section Invariant

variable {P : Type} [Fintype P]

structure Inv (lg : Log) (phase : P → Phase) : Prop where
  /-- `outstanding` counts the processes inside an operation. -/
  count : (∑ p, (phase p).active) = lg.outstanding
  /-- No operation executes during a commit. -/
  quiet : lg.committing = true → lg.outstanding = 0
  /-- A process commits only while `committing` is set. -/
  flag : ∀ p, (phase p).commits = true → lg.committing = true
  /-- At most one process commits. -/
  one : ∀ p q, (phase p).commits = true → (phase q).commits = true → p = q
  /-- `commit` leaves the header empty until `committing` is cleared. -/
  cleared : ∀ p, phase p = .committed → lg.lh = []
  /-- Nothing is logged outside operations and commits. -/
  empty : lg.outstanding = 0 → lg.committing = false → lg.lh = []
  /-- What an operation has logged is in the header. -/
  within : ∀ p, ∀ b ∈ (phase p).logged, b ∈ lg.lh
  distinct : lg.lh.Nodup
  own : ∀ p, (phase p).logged.Nodup

theorem inv_init (start size : Nat) :
    Inv (init start size : Sys P).log (init start size : Sys P).phase where
  count := by simp [init, Phase.active]
  quiet := by simp [init]
  flag := by simp [init, Phase.commits]
  one := by simp [init, Phase.commits]
  cleared := by simp [init]
  empty := by simp [init]
  within := by simp [init, Phase.logged]
  distinct := by simp [init]
  own := by simp [init, Phase.logged]

variable {lg : Log} {phase : P → Phase}

/-- A process inside an operation is counted. -/
theorem Inv.outstanding_pos (inv : Inv lg phase) {p : P} (here : (phase p).active = 1) :
    1 ≤ lg.outstanding := by
  rw [← inv.count, ← here]
  exact le_sum Phase.active phase p

/-- A process inside an operation is not met by a commit. -/
theorem Inv.not_committing (inv : Inv lg phase) {p : P} (here : (phase p).active = 1) :
    lg.committing = false := by
  by_contra busy
  have zero := inv.quiet (by simpa using busy)
  have pos := inv.outstanding_pos here
  omega

/-- While `committing` is clear nobody commits. -/
theorem Inv.no_commits (inv : Inv lg phase) (idle : lg.committing = false) (p : P) :
    (phase p).commits = false := by
  by_contra busy
  have set := inv.flag p (by simpa using busy)
  rw [idle] at set
  cases set

/-- `wakeup(&log)` keeps the invariant. -/
theorem Inv.wake (inv : Inv lg phase) : Inv lg fun q => (phase q).wake where
  count := by simpa using inv.count
  quiet := inv.quiet
  flag := by simpa using inv.flag
  one := by simpa using inv.one
  cleared := by simpa using inv.cleared
  empty := inv.empty
  within := by simpa using inv.within
  distinct := inv.distinct
  own := by simpa using inv.own

variable [DecidableEq P]

/-- One process changes its phase and the log changes with it: what has to be
checked is the new phase, and that the log still fits the other processes. -/
theorem Inv.update {lg' : Log} {p : P} {x : Phase} (inv : Inv lg phase)
    (count : lg'.outstanding + (phase p).active = lg.outstanding + x.active)
    (quiet : lg'.committing = true → lg'.outstanding = 0)
    (flag : x.commits = true → lg'.committing = true)
    (others : ∀ q, q ≠ p → (phase q).commits = true →
      lg'.committing = true ∧ x.commits = false)
    (cleared : x = .committed → lg'.lh = [])
    (clearedOthers : ∀ q, q ≠ p → phase q = .committed → lg'.lh = [])
    (empty : lg'.outstanding = 0 → lg'.committing = false → lg'.lh = [])
    (within : ∀ b ∈ x.logged, b ∈ lg'.lh)
    (withinOthers : ∀ q, q ≠ p → ∀ b ∈ (phase q).logged, b ∈ lg'.lh)
    (distinct : lg'.lh.Nodup) (own : x.logged.Nodup) :
    Inv lg' (update phase p x) where
  count := by
    have moved := sum_update Phase.active phase p x
    have before := inv.count
    omega
  quiet := quiet
  flag := (forall_update_iff phase fun _ y => y.commits = true → lg'.committing = true).mpr
    ⟨flag, fun q hq h => (others q hq h).1⟩
  one := by
    intro q r
    by_cases hq : q = p <;> by_cases hr : r = p
    · intro _ _
      rw [hq, hr]
    · rw [hq, update_self, update_of_ne hr]
      intro h h'
      rw [(others r hr h').2] at h
      cases h
    · rw [hr, update_self, update_of_ne hq]
      intro h h'
      rw [(others q hq h).2] at h'
      cases h'
    · rw [update_of_ne hq, update_of_ne hr]
      exact inv.one q r
  cleared := (forall_update_iff phase fun _ y => y = .committed → lg'.lh = []).mpr
    ⟨cleared, clearedOthers⟩
  empty := empty
  within := (forall_update_iff phase fun _ y => ∀ b ∈ y.logged, b ∈ lg'.lh).mpr
    ⟨within, withinOthers⟩
  distinct := distinct
  own := (forall_update_iff phase fun _ y => y.logged.Nodup).mpr
    ⟨own, fun q _ => inv.own q⟩

/-- Every step keeps the invariant. -/
theorem moves_inv {s s' : Sys P} {e : Event P} (inv : Inv s.log s.phase) (h : Moves s e s') :
    Inv s'.log s'.phase := by
  cases h with
  | @sleep p here refused =>
    have still : (s.phase p).active = 0 ∧ (s.phase p).commits = false := by
      rcases here with h | h <;> rw [h] <;> exact ⟨rfl, rfl⟩
    exact inv.update (by rw [still.1]; rfl) inv.quiet (by simp [Phase.commits])
      (fun q _ h => ⟨inv.flag q h, rfl⟩) (by simp) (fun q _ h => inv.cleared q h) inv.empty
      (by simp [Phase.logged]) (fun q _ => inv.within q) inv.distinct (by simp [Phase.logged])
  | @admitted p here idle room =>
    have still : (s.phase p).active = 0 := by rcases here with h | h <;> rw [h] <;> rfl
    refine inv.update (by rw [still]; rfl) (by simp [idle]) (by simp [Phase.commits])
      (fun q _ h => ⟨inv.flag q h, rfl⟩) (by simp) (fun q _ h => inv.cleared q h) (by simp)
      (by simp [Phase.logged]) (fun q _ => inv.within q) inv.distinct (by simp [Phase.logged])
  | tooBig here full => exact inv
  | outside here none => exact inv
  | @check p b blocks here fits room =>
    have logged := inv.within p
    have own := inv.own p
    rw [here] at logged own
    exact inv.update (by rw [here]; rfl) inv.quiet (by simp [Phase.commits])
      (fun q _ h => ⟨inv.flag q h, rfl⟩) (by simp) (fun q _ h => inv.cleared q h) inv.empty
      logged (fun q _ => inv.within q) inv.distinct own
  | @append p b blocks here =>
    have logged := inv.within p
    have own := inv.own p
    have idle := inv.not_committing (p := p) (by rw [here]; rfl)
    have pos := inv.outstanding_pos (p := p) (by rw [here]; rfl)
    rw [here] at logged own
    refine inv.update (by rw [here]; rfl) inv.quiet (by simp [Phase.commits]) ?_ (by simp) ?_ ?_ ?_
      ?_ (Log.absorb_nodup inv.distinct b) (Log.absorb_nodup own b)
    · exact fun q _ h => ⟨inv.flag q h, rfl⟩
    · intro q _ h
      -- a process past `commit` would contradict the operation of `p`
      have none := inv.no_commits idle q
      rw [h] at none
      cases none
    · intro zero
      have : s.log.outstanding = 0 := zero
      omega
    · intro x hx
      rcases Log.mem_absorb.mp hx with h | h
      · exact Log.mem_absorb.mpr (Or.inl (logged x h))
      · exact Log.mem_absorb.mpr (Or.inr h)
    · exact fun q _ x hx => Log.mem_absorb.mpr (Or.inl (inv.within q x hx))
  | clash here busy => exact inv
  | @last p blocks here idle zero =>
    have pos := inv.outstanding_pos (p := p) (by rw [here]; rfl)
    refine inv.update ?_ (fun _ => zero) (by simp) ?_ (by simp) ?_ (by simp)
      (by simp [Phase.logged]) (fun q _ => inv.within q) inv.distinct (by simp [Phase.logged])
    · rw [here]
      simp only [Phase.active]
      omega
    · intro q _ h
      rw [inv.no_commits idle q] at h
      cases h
    · exact fun q _ h => inv.cleared q h
  | @leave p blocks here idle more =>
    have pos := inv.outstanding_pos (p := p) (by rw [here]; rfl)
    refine Inv.wake (inv.update ?_ (by simp [idle]) (by simp [Phase.commits]) ?_ (by simp) ?_ ?_
      (by simp [Phase.logged]) (fun q _ => inv.within q) inv.distinct (by simp [Phase.logged]))
    · rw [here]
      simp only [Phase.active]
      omega
    · exact fun q _ h => ⟨inv.flag q h, rfl⟩
    · exact fun q _ h => inv.cleared q h
    · exact fun zero => absurd zero more
  | @commit p here =>
    have set := inv.flag p (by rw [here]; rfl)
    have zero := inv.quiet set
    have none : ∀ q, (s.phase q).active = 0 := by
      intro q
      have := le_sum Phase.active s.phase q
      have := inv.count
      omega
    refine inv.update (by rw [here]; rfl) inv.quiet (fun _ => set) ?_ (by simp) (by simp) (by simp)
      (by simp [Phase.logged]) ?_ (by simp) (by simp [Phase.logged])
    · intro q hq h
      exact absurd (inv.one q p h (by rw [here]; rfl)) hq
    · intro q _ b hb
      have still := none q
      cases hphase : s.phase q <;> rw [hphase] at hb still <;>
        simp [Phase.logged, Phase.active] at hb still
  | @finish p here =>
    have set := inv.flag p (by rw [here]; rfl)
    have zero := inv.quiet set
    have nil := inv.cleared p here
    refine Inv.wake (inv.update (by rw [here]; rfl) (by simp) (by simp [Phase.commits]) ?_ (by simp)
      ?_ (fun _ _ => nil) (by simp [Phase.logged]) (fun q _ => inv.within q) inv.distinct
      (by simp [Phase.logged]))
    · intro q hq h
      exact absurd (inv.one q p h (by rw [here]; rfl)) hq
    · exact fun q _ _ => nil

theorem step_inv {s s' : Sys P} {e : Event P} (inv : Inv s.log s.phase)
    (h : step s e = some s') : Inv s'.log s'.phase :=
  moves_inv inv (moves_of_step h).2

theorem run_inv {start size : Nat} {es : List (Event P)} {s : Sys P}
    (h : run step (init start size) es = some s) : Inv s.log s.phase :=
  run_invariant step (I := fun s : Sys P => Inv s.log s.phase)
    (fun _ _ _ inv h => step_inv inv h) (inv_init start size) h

end Invariant

end BasicOS.Protocol
