/-
# BasicOS.Log.Group — group commit, with the sleeps of begin_op taken apart

The processes of `Log.Protocol`, now at a monitor (`Lib.Monitor`): `log.lock` guards
the log, `begin_op` sleeps on `&log`, and `end_op` wakes it.  The tests of
`log_write` and the body of `commit` run without the lock.  A panic ends the calls of
its process, and so does a store outside `log.lh.block[]`.

A stretch under the lock is a step of `Log.Protocol` after which every sleeper is
taken as woken, so the invariant of that system carries over (`group_inv`).
`begin_op` has reason to sleep while its test refuses; every stretch that could end
the reason wakes the channel (`group_signals`).
-/
import BasicOS.Lib.Monitor
import BasicOS.Log.Protocol

namespace BasicOS.Group

open Lib Function Protocol

set_option autoImplicit false
set_option linter.unusedSectionVars false

inductive Act where
  | beginOp
  | logCheck (b : Nat)
  | logAppend (b : Nat)
  | endOp
  | commit
  | finish
  deriving DecidableEq, Repr

/-- The critical sections.  A process in `begin_op` is `woken` from its first test on. -/
def underLock (lg : Log) : Act → Phase → Option (Stretch Log Phase Unit)
  | .beginOp, .idle | .beginOp, .woken =>
    match lg.beginOp with
    | none => some ⟨lg, [], .woken, some ()⟩
    | some lg => some ⟨lg, [], .inOp [], none⟩
  | .logAppend b, .checked blocks b' =>
    if b = b' ∧ (b ∈ lg.lh ∨ lg.lh.length < logsize) then
      some ⟨lg.logAppend b, [], .inOp (Log.absorb blocks b), none⟩
    else none
  | .endOp, .inOp _ =>
    match lg.endOp with
    | .error _ => none
    | .ok (true, lg) => some ⟨lg, [], .committing, none⟩
    | .ok (false, lg) => some ⟨lg, [()], .idle, none⟩
  | .finish, .committed => some ⟨{ lg with committing := false }, [()], .idle, none⟩
  | _, _ => none

/-- The steps without the lock. -/
def unlocked (lg : Log) : Act → Phase → Option (Phase × Log)
  | .logCheck b, .inOp blocks =>
    match lg.logWriteCheck with
    | .error _ => none
    | .ok () => some (.checked blocks b, lg)
  | .commit, .committing => some (.committed, { lg with lh := [] })
  | _, _ => none

def monitor : Monitor Log Phase Unit Act where
  body a _ phase lg := underLock lg a phase
  free a phase lg := unlocked lg a phase

abbrev State (P : Type) := MState P Log Phase Unit

abbrev Event (P : Type) := MEvent P Act

section

variable {P : Type}

/-- The log that `initlog` sets up. -/
def init (start size : Nat) : State P :=
  MState.init { start, size, outstanding := 0, committing := false, lh := [] } .idle

/-- How one step changes the blocks written since the last commit. -/
def record (blocks : List Nat) : Event P → List Nat
  | .enter _ (.logAppend b) => blocks ++ [b]
  | .free _ .commit => []
  | _ => blocks

/-- The blocks of the `log_write` calls since the last commit, in order. -/
def written (es : List (Event P)) : List Nat :=
  es.foldl record []

variable [DecidableEq P]

abbrev step (s : State P) (e : Event P) : Option (State P) :=
  monitor.step s e

/-! ## What a critical section does -/

/-- The critical sections, with the guards the code tests. -/
inductive Does (lg : Log) : Act → Phase → Stretch Log Phase Unit → Prop where
  | sleep {x : Phase} (here : x = .idle ∨ x = .woken) (refused : lg.beginOp = none) :
      Does lg .beginOp x ⟨lg, [], .woken, some ()⟩
  | admitted {x : Phase} (here : x = .idle ∨ x = .woken) (idle : lg.committing = false)
      (room : lg.lh.length + (lg.outstanding + 1) * maxopblocks ≤ logsize) :
      Does lg .beginOp x ⟨{ lg with outstanding := lg.outstanding + 1 }, [], .inOp [], none⟩
  | append {b : Nat} {blocks : List Nat} :
      Does lg (.logAppend b) (.checked blocks b)
        ⟨lg.logAppend b, [], .inOp (Log.absorb blocks b), none⟩
  | last {blocks : List Nat} (idle : lg.committing = false) (zero : lg.outstanding - 1 = 0) :
      Does lg .endOp (.inOp blocks)
        ⟨{ lg with outstanding := lg.outstanding - 1, committing := true }, [], .committing, none⟩
  | leave {blocks : List Nat} (idle : lg.committing = false) (more : lg.outstanding - 1 ≠ 0) :
      Does lg .endOp (.inOp blocks)
        ⟨{ lg with outstanding := lg.outstanding - 1 }, [()], .idle, none⟩
  | finish : Does lg .finish .committed ⟨{ lg with committing := false }, [()], .idle, none⟩

theorem beginOp_cases (lg : Log) :
    lg.beginOp = none ∧ (lg.committing = true ∨
      logsize < lg.lh.length + (lg.outstanding + 1) * maxopblocks) ∨
    lg.beginOp = some { lg with outstanding := lg.outstanding + 1 } ∧ lg.committing = false ∧
      lg.lh.length + (lg.outstanding + 1) * maxopblocks ≤ logsize := by
  by_cases busy : lg.committing = true
  · exact .inl ⟨if_pos busy, .inl busy⟩
  · by_cases full : lg.lh.length + (lg.outstanding + 1) * maxopblocks > logsize
    · exact .inl ⟨by rw [Log.beginOp, if_neg busy, if_pos full], .inr full⟩
    · exact .inr ⟨by rw [Log.beginOp, if_neg busy, if_neg full], by simpa using busy,
        Nat.not_lt.mp full⟩

variable {lg lg' : Log} {x x' : Phase} {a : Act} {r : Stretch Log Phase Unit}

theorem does_of_underLock (does : underLock lg a x = some r) : Does lg a x r := by
  have begins : ∀ {x}, x = .idle ∨ x = .woken → (match lg.beginOp with
      | none => some (⟨lg, [], .woken, some ()⟩ : Stretch Log Phase Unit)
      | some lg => some ⟨lg, [], .inOp [], none⟩) = some r → Does lg .beginOp x r := by
    intro x here does
    rcases beginOp_cases lg with ⟨refused, -⟩ | ⟨granted, idle, room⟩
    · rw [refused] at does
      cases does
      exact .sleep here refused
    · rw [granted] at does
      cases does
      exact .admitted here idle room
  unfold underLock at does
  split at does
  case h_1 => exact begins (.inl rfl) does
  case h_2 => exact begins (.inr rfl) does
  case h_3 b blocks b' =>
    split at does
    case isTrue same =>
      obtain ⟨rfl, -⟩ := same
      cases does
      exact .append
    case isFalse => cases does
  case h_4 blocks =>
    unfold Log.endOp at does
    by_cases busy : lg.committing = true
    · rw [if_pos busy] at does
      cases does
    · rw [if_neg busy] at does
      have idle : lg.committing = false := by simpa using busy
      by_cases zero : lg.outstanding - 1 = 0
      · rw [if_pos zero] at does
        cases does
        exact .last idle zero
      · rw [if_neg zero] at does
        cases does
        exact .leave idle zero
  case h_5 =>
    cases does
    exact .finish
  case h_6 => cases does

theorem unlocked_cases (does : unlocked lg a x = some (x', lg')) :
    (∃ b blocks, a = .logCheck b ∧ x = .inOp blocks ∧ x' = .checked blocks b ∧ lg' = lg ∧
      lg.lh.length < logsize ∧ lg.lh.length < lg.size - 1) ∨
    (a = .commit ∧ x = .committing ∧ x' = .committed ∧ lg' = { lg with lh := [] }) := by
  unfold unlocked at does
  split at does
  case h_1 b blocks =>
    unfold Log.logWriteCheck at does
    by_cases full : lg.lh.length ≥ logsize ∨ lg.lh.length ≥ lg.size - 1
    · rw [if_pos full] at does
      cases does
    · rw [if_neg full] at does
      by_cases outside : lg.outstanding < 1
      · rw [if_pos outside] at does
        cases does
      · rw [if_neg outside] at does
        cases does
        exact .inl ⟨b, blocks, rfl, rfl, rfl, rfl, by omega, by omega⟩
  case h_2 =>
    cases does
    exact .inr ⟨rfl, rfl, rfl, rfl⟩
  case h_3 => cases does

/-! ## The invariant of the protocol -/

section Invariant

variable [Fintype P] {phase : P → Phase} {q : P}

/-- The invariant of the protocol, for processes of which none is marked as
sleeping: at a monitor the mark is not part of the local state. -/
structure Ready (lg : Log) (phase : P → Phase) : Prop where
  inv : Inv lg phase
  awake : ∀ p, phase p ≠ .sleeping

theorem awake_update (awake : ∀ p, phase p ≠ .sleeping) (other : x ≠ .sleeping) (p : P) :
    update phase q x p ≠ .sleeping := by
  by_cases here : p = q
  · rwa [here, update_self]
  · rw [update_of_ne here]
    exact awake p

/-- Where nobody is marked, a wakeup changes only the process that moves. -/
theorem wake_update (awake : ∀ p, phase p ≠ .sleeping) (x : Phase) :
    (fun p => (update phase q x p).wake) = update phase q x.wake := by
  funext p
  by_cases here : p = q
  · rw [here, update_self, update_self]
  · rw [update_of_ne here, update_of_ne here]
    cases at_p : phase p with
    | sleeping => exact absurd at_p (awake p)
    | _ => rfl

theorem does_ready (ready : Ready lg phase) (does : Does lg a (phase q) r) :
    Ready r.data (update phase q r.next) := by
  obtain ⟨inv, awake⟩ := ready
  generalize at_q : phase q = x at does
  cases does with
  | sleep here refused =>
    rw [← at_q] at here
    have moved := (moves_inv (s := ⟨lg, phase, none⟩) inv (.sleep here refused)).wake
    simp only [wake_update awake] at moved
    exact ⟨moved, awake_update awake (by simp)⟩
  | admitted here idle room =>
    rw [← at_q] at here
    exact ⟨moves_inv (s := ⟨lg, phase, none⟩) inv (.admitted here idle room),
      awake_update awake (by simp)⟩
  | append =>
    exact ⟨moves_inv (s := ⟨lg, phase, none⟩) inv (.append at_q), awake_update awake (by simp)⟩
  | last idle zero =>
    exact ⟨moves_inv (s := ⟨lg, phase, none⟩) inv (.last at_q idle zero),
      awake_update awake (by simp)⟩
  | leave idle more =>
    have moved := moves_inv (s := ⟨lg, phase, none⟩) inv (.leave at_q idle more)
    simp only [wake_update awake] at moved
    exact ⟨moved, awake_update awake (by simp)⟩
  | finish =>
    have moved := moves_inv (s := ⟨lg, phase, none⟩) inv (.finish at_q)
    simp only [wake_update awake] at moved
    exact ⟨moved, awake_update awake (by simp)⟩

theorem unlocked_ready (ready : Ready lg phase) (does : unlocked lg a (phase q) = some (x', lg')) :
    Ready lg' (update phase q x') := by
  obtain ⟨inv, awake⟩ := ready
  rcases unlocked_cases does with ⟨b, blocks, -, at_q, rfl, same, fits, room⟩ |
    ⟨-, at_q, rfl, rfl⟩
  · rw [same]
    exact ⟨moves_inv (s := ⟨lg, phase, none⟩) inv (.check at_q fits room),
      awake_update awake (by simp)⟩
  · exact ⟨moves_inv (s := ⟨lg, phase, none⟩) inv (.commit at_q), awake_update awake (by simp)⟩

variable {s s' : State P} {e : Event P}

theorem step_ready (ready : Ready s.data s.local) (stepped : step s e = some s') :
    Ready s'.data s'.local := by
  refine Monitor.step_keeps (I := Ready) ?_ ?_ ready stepped
  · rintro a b l q r d loc ready rfl does
    exact does_ready ready (does_of_underLock does)
  · rintro a l l' q d d' loc ready rfl does
    exact unlocked_ready ready does

theorem init_ready (start size : Nat) :
    Ready (init start size : State P).data (init start size : State P).local :=
  ⟨inv_init start size, fun _ => Phase.noConfusion⟩

/-! ## Who sleeps in begin_op -/

/-- `begin_op` has reason to sleep. -/
def Full (lg : Log) : Prop :=
  lg.committing = true ∨ logsize < lg.lh.length + (lg.outstanding + 1) * maxopblocks

theorem does_signals (full : Full lg) (does : Does lg a x r) : Full r.data ∨ () ∈ r.wakes := by
  cases does with
  | sleep here refused => exact .inl full
  | admitted here idle room =>
    rcases full with busy | full
    · rw [idle] at busy
      cases busy
    · omega
  | append =>
    left
    refine full.imp_right fun full => ?_
    exact Nat.lt_of_lt_of_le full (Nat.add_le_add_right (Log.length_le_absorb _ _) _)
  | last idle zero => exact .inl (.inl rfl)
  | leave idle more => exact .inr (List.mem_singleton.mpr rfl)
  | finish => exact .inr (List.mem_singleton.mpr rfl)

theorem group_signals (ready : Ready s.data s.local) :
    monitor.Signals (fun _ => Full) s e := by
  cases e with
  | enter q a =>
    intro r does
    have does := does_of_underLock does
    refine ⟨fun _ full => does_signals full does, ?_⟩
    intro c sleeps
    generalize s.local q = x at does
    cases does with
    | sleep here refused =>
      rcases beginOp_cases s.data with ⟨-, full⟩ | ⟨granted, -⟩
      · exact full
      · rw [granted] at refused
        cases refused
    | _ => cases sleeps
  | free q a =>
    rintro ⟨x', lg'⟩ does - full
    rcases unlocked_cases does with ⟨b, blocks, -, -, -, rfl, -⟩ | ⟨-, at_q, -, rfl⟩
    · exact full
    · -- `committing` is set while a process is in `commit`
      exact .inl (ready.inv.flag q (by rw [at_q]; rfl))
  | _ => trivial

/-! ## The header -/

theorem step_header (stepped : step s e = some s') {blocks : List Nat}
    (same : ∀ b, b ∈ s.data.lh ↔ b ∈ blocks) (b : Nat) :
    b ∈ s'.data.lh ↔ b ∈ record blocks e := by
  cases Monitor.moves_of_step stepped with
  | free here does =>
    rcases unlocked_cases does with ⟨b, blocks, rfl, -, -, rfl, -⟩ | ⟨rfl, -, -, rfl⟩
    · exact same _
    · rfl
  | enter here clear does =>
    cases does_of_underLock does with
    | append =>
      simp only [Log.logAppend, record, Log.mem_absorb, List.mem_append, List.mem_singleton,
        same]
    | _ => exact same b
  | _ => exact same b

theorem run_header {t : State P} {es : List (Event P)} (done : run step s es = some t)
    {blocks : List Nat} (same : ∀ b, b ∈ s.data.lh ↔ b ∈ blocks) (b : Nat) :
    b ∈ t.data.lh ↔ b ∈ es.foldl record blocks := by
  induction es generalizing s blocks with
  | nil =>
    cases done
    exact same b
  | cons e es ih =>
    obtain ⟨s', stepped, rest⟩ := (run_cons step).mp done
    exact ih rest fun b => step_header stepped same b

end Invariant

/-- **Group commit is safe**, for every interleaving: while a process commits,
`committing` is set, no operation is admitted or inside, and nobody else commits;
`end_op` never finds `committing` set; the header has no block twice, and has just the
blocks written since the last commit; it is empty with nothing outstanding and no
commit; and with `log.lock` free, `begin_op` sleeps only where its test refuses. -/
theorem group_commit_safe (n start size : Nat) (es : List (Event (Fin n))) (s : State (Fin n))
    (reached : run step (init start size) es = some s) :
    (∀ p, s.local p = .committing ∨ s.local p = .committed →
      s.data.outstanding = 0 ∧ s.data.committing = true ∧ s.data.beginOp = none ∧
      ∀ q, (s.local q).active = 0 ∧ ((s.local q).commits = true → q = p)) ∧
    (∀ p blocks, s.local p = .inOp blocks → ∃ r, s.data.endOp = .ok r) ∧
    (s.data.lh.Nodup ∧ ∀ b, b ∈ s.data.lh ↔ b ∈ written es) ∧
    (s.data.outstanding = 0 → s.data.committing = false → s.data.lh.length = 0) ∧
    (s.lock = false → ∀ p x, s.pc p = .asleep () x →
      s.data.committing = true ∨
        logsize < s.data.lh.length + (s.data.outstanding + 1) * maxopblocks) := by
  have ready : Ready s.data s.local :=
    run_invariant step (I := fun s => Ready s.data s.local)
      (fun _ _ _ ready stepped => step_ready ready stepped) (init_ready start size) reached
  have inv := ready.inv
  refine ⟨?_, ?_, ⟨inv.distinct, ?_⟩, ?_, ?_⟩
  · intro p commits
    have mark : (s.local p).commits = true := by rcases commits with h | h <;> rw [h] <;> rfl
    have set := inv.flag p mark
    have zero := inv.quiet set
    refine ⟨zero, set, if_pos set, fun q => ⟨?_, fun other => inv.one q p other mark⟩⟩
    have counted := le_sum Phase.active s.local q
    rw [inv.count, zero] at counted
    omega
  · intro p blocks here
    have idle := inv.not_committing (p := p) (by rw [here]; rfl)
    unfold Log.endOp
    rw [idle, if_neg Bool.false_ne_true]
    split
    · exact ⟨_, rfl⟩
    · exact ⟨_, rfl⟩
  · exact run_header reached fun b => Iff.rfl
  · intro zero idle
    rw [inv.empty zero idle]
    rfl
  · intro clear p x asleep
    have signals : Along step (monitor.Signals fun _ => Full) (init start size) es :=
      along_of_invariant step (I := fun s => Ready s.data s.local)
        (fun _ _ _ ready stepped => step_ready ready stepped)
        (fun _ _ ready => group_signals ready) (init_ready start size)
    obtain ⟨exclusive, attended⟩ := Monitor.run_attended signals reached
    exact attended.need_of_asleep exclusive clear asleep

/-- Three operations are admitted, one of them writes a block, and a fourth has to
sleep. -/
def fourthSleeps : List (Event (Fin 4)) :=
  [.enter 0 .beginOp, .release 0, .enter 1 .beginOp, .release 1, .enter 2 .beginOp, .release 2,
    .free 1 (.logCheck 60), .enter 1 (.logAppend 60), .release 1,
    .enter 3 .beginOp, .sleepAcquire 3, .sleepRelease 3, .sleepSwitch 3]

theorem fourth_sleeps_for_space : ∃ s, run step (init 2 logsize) fourthSleeps = some s ∧
    s.pc 3 = .asleep () .woken ∧ 60 ∈ s.data.lh ∧
    (s.data.committing = true ∨
      logsize < s.data.lh.length + (s.data.outstanding + 1) * maxopblocks) := by
  obtain ⟨s, done, clear, asleep⟩ : ∃ s, run step (init 2 logsize) fourthSleeps = some s ∧
      s.lock = false ∧ s.pc 3 = .asleep () .woken := ⟨_, rfl, rfl, rfl⟩
  obtain ⟨-, -, ⟨-, header⟩, -, sleeps⟩ := group_commit_safe 4 2 logsize fourthSleeps s done
  exact ⟨s, done, asleep, (header 60).mpr (by decide), sleeps clear 3 _ asleep⟩

end

end BasicOS.Group
