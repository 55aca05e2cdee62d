/-
# BasicOS.Proc.SleepLock — sleeplock.c

Any number of processes call `acquiresleep`, `releasesleep` and `holdingsleep` on one
sleep lock, and kill each other.  They are processes at a monitor (`Lib.Monitor`):
the spinlock `lk->lk` guards the two fields of the lock, and `sleep` and `wakeup` are
taken apart into what they do with it and with the lock of the process table.

`lk->locked` is then a lock word in its own right (`Lib.LockWord`): `Owned` says that
it is set exactly while one process has the sleep lock, with the pid of that process
beside it.  `sleeplock_safe` is that along every run, and that nobody sleeps on a lock
that is free.
-/
import BasicOS.Lib.Monitor

namespace BasicOS

open Lib Function

set_option autoImplicit false
set_option linter.unusedSectionVars false

/-- The fields of `struct sleeplock` that its spinlock guards. -/
structure SleepLock where
  locked : Bool
  pid : Nat
  deriving DecidableEq, Repr

namespace SleepLock

def initsleeplock : SleepLock :=
  ⟨false, 0⟩

/-- What a process knows. -/
structure Local where
  pid : Nat
  /-- The lock is its own: an `acquiresleep` has set it, and no `releasesleep` has
  cleared it since. -/
  holds : Bool
  /-- It is in the loop of `acquiresleep`. -/
  waits : Bool
  /-- What `holdingsleep` returned last. -/
  said : Option Bool
  deriving DecidableEq, Repr

inductive Act where
  | acquiresleep
  /-- `acquiresleep` tests the lock again. -/
  | again
  | releasesleep
  | holdingsleep
  deriving DecidableEq, Repr

/-- The test of `acquiresleep` and what follows it, to where the call returns or
sleeps. -/
def attempt (l : Local) (lk : SleepLock) : Stretch SleepLock Local Unit :=
  if lk.locked then ⟨lk, [], { l with waits := true }, some ()⟩
  else ⟨⟨true, l.pid⟩, [], { l with holds := true, waits := false }, none⟩

/-- The calls under the spinlock.  A process that has the lock may well call
`acquiresleep` again; only one that has it calls `releasesleep`. -/
def underLock (l : Local) (lk : SleepLock) : Act → Option (Stretch SleepLock Local Unit)
  | .acquiresleep => if l.waits then none else some (attempt l lk)
  | .again => if l.waits then some (attempt l lk) else none
  | .releasesleep =>
    if l.holds && !l.waits then some ⟨⟨false, 0⟩, [()], { l with holds := false }, none⟩
    else none
  | .holdingsleep =>
    if l.waits then none
    else some ⟨lk, [], { l with said := some (lk.locked && lk.pid == l.pid) }, none⟩

/-- The processes at a sleep lock; none of its calls looks at `killed`. -/
def monitor : Monitor SleepLock Local Unit Act where
  body a _ l lk := underLock l lk a
  free _ _ _ := none

section

variable {P : Type} [DecidableEq P] {pid : P → Nat}

abbrev State (P : Type) := MState P SleepLock Local Unit

abbrev Event (P : Type) := MEvent P Act

abbrev step (s : State P) (e : Event P) : Option (State P) :=
  monitor.step s e

/-- Processes with these pids, and a lock that nobody has used. -/
def init (pid : P → Nat) : State P where
  data := initsleeplock
  lock := false
  table := false
  pc p := .out ⟨pid p, false, false, none⟩
  killed _ := false

/-! ## What a stretch does -/

variable {l : Local} {lk : SleepLock} {a : Act} {r : Stretch SleepLock Local Unit}

theorem underLock_cases (does : underLock l lk a = some r) :
    (lk.locked = true ∧ r = ⟨lk, [], { l with waits := true }, some ()⟩) ∨
    (lk.locked = false ∧ r = ⟨⟨true, l.pid⟩, [], { l with holds := true, waits := false }, none⟩) ∨
    (l.holds = true ∧ r = ⟨⟨false, 0⟩, [()], { l with holds := false }, none⟩) ∨
    ∃ said, r = ⟨lk, [], { l with said }, none⟩ := by
  have tried : ∀ {r}, attempt l lk = r →
      (lk.locked = true ∧ r = ⟨lk, [], { l with waits := true }, some ()⟩) ∨
      lk.locked = false ∧
        r = ⟨⟨true, l.pid⟩, [], { l with holds := true, waits := false }, none⟩ := by
    rintro r rfl
    unfold attempt
    cases locked : lk.locked with
    | true => exact .inl ⟨rfl, rfl⟩
    | false => exact .inr ⟨rfl, rfl⟩
  cases a with
  | acquiresleep =>
    simp only [underLock, Option.ite_none_left_eq_some, Option.some.injEq] at does
    exact (tried does.2).imp_right .inl
  | again =>
    simp only [underLock, Option.ite_none_right_eq_some, Option.some.injEq] at does
    exact (tried does.2).imp_right .inl
  | releasesleep =>
    simp only [underLock, Option.ite_none_right_eq_some, Option.some.injEq,
      Bool.and_eq_true] at does
    exact .inr (.inr (.inl ⟨does.1.1, does.2.symm⟩))
  | holdingsleep =>
    simp only [underLock, Option.ite_none_left_eq_some, Option.some.injEq] at does
    exact .inr (.inr (.inr ⟨_, does.2.symm⟩))

/-! ## Who has the lock -/

/-- The word is set by the process that has the lock, and its pid stands beside it. -/
structure Owned (pid : P → Nat) (lk : SleepLock) (loc : P → Local) : Prop where
  word : Guarded lk.locked fun p => (loc p).holds
  owner : ∀ p, (loc p).holds = true → lk.pid = pid p
  clear : lk.locked = false → lk.pid = 0
  pids : ∀ p, (loc p).pid = pid p

theorem Owned.pids_update {loc : P → Local} (owned : Owned pid lk loc) {q : P} {l : Local}
    (same : l.pid = (loc q).pid) (p : P) : (update loc q l p).pid = pid p := by
  by_cases here : p = q
  · rw [here, update_self, same, owned.pids q]
  · rw [update_of_ne here, owned.pids p]

/-- A process that takes the lock or gives it up is the only one concerned. -/
theorem underLock_owned {loc : P → Local} {q : P} (owned : Owned pid lk loc)
    (does : underLock (loc q) lk a = some r) : Owned pid r.data (update loc q r.next) := by
  -- a stretch that leaves the fields alone
  have stays : ∀ {l : Local}, l.holds = (loc q).holds → l.pid = (loc q).pid →
      Owned pid lk (update loc q l) := by
    intro l same number
    refine ⟨owned.word.stays same, fun p held => owned.owner p ?_, owned.clear,
      owned.pids_update number⟩
    by_cases here : p = q
    · rw [here, update_self, same] at held
      rw [here, held]
    · rwa [update_of_ne here] at held
  rcases underLock_cases does with ⟨-, rfl⟩ | ⟨free, rfl⟩ | ⟨holds, rfl⟩ | ⟨said, rfl⟩
  · exact stays rfl rfl
  · have word := owned.word
    rw [free] at word
    refine ⟨word.takes rfl, fun p held => ?_, nofun, owned.pids_update rfl⟩
    by_cases here : p = q
    · rw [here]
      exact owned.pids q
    · rw [update_of_ne here, word.none p] at held
      cases held
  · have word := owned.word.gives (x := { loc q with holds := false }) holds rfl
    refine ⟨word, fun p held => ?_, fun _ => rfl, owned.pids_update rfl⟩
    rw [word.none p] at held
    cases held
  · exact stays rfl rfl

theorem step_owned {s s' : State P} {e : Event P} (owned : Owned pid s.data s.local)
    (stepped : step s e = some s') : Owned pid s'.data s'.local :=
  Monitor.step_keeps (I := Owned pid)
    (fun owned here does => underLock_owned owned (by rw [here]; exact does))
    (fun _ _ does => absurd does (Option.some_ne_none _).symm) owned stepped

theorem init_owned : Owned pid (init pid).data (init pid).local :=
  ⟨guarded_init, nofun, fun _ => rfl, fun _ => rfl⟩

/-- With pids that differ, `holdingsleep` says who has the lock. -/
theorem Owned.holdingsleep {loc : P → Local} (owned : Owned pid lk loc)
    (distinct : Injective pid) (p : P) :
    (lk.locked && lk.pid == (loc p).pid) = (loc p).holds := by
  rw [Bool.eq_iff_iff, Bool.and_eq_true, beq_iff_eq, owned.pids p]
  constructor
  · rintro ⟨locked, same⟩
    obtain ⟨q, held⟩ := owned.word.owned locked
    rwa [distinct (same.symm.trans (owned.owner q held))]
  · intro held
    exact ⟨owned.word.set p held, owned.owner p held⟩

/-! ## Nobody sleeps on a free lock -/

/-- A process has to wait while the lock is set. -/
def Waits (_ : Unit) (lk : SleepLock) : Prop :=
  lk.locked = true

/-- The stretch that clears the lock wakes the waiters, and one that sleeps has found
it set. -/
theorem signals (s : State P) (e : Event P) : monitor.Signals Waits s e := by
  cases e with
  | enter q a =>
    intro r does
    rcases underLock_cases does with ⟨locked, rfl⟩ | ⟨free, rfl⟩ | ⟨-, rfl⟩ | ⟨said, rfl⟩
    · exact ⟨fun _ set => .inl set, fun _ _ => locked⟩
    · exact ⟨fun _ _ => .inl rfl, nofun⟩
    · exact ⟨fun _ _ => .inr (List.mem_singleton.mpr rfl), nofun⟩
    · exact ⟨fun _ set => .inl set, nofun⟩
  | free q a => exact nofun
  | _ => trivial

/-- What every step keeps. -/
structure Safe (pid : P → Nat) (s : State P) : Prop where
  exclusive : Monitor.Exclusive s
  attended : Monitor.Attended Waits s
  owned : Owned pid s.data s.local

theorem init_safe : Safe pid (init pid) :=
  ⟨⟨guarded_init, guarded_init⟩, ⟨nofun, nofun⟩, init_owned⟩

theorem step_safe {s s' : State P} {e : Event P} (safe : Safe pid s)
    (stepped : step s e = some s') : Safe pid s' :=
  ⟨Monitor.step_exclusive safe.exclusive stepped,
    Monitor.step_attended safe.exclusive safe.attended (signals s e) stepped,
    step_owned safe.owned stepped⟩

/-- **Sleep locks exclude, and strand nobody**: in every state of every run, one process
at most has the lock; `lk->locked` is set exactly while one has it, with its pid in
`lk->pid`; and with the spinlock free, a process that sleeps on the lock finds it
set. -/
theorem sleeplock_safe (pid : P → Nat) (es : List (Event P)) (s : State P)
    (reached : run step (init pid) es = some s) :
    (∀ p q, (s.local p).holds = true → (s.local q).holds = true → p = q) ∧
    (s.data.locked = true → ∃ p, (s.local p).holds = true ∧ s.data.pid = pid p) ∧
    (s.data.locked = false → (∀ p, (s.local p).holds = false) ∧ s.data.pid = 0) ∧
    (s.lock = false → ∀ p l, s.pc p = .asleep () l → s.data.locked = true) := by
  have safe : Safe pid s :=
    run_invariant step (fun _ _ _ safe stepped => step_safe safe stepped) init_safe reached
  have word := safe.owned.word
  refine ⟨word.one, fun locked => ?_, fun free => ⟨?_, safe.owned.clear free⟩, fun clear p l => ?_⟩
  · obtain ⟨p, held⟩ := word.owned locked
    exact ⟨p, held, safe.owned.owner p held⟩
  · rw [free] at word
    exact word.none
  · exact safe.attended.need_of_asleep safe.exclusive clear

/-- **`holdingsleep` says who has the lock**: with pids that differ, whatever the others do
in between. -/
theorem holdingsleep_exact (distinct : Injective pid) {es : List (Event P)} {s s' : State P}
    (reached : run step (init pid) es = some s) {p : P}
    (asked : step s (.enter p .holdingsleep) = some s') :
    (s'.local p).said = some (s.local p).holds := by
  have owned : Owned pid s.data s.local :=
    run_invariant step (fun _ _ _ owned stepped => step_owned owned stepped) init_owned reached
  cases Monitor.moves_of_step asked with
  | @enter _ _ l r here clear does =>
    obtain rfl : s.local p = l := by rw [MState.local, here]; rfl
    simp only [monitor, underLock, Option.ite_none_left_eq_some, Option.some.injEq] at does
    obtain ⟨-, rfl⟩ := does
    show (update s.pc p _ p).loc.said = _
    rw [update_self, ← owned.holdingsleep distinct p]
    rfl

end

/-- The first process has the lock.  The second sleeps on it, is killed, tests the lock
again and sleeps once more. -/
def killedWaiter : List (Event (Fin 2)) :=
  [.enter 0 .acquiresleep, .release 0, .enter 1 .acquiresleep, .sleepAcquire 1, .sleepRelease 1,
    .sleepSwitch 1, .kill 1, .resume 1, .enter 1 .again, .sleepAcquire 1, .sleepRelease 1,
    .sleepSwitch 1]

theorem killedWaiter_safe : ∃ s, run step (init fun p : Fin 2 => p.val + 1) killedWaiter = some s ∧
    s.pc 1 = .asleep () ⟨2, false, true, none⟩ ∧ s.data = ⟨true, 1⟩ := by
  obtain ⟨s, done, clear, asleep, pid⟩ : ∃ s, run step (init fun p : Fin 2 => p.val + 1)
      killedWaiter = some s ∧ s.lock = false ∧ s.pc 1 = .asleep () ⟨2, false, true, none⟩ ∧
      s.data.pid = 1 := ⟨_, rfl, rfl, rfl, rfl⟩
  obtain ⟨-, -, -, waits⟩ := sleeplock_safe _ killedWaiter s done
  have locked := waits clear 1 _ asleep
  exact ⟨s, done, asleep, by rw [← locked, ← pid]⟩

/-- The waiter asks whether the lock is its own. -/
theorem other_holdingsleep : ∃ s s', run step (init fun p : Fin 2 => p.val + 1)
      [.enter 0 .acquiresleep, .release 0] = some s ∧
    step s (.enter 1 .holdingsleep) = some s' ∧ (s'.local 1).said = some false := by
  have distinct : Injective fun p : Fin 2 => p.val + 1 :=
    fun _ _ same => Fin.ext (Nat.succ.inj same)
  obtain ⟨s, s', done, asked, free⟩ : ∃ s s', run step (init fun p : Fin 2 => p.val + 1)
      [.enter 0 .acquiresleep, .release 0] = some s ∧
      step s (.enter 1 .holdingsleep) = some s' ∧ (s.local 1).holds = false :=
    ⟨_, _, rfl, rfl, rfl⟩
  exact ⟨s, s', done, asked, free ▸ holdingsleep_exact distinct done asked⟩

end SleepLock

end BasicOS
