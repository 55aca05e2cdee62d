/-
# BasicOS.Lib.Monitor — sleeping and waking under a spinlock

Processes share data that a spinlock guards.  A process works on the data in
stretches: it takes the lock, runs to the end of the stretch, makes its wakeups,
and then either gives the lock up or sleeps on a channel.  Sleeping is not one
step.  The sleeper takes the lock of the process table, gives up the lock of the
data, and only then is marked as sleeping and gives up the table; a wakeup needs the
table.  A killed process is woken from any sleep.

Both locks are words that a process sets when it finds them clear, so that mutual
exclusion is a theorem (`Lib.LockWord`).  `Attended` says that nobody sleeps on a channel
without reason: the condition of the channel holds, or the process with the lock is
about to wake it.  `Monitor.step_attended` keeps that along every step, given that
each stretch which ends the condition of a channel wakes it.

What is only about the data and the local states is proved on stretches alone, as
if each were one step (`Monitor.step_local`).
-/
import BasicOS.Lib.LockWord
import BasicOS.Lib.Run

namespace BasicOS.Lib

open Function

set_option autoImplicit false
set_option linter.unusedSectionVars false

/-! ## Processes at a monitor -/

/-- What one stretch under the lock does. -/
structure Stretch (D L C : Type) where
  data : D
  /-- The channels it wakes before the lock is given up. -/
  wakes : List C
  next : L
  /-- The channel it then sleeps on, if it does. -/
  sleeps : Option C

/-- The code of the processes: by local state, and by what the step is given. -/
structure Monitor (D L C A : Type) where
  /-- The stretch that begins when the lock is taken; the flag is `killed`. -/
  body : A → Bool → L → D → Option (Stretch D L C)
  /-- A step without the lock. -/
  free : A → L → D → Option (L × D)

/-- Where a process stands, with the local state it goes on in. -/
inductive Pc (L C : Type) where
  /-- Without the lock. -/
  | out (l : L)
  /-- With the lock, at the end of a stretch; these wakeups are still to be made. -/
  | inside (wakes : List C) (sleeps : Option C) (l : L)
  /-- In `sleep`, with both locks. -/
  | parting (c : C) (l : L)
  /-- In `sleep`, with the lock of the table only. -/
  | dozing (c : C) (l : L)
  /-- Marked as sleeping. -/
  | asleep (c : C) (l : L)
  /-- Made runnable, not yet running. -/
  | woken (l : L)
  deriving DecidableEq, Repr

namespace Pc

variable {L C : Type}

/-- The process has set the lock word of the data. -/
def holds : Pc L C → Bool
  | inside _ _ _ => true
  | parting _ _ => true
  | _ => false

/-- The process has set the lock word of the process table. -/
def holdsTable : Pc L C → Bool
  | parting _ _ => true
  | dozing _ _ => true
  | _ => false

def loc : Pc L C → L
  | out l => l
  | inside _ _ l => l
  | parting _ l => l
  | dozing _ l => l
  | asleep _ l => l
  | woken l => l

/-- The channel that a process with the lock is going to sleep on. -/
def going : Pc L C → Option C
  | inside _ sleeps _ => sleeps
  | parting c _ => some c
  | _ => none

/-- The channel that a process without the lock sleeps on, or is about to. -/
def sleeping : Pc L C → Option C
  | dozing c _ => some c
  | asleep c _ => some c
  | _ => none

/-- The wakeups a process still has to make. -/
def pending : Pc L C → List C
  | inside wakes _ _ => wakes
  | _ => []

/-- The effect of `wakeup` on one process. -/
def wake [DecidableEq C] (c : C) : Pc L C → Pc L C
  | asleep c' l => if c' = c then woken l else asleep c' l
  | pc => pc

/-- The effect of `kill` on the process killed. -/
def rouse : Pc L C → Pc L C
  | asleep _ l => woken l
  | pc => pc

section Wake

variable [DecidableEq C] (c : C) (pc : Pc L C)

@[simp] theorem holds_wake : (pc.wake c).holds = pc.holds := by
  cases pc with
  | asleep c' l => simp only [wake]; split <;> rfl
  | _ => rfl

@[simp] theorem holdsTable_wake : (pc.wake c).holdsTable = pc.holdsTable := by
  cases pc with
  | asleep c' l => simp only [wake]; split <;> rfl
  | _ => rfl

@[simp] theorem loc_wake : (pc.wake c).loc = pc.loc := by
  cases pc with
  | asleep c' l => simp only [wake]; split <;> rfl
  | _ => rfl

@[simp] theorem going_wake : (pc.wake c).going = pc.going := by
  cases pc with
  | asleep c' l => simp only [wake]; split <;> rfl
  | _ => rfl

@[simp] theorem pending_wake : (pc.wake c).pending = pc.pending := by
  cases pc with
  | asleep c' l => simp only [wake]; split <;> rfl
  | _ => rfl

/-- Who still sleeps after a wakeup slept before, on another channel, unless they
had the table. -/
theorem sleeping_wake {c' : C} (still : (pc.wake c).sleeping = some c') :
    pc.sleeping = some c' ∧ (c' ≠ c ∨ pc.holdsTable = true) := by
  cases pc with
  | asleep c'' l =>
    simp only [wake] at still
    split at still
    · cases still
    · rename_i other
      cases still
      exact ⟨rfl, .inl other⟩
  | dozing c'' l => exact ⟨still, .inr rfl⟩
  | _ => cases still

end Wake

@[simp] theorem holds_rouse (pc : Pc L C) : pc.rouse.holds = pc.holds := by cases pc <;> rfl

@[simp] theorem holdsTable_rouse (pc : Pc L C) : pc.rouse.holdsTable = pc.holdsTable := by
  cases pc <;> rfl

@[simp] theorem loc_rouse (pc : Pc L C) : pc.rouse.loc = pc.loc := by cases pc <;> rfl

@[simp] theorem going_rouse (pc : Pc L C) : pc.rouse.going = pc.going := by cases pc <;> rfl

@[simp] theorem pending_rouse (pc : Pc L C) : pc.rouse.pending = pc.pending := by cases pc <;> rfl

theorem sleeping_rouse {pc : Pc L C} {c : C} (still : pc.rouse.sleeping = some c) :
    pc.sleeping = some c := by
  cases pc with
  | asleep _ _ => cases still
  | _ => exact still

end Pc

section Model

variable {P D L C A : Type}

structure MState (P D L C : Type) where
  data : D
  /-- The lock word of the data. -/
  lock : Bool
  /-- The lock word of the process table. -/
  table : Bool
  pc : P → Pc L C
  killed : P → Bool

inductive MEvent (P A : Type) where
  /-- A step without the lock. -/
  | free (q : P) (a : A)
  /-- The lock is taken, and the stretch runs. -/
  | enter (q : P) (a : A)
  /-- The next wakeup of the process with the lock. -/
  | wake (q : P)
  | release (q : P)
  /-- `sleep` takes the lock of the process table. -/
  | sleepAcquire (q : P)
  /-- `sleep` gives up the lock of the data. -/
  | sleepRelease (q : P)
  /-- The process is marked as sleeping, and its processor gives up the table. -/
  | sleepSwitch (q : P)
  /-- The scheduler runs a process that was woken. -/
  | resume (q : P)
  | kill (q : P)
  deriving DecidableEq, Repr

def MState.local (s : MState P D L C) (q : P) : L :=
  (s.pc q).loc

/-- Everybody is outside, in local state `l`. -/
def MState.init (d : D) (l : L) : MState P D L C where
  data := d
  lock := false
  table := false
  pc := fun _ => .out l
  killed := fun _ => false

namespace Monitor

variable [DecidableEq P] [DecidableEq C] (m : Monitor D L C A)

def step (s : MState P D L C) : MEvent P A → Option (MState P D L C)
  | .free q a =>
    match s.pc q with
    | .out l => (m.free a l s.data).map fun r =>
      { s with data := r.2, pc := update s.pc q (.out r.1) }
    | _ => none
  | .enter q a =>
    match s.pc q, s.lock with
    | .out l, false => (m.body a (s.killed q) l s.data).map fun r =>
      { s with
        data := r.data
        lock := true
        pc := update s.pc q (.inside r.wakes r.sleeps r.next) }
    | _, _ => none
  | .wake q =>
    match s.pc q, s.table with
    | .inside (c :: wakes) sleeps l, false =>
      some { s with pc := fun p => (update s.pc q (.inside wakes sleeps l) p).wake c }
    | _, _ => none
  | .release q =>
    match s.pc q with
    | .inside [] none l => some { s with lock := false, pc := update s.pc q (.out l) }
    | _ => none
  | .sleepAcquire q =>
    match s.pc q, s.table with
    | .inside [] (some c) l, false =>
      some { s with table := true, pc := update s.pc q (.parting c l) }
    | _, _ => none
  | .sleepRelease q =>
    match s.pc q with
    | .parting c l => some { s with lock := false, pc := update s.pc q (.dozing c l) }
    | _ => none
  | .sleepSwitch q =>
    match s.pc q with
    | .dozing c l => some { s with table := false, pc := update s.pc q (.asleep c l) }
    | _ => none
  | .resume q =>
    match s.pc q, s.table with
    | .woken l, false => some { s with pc := update s.pc q (.out l) }
    | _, _ => none
  | .kill q =>
    if s.table then none
    else some { s with
      killed := update s.killed q true
      pc := update s.pc q (s.pc q).rouse }

/-! ## What a step can do -/

/-- The steps, with their guards. -/
inductive Moves (s : MState P D L C) : MEvent P A → MState P D L C → Prop where
  | free {q : P} {a : A} {l l' : L} {d : D} (here : s.pc q = .out l)
      (does : m.free a l s.data = some (l', d)) :
      Moves s (.free q a) { s with data := d, pc := update s.pc q (.out l') }
  | enter {q : P} {a : A} {l : L} {r : Stretch D L C} (here : s.pc q = .out l)
      (clear : s.lock = false) (does : m.body a (s.killed q) l s.data = some r) :
      Moves s (.enter q a)
        { s with
          data := r.data
          lock := true
          pc := update s.pc q (.inside r.wakes r.sleeps r.next) }
  | wake {q : P} {c : C} {wakes : List C} {sleeps : Option C} {l : L}
      (here : s.pc q = .inside (c :: wakes) sleeps l) (clear : s.table = false) :
      Moves s (.wake q)
        { s with pc := fun p => (update s.pc q (.inside wakes sleeps l) p).wake c }
  | release {q : P} {l : L} (here : s.pc q = .inside [] none l) :
      Moves s (.release q) { s with lock := false, pc := update s.pc q (.out l) }
  | sleepAcquire {q : P} {c : C} {l : L} (here : s.pc q = .inside [] (some c) l)
      (clear : s.table = false) :
      Moves s (.sleepAcquire q) { s with table := true, pc := update s.pc q (.parting c l) }
  | sleepRelease {q : P} {c : C} {l : L} (here : s.pc q = .parting c l) :
      Moves s (.sleepRelease q) { s with lock := false, pc := update s.pc q (.dozing c l) }
  | sleepSwitch {q : P} {c : C} {l : L} (here : s.pc q = .dozing c l) :
      Moves s (.sleepSwitch q) { s with table := false, pc := update s.pc q (.asleep c l) }
  | resume {q : P} {l : L} (here : s.pc q = .woken l) (clear : s.table = false) :
      Moves s (.resume q) { s with pc := update s.pc q (.out l) }
  | kill {q : P} (clear : s.table = false) :
      Moves s (.kill q)
        { s with killed := update s.killed q true, pc := update s.pc q (s.pc q).rouse }

variable {m} {s s' : MState P D L C} {e : MEvent P A}

theorem moves_of_step (stepped : m.step s e = some s') : m.Moves s e s' := by
  cases e with
  | free q a =>
    simp only [step] at stepped
    split at stepped
    · rename_i l here
      obtain ⟨⟨l', d⟩, does, rfl⟩ := Option.map_eq_some_iff.mp stepped
      exact .free here does
    · cases stepped
  | enter q a =>
    simp only [step] at stepped
    split at stepped
    · rename_i l here clear
      obtain ⟨r, does, rfl⟩ := Option.map_eq_some_iff.mp stepped
      exact .enter here clear does
    · cases stepped
  | wake q =>
    simp only [step] at stepped
    split at stepped
    · rename_i c wakes sleeps l here clear
      cases stepped
      exact .wake here clear
    · cases stepped
  | release q =>
    simp only [step] at stepped
    split at stepped
    · rename_i l here
      cases stepped
      exact .release here
    · cases stepped
  | sleepAcquire q =>
    simp only [step] at stepped
    split at stepped
    · rename_i c l here clear
      cases stepped
      exact .sleepAcquire here clear
    · cases stepped
  | sleepRelease q =>
    simp only [step] at stepped
    split at stepped
    · rename_i c l here
      cases stepped
      exact .sleepRelease here
    · cases stepped
  | sleepSwitch q =>
    simp only [step] at stepped
    split at stepped
    · rename_i c l here
      cases stepped
      exact .sleepSwitch here
    · cases stepped
  | resume q =>
    simp only [step] at stepped
    split at stepped
    · rename_i l here clear
      cases stepped
      exact .resume here clear
    · cases stepped
  | kill q =>
    simp only [step] at stepped
    split at stepped
    · cases stepped
    · rename_i clear
      cases stepped
      exact .kill (by simpa using clear)

/-! ## The stretches as steps -/

/-- Apart from stretches and free steps, a step leaves the data and the local states
alone. -/
theorem step_local (stepped : m.step s e = some s') :
    (s'.data = s.data ∧ s'.local = s.local) ∨
    (∃ q a r, e = .enter q a ∧ m.body a (s.killed q) (s.local q) s.data = some r ∧
      s'.data = r.data ∧ s'.local = update s.local q r.next) ∨
    ∃ q a l, e = .free q a ∧ m.free a (s.local q) s.data = some (l, s'.data) ∧
      s'.local = update s.local q l := by
  have moved : ∀ (q : P) (pc : Pc L C), (fun p => (update s.pc q pc p).loc) =
      update s.local q pc.loc := by
    intro q pc
    funext p
    exact apply_update (fun _ x => Pc.loc x) s.pc q pc p
  have stays : ∀ {q : P} {pc : Pc L C}, pc.loc = (s.pc q).loc →
      (fun p => (update s.pc q pc p).loc) = s.local := by
    intro q pc same
    rw [moved, same]
    exact update_eq_self q s.local
  cases moves_of_step stepped with
  | @free q a l l' d here does =>
    have at_q : s.local q = l := by rw [MState.local, here]; rfl
    exact .inr (.inr ⟨q, a, l', rfl, at_q ▸ does, moved q _⟩)
  | @enter q a l r here clear does =>
    have at_q : s.local q = l := by rw [MState.local, here]; rfl
    exact .inr (.inl ⟨q, a, r, rfl, at_q ▸ does, rfl, moved q _⟩)
  | @wake q c wakes sleeps l here clear =>
    refine .inl ⟨rfl, ?_⟩
    have woken : ∀ p, ((update s.pc q (.inside wakes sleeps l) p).wake c).loc =
        (update s.pc q (.inside wakes sleeps l) p).loc := fun p => Pc.loc_wake _ _
    exact (funext woken).trans (stays (by rw [here]; rfl))
  | release here => exact .inl ⟨rfl, stays (by rw [here]; rfl)⟩
  | sleepAcquire here clear => exact .inl ⟨rfl, stays (by rw [here]; rfl)⟩
  | sleepRelease here => exact .inl ⟨rfl, stays (by rw [here]; rfl)⟩
  | sleepSwitch here => exact .inl ⟨rfl, stays (by rw [here]; rfl)⟩
  | resume here clear => exact .inl ⟨rfl, stays (by rw [here]; rfl)⟩
  | kill clear => exact .inl ⟨rfl, stays (Pc.loc_rouse _)⟩

/-- An invariant of the data and the local states, checked on stretches and free
steps. -/
theorem step_keeps {I : D → (P → L) → Prop}
    (body : ∀ {a b l q r} {d : D} {loc : P → L}, I d loc → loc q = l → m.body a b l d = some r →
      I r.data (update loc q r.next))
    (free : ∀ {a l l' q} {d d' : D} {loc : P → L}, I d loc → loc q = l →
      m.free a l d = some (l', d') → I d' (update loc q l'))
    (h : I s.data s.local) (stepped : m.step s e = some s') : I s'.data s'.local := by
  rcases step_local stepped with ⟨data, loc⟩ | ⟨q, a, r, -, does, data, loc⟩ |
    ⟨q, a, l, -, does, loc⟩
  · rw [data, loc]
    exact h
  · rw [data, loc]
    exact body h rfl does
  · rw [loc]
    exact free h rfl does

/-! ## Simulation -/

/-- The processes stand alike, at data that is related. -/
structure Alike {D' : Type} (R : D → D' → Prop) (s : MState P D L C) (t : MState P D' L C) :
    Prop where
  data : R s.data t.data
  lock : t.lock = s.lock
  table : t.table = s.table
  pc : t.pc = s.pc
  killed : t.killed = s.killed

/-- Where the stretches and the free steps of one monitor are those of another on
related data, so are all steps. -/
theorem step_simulation {D' : Type} {m' : Monitor D' L C A} {R : D → D' → Prop}
    (body : ∀ {a k l r} {d : D} {d' : D'}, R d d' → m.body a k l d = some r →
      ∃ x, m'.body a k l d' = some ⟨x, r.wakes, r.next, r.sleeps⟩ ∧ R r.data x)
    (free : ∀ {a l l'} {d e : D} {d' : D'}, R d d' → m.free a l d = some (l', e) →
      ∃ x, m'.free a l d' = some (l', x) ∧ R e x)
    {t : MState P D' L C} (alike : Alike R s t) (stepped : m.step s e = some s') :
    ∃ t', m'.step t e = some t' ∧ Alike R s' t' := by
  obtain ⟨data, lock, table, pc, killed⟩ := t
  obtain ⟨related, rfl, rfl, rfl, rfl⟩ := alike
  replace related : R s.data data := related
  cases moves_of_step stepped with
  | free here does =>
    obtain ⟨x, does', now⟩ := free related does
    refine ⟨⟨x, _, _, _, _⟩, ?_, now, rfl, rfl, rfl, rfl⟩
    simp only [step, here, does', Option.map_some]
  | enter here clear does =>
    obtain ⟨x, does', now⟩ := body related does
    refine ⟨⟨x, _, _, _, _⟩, ?_, now, rfl, rfl, rfl, rfl⟩
    simp only [step, here, clear, does', Option.map_some]
  | wake here clear =>
    refine ⟨⟨data, _, _, _, _⟩, ?_, related, rfl, rfl, rfl, rfl⟩
    simp only [step, here, clear]
  | release here =>
    refine ⟨⟨data, _, _, _, _⟩, ?_, related, rfl, rfl, rfl, rfl⟩
    simp only [step, here]
  | sleepAcquire here clear =>
    refine ⟨⟨data, _, _, _, _⟩, ?_, related, rfl, rfl, rfl, rfl⟩
    simp only [step, here, clear]
  | sleepRelease here =>
    refine ⟨⟨data, _, _, _, _⟩, ?_, related, rfl, rfl, rfl, rfl⟩
    simp only [step, here]
  | sleepSwitch here =>
    refine ⟨⟨data, _, _, _, _⟩, ?_, related, rfl, rfl, rfl, rfl⟩
    simp only [step, here]
  | resume here clear =>
    refine ⟨⟨data, _, _, _, _⟩, ?_, related, rfl, rfl, rfl, rfl⟩
    simp only [step, here, clear]
  | kill clear =>
    refine ⟨⟨data, _, _, _, _⟩, ?_, related, rfl, rfl, rfl, rfl⟩
    simp [step, clear]

/-! ## Mutual exclusion -/

structure Exclusive (s : MState P D L C) : Prop where
  lock : Guarded s.lock fun p => (s.pc p).holds
  table : Guarded s.table fun p => (s.pc p).holdsTable

theorem init_exclusive (d : D) (l : L) :
    Exclusive (MState.init d l : MState P D L C) :=
  ⟨guarded_init, guarded_init⟩

theorem step_exclusive (h : Exclusive s) (stepped : m.step s e = some s') : Exclusive s' := by
  obtain ⟨lock, table⟩ := h
  cases moves_of_step stepped with
  | free here does => exact ⟨lock.stays (by rw [here]; rfl), table.stays (by rw [here]; rfl)⟩
  | enter here clear does =>
    rw [clear] at lock
    exact ⟨lock.takes rfl, table.stays (by rw [here]; rfl)⟩
  | wake here clear =>
    exact ⟨(lock.stays (by rw [here]; rfl)).keep fun p => Pc.holds_wake _ _,
      (table.stays (by rw [here]; rfl)).keep fun p => Pc.holdsTable_wake _ _⟩
  | release here =>
    exact ⟨lock.gives (by rw [here]; rfl) rfl, table.stays (by rw [here]; rfl)⟩
  | sleepAcquire here clear =>
    rw [clear] at table
    exact ⟨lock.stays (by rw [here]; rfl), table.takes rfl⟩
  | sleepRelease here =>
    exact ⟨lock.gives (by rw [here]; rfl) rfl, table.stays (by rw [here]; rfl)⟩
  | sleepSwitch here =>
    exact ⟨lock.stays (by rw [here]; rfl), table.gives (by rw [here]; rfl) rfl⟩
  | resume here clear => exact ⟨lock.stays (by rw [here]; rfl), table.stays (by rw [here]; rfl)⟩
  | kill clear => exact ⟨lock.stays (Pc.holds_rouse _), table.stays (Pc.holdsTable_rouse _)⟩

/-! ## No wakeup is lost -/

variable {need : C → D → Prop}

/-- A stretch that ends the condition of a channel wakes the channel, and one that
sleeps on a channel leaves its condition true; free steps end no condition. -/
def Signals (m : Monitor D L C A) (need : C → D → Prop) (s : MState P D L C) :
    MEvent P A → Prop
  | .enter q a => ∀ r, m.body a (s.killed q) (s.local q) s.data = some r →
      (∀ c, need c s.data → need c r.data ∨ c ∈ r.wakes) ∧
        ∀ c, r.sleeps = some c → need c r.data
  | .free q a => ∀ r, m.free a (s.local q) s.data = some r → ∀ c, need c s.data → need c r.2
  | _ => True

/-- Nobody sleeps without reason. -/
structure Attended (need : C → D → Prop) (s : MState P D L C) : Prop where
  going : ∀ p c, (s.pc p).going = some c → need c s.data
  sleeping : ∀ p c, (s.pc p).sleeping = some c → need c s.data ∨ ∃ q, c ∈ (s.pc q).pending

theorem init_attended (d : D) (l : L) : Attended need (MState.init d l : MState P D L C) :=
  ⟨nofun, nofun⟩

/-- With the lock free, no wakeup is pending. -/
theorem Attended.need_of_asleep (h : Attended need s) (exclusive : Exclusive s)
    (clear : s.lock = false) {p : P} {c : C} {l : L} (asleep : s.pc p = .asleep c l) :
    need c s.data := by
  rcases h.sleeping p c (by rw [asleep]; rfl) with now | ⟨q, pending⟩
  · exact now
  · have free := exclusive.lock
    rw [clear] at free
    have out := free.none q
    cases pc : s.pc q with
    | inside _ _ _ =>
      simp only [pc] at out
      cases out
    | _ =>
      rw [pc] at pending
      cases pending

/-- One process moves on, without a wakeup. -/
theorem Attended.move (h : Attended need s) (q : P) (pc : Pc L C)
    (going : ∀ c, pc.going = some c → need c s.data)
    (sleeping : ∀ c, pc.sleeping = some c → need c s.data ∨ (s.pc q).sleeping = some c)
    (pending : ∀ c ∈ (s.pc q).pending, c ∈ pc.pending) {lock table : Bool} {killed : P → Bool} :
    Attended need { s with lock, table, killed, pc := update s.pc q pc } := by
  have waker : ∀ {c}, (∃ r, c ∈ (s.pc r).pending) → ∃ r, c ∈ (update s.pc q pc r).pending := by
    rintro c ⟨r, waker⟩
    refine ⟨r, ?_⟩
    by_cases same : r = q
    · rw [same] at waker ⊢
      rw [update_self]
      exact pending c waker
    · rw [update_of_ne same]
      exact waker
  refine ⟨?_, ?_⟩
  · intro p c
    by_cases here : p = q
    · simp only [here, update_self]
      exact going c
    · simp only [update_of_ne here]
      exact h.going p c
  · intro p c asleep
    have before : need c s.data ∨ (s.pc p).sleeping = some c := by
      by_cases here : p = q
      · simp only [here, update_self] at asleep
        rw [here]
        exact sleeping c asleep
      · simp only [update_of_ne here] at asleep
        exact .inr asleep
    rcases before with now | before
    · exact .inl now
    · exact (h.sleeping p c before).imp_right waker

theorem step_attended (exclusive : Exclusive s) (h : Attended need s)
    (signals : m.Signals need s e) (stepped : m.step s e = some s') : Attended need s' := by
  cases moves_of_step stepped with
  | @free q a l l' d here does =>
    have at_q : s.local q = l := by rw [MState.local, here]; rfl
    have kept := signals (l', d) (at_q ▸ does)
    have moved : Attended need { s with data := d } :=
      ⟨fun p c going => kept c (h.going p c going),
        fun p c asleep => (h.sleeping p c asleep).imp_left (kept c)⟩
    exact moved.move q (.out l') nofun nofun (by rw [here]; nofun)
  | @enter q a l r here clear does =>
    have at_q : s.local q = l := by rw [MState.local, here]; rfl
    obtain ⟨kept, sleeps⟩ := signals r (at_q ▸ does)
    have lock := exclusive.lock
    rw [clear] at lock
    refine ⟨?_, ?_⟩
    · intro p c going
      by_cases same : p = q
      · simp only [same, update_self] at going
        exact sleeps c going
      · -- nobody else has the lock
        simp only [update_of_ne same] at going
        have out := lock.none p
        cases pc : s.pc p with
        | inside _ _ _ => simp only [pc] at out; cases out
        | parting _ _ => simp only [pc] at out; cases out
        | _ => rw [pc] at going; cases going
    · intro p c asleep
      by_cases same : p = q
      · simp only [same, update_self] at asleep
        cases asleep
      · simp only [update_of_ne same] at asleep
        have now : need c s.data := by
          rcases h.sleeping p c asleep with now | ⟨w, pending⟩
          · exact now
          · have out := lock.none w
            cases pc : s.pc w with
            | inside _ _ _ => simp only [pc] at out; cases out
            | _ => rw [pc] at pending; cases pending
        rcases kept c now with still | woken
        · exact .inl still
        · refine .inr ⟨q, ?_⟩
          simp only [update_self]
          exact woken
  | @wake q c wakes sleeps l here clear =>
    have table := exclusive.table
    rw [clear] at table
    have goingSame : ∀ p, ((update s.pc q (.inside wakes sleeps l) p).wake c).going =
        (s.pc p).going := by
      intro p
      rw [Pc.going_wake]
      by_cases same : p = q
      · rw [same, update_self, here]
        rfl
      · rw [update_of_ne same]
    refine ⟨fun p c' going => h.going p c' (goingSame p ▸ going), ?_⟩
    intro p c' asleep
    obtain ⟨before, other⟩ := Pc.sleeping_wake _ _ asleep
    have notSelf : p ≠ q := by
      rintro rfl
      rw [update_self] at before
      cases before
    rw [update_of_ne notSelf] at before other
    have other : c' ≠ c := other.resolve_right (by simp [table.none p])
    rcases h.sleeping p c' before with now | ⟨r, pending⟩
    · exact .inl now
    · refine .inr ⟨r, ?_⟩
      simp only [Pc.pending_wake]
      by_cases same : r = q
      · rw [same, here] at pending
        rw [same, update_self]
        exact (List.mem_cons.mp pending).resolve_left other
      · rw [update_of_ne same]
        exact pending
  | @release q l here => exact h.move q (.out l) nofun nofun (by rw [here]; nofun)
  | @sleepAcquire q c l here clear =>
    have before := h.going q
    rw [here] at before
    exact h.move q (.parting c l) before nofun (by rw [here]; nofun)
  | @sleepRelease q c l here =>
    have before := h.going q
    rw [here] at before
    exact h.move q (.dozing c l) nofun (fun c' here => .inl (before c' here))
      (by rw [here]; nofun)
  | @sleepSwitch q c l here =>
    exact h.move q (.asleep c l) nofun (fun c' asleep => .inr (by rw [here]; exact asleep))
      (by rw [here]; nofun)
  | @resume q l here clear => exact h.move q (.out l) nofun nofun (by rw [here]; nofun)
  | @kill q clear =>
    refine h.move q (s.pc q).rouse ?_ (fun c asleep => .inr (Pc.sleeping_rouse asleep)) ?_
    · intro c going
      exact h.going q c (by rwa [Pc.going_rouse] at going)
    · intro c pending
      rwa [Pc.pending_rouse]

/-- After a run in which every stretch signals, nobody sleeps without reason. -/
theorem run_attended {d : D} {l : L} {es : List (MEvent P A)}
    (signals : Along m.step (m.Signals need) (MState.init d l) es)
    (done : run m.step (MState.init d l) es = some s) : Exclusive s ∧ Attended need s :=
  run_invariant_along m.step (I := fun s => Exclusive s ∧ Attended need s)
    (fun _ _ _ h ok stepped =>
      ⟨step_exclusive h.1 stepped, step_attended h.1 h.2 ok stepped⟩)
    ⟨init_exclusive d l, init_attended d l⟩ signals done

end Monitor

end Model

end BasicOS.Lib
