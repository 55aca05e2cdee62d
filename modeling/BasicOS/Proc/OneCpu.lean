/-
# BasicOS.Proc.OneCpu — a process runs on one processor

A process that gives up the processor changes its state first and leaves its kernel
stack later, and another processor may look at the table in between; only
`ptable.lock` keeps it from doing harm.  `Placed` says where each processor is and in
which state its process is then, `Stacked` which entries have kernel stacks.  With the
lock free nobody is between the two: a process is RUNNING exactly when it is `c->proc`
of one processor (`one_cpu`), and a kernel stack is freed only when no processor is on
it.
-/
import BasicOS.Proc.Cpus
import BasicOS.Proc.Effect
import BasicOS.Lib.LockWord

namespace BasicOS.Ptable

open Lib Function

set_option autoImplicit false
set_option linter.unusedSectionVars false

/-! ## States -/

/-- The process is off the processors, for a time or for good. -/
def ProcState.out : ProcState → Bool
  | .sleeping | .runnable | .zombie => true
  | _ => false

/-- The process has run, or can. -/
def ProcState.started : ProcState → Bool
  | .unused | .embryo => false
  | _ => true

section Tables

variable {t t' t'' : Table} {p q s : Slot}

theorem state_set_self (t : Table) (p : Slot) (x : Proc) :
    ((t.set p x).proc p).state = x.state := by
  simp only [Table.set, update_self]

theorem state_set_of_ne (t : Table) (x : Proc) (other : q ≠ p) :
    ((t.set p x).proc q).state = (t.proc q).state := by
  simp only [Table.set, update_of_ne other]

/-- The states stay, but sleepers may be woken. -/
def Wakes (t t' : Table) : Prop :=
  ∀ q, (t'.proc q).state = (t.proc q).state ∨
    (t.proc q).state = .sleeping ∧ (t'.proc q).state = .runnable

theorem Wakes.of_eq (same : ∀ q, (t'.proc q).state = (t.proc q).state) : Wakes t t' :=
  fun q => .inl (same q)

theorem Wakes.trans (first : Wakes t t') (next : Wakes t' t'') : Wakes t t'' := by
  intro q
  rcases first q with same | ⟨asleep, woken⟩ <;> rcases next q with same' | ⟨asleep', woken'⟩
  · exact .inl (same'.trans same)
  · exact .inr ⟨same.symm.trans asleep', woken'⟩
  · exact .inr ⟨asleep, same'.trans woken⟩
  · rw [woken] at asleep'
    cases asleep'

theorem wakeup1_wakes (chan : Option Chan) (t : Table) : Wakes t (wakeup1 chan t) := by
  intro q
  simp only [wakeup1, Proc.wake]
  split
  · rename_i asleep
    exact .inr ⟨asleep.1, rfl⟩
  · exact .inl rfl

theorem kill_wakes (t : Table) (pid : Nat) : Wakes t (kill t pid).1 := by
  intro q
  rw [kill]
  cases target t pid with
  | none => exact .inl rfl
  | some s =>
    by_cases here : q = s
    · subst here
      by_cases asleep : (t.proc q).state = .sleeping
      · exact .inr ⟨asleep, by simp [Table.set, asleep]⟩
      · exact .inl (by simp [Table.set, asleep])
    · exact .inl (by simp [Table.set, update_of_ne here])

theorem reparent_wakes (t : Table) (p : Slot) : Wakes t (reparent t p) := by
  refine .of_eq fun q => ?_
  simp only [reparent]
  split <;> rfl

/-- `exit` wakes others and ends the process itself. -/
theorem leave_state (done : leave t p = some t') :
    (t'.proc p).state = .zombie ∧
      ∀ q, q ≠ p → (t'.proc q).state = (t.proc q).state ∨
        (t.proc q).state = .sleeping ∧ (t'.proc q).state = .runnable := by
  rw [leave] at done
  split at done
  · cases done
  · have wakes : ∀ (orphans : Bool) (t₁ : Table), Wakes t t₁ →
        Wakes t (if orphans then wakeup1 (some (.proc t₁.initproc)) t₁ else t₁) := by
      intro orphans t₁ before
      split
      · exact before.trans (wakeup1_wakes _ _)
      · exact before
    have before := wakes
      ((List.finRange nproc).any fun s =>
        (t.proc s).parent = some p ∧ (t.proc s).state = .zombie) _
      ((wakeup1_wakes ((t.proc p).parent.map .proc) t).trans (reparent_wakes _ p))
    cases done
    refine ⟨by simp [Table.set], fun q other => ?_⟩
    simpa only [Table.set, update_of_ne other] using before q

theorem firstUnused_state (first : firstUnused t = some p) : (t.proc p).state = .unused := by
  simpa using List.find?_some first

/-- A scan that finds an exited child frees its entry. -/
theorem scan_found {thread : Bool} (h : found thread t p = some s) :
    ((scan thread t p).1.proc s).state = .unused ∧
      ∀ q, q ≠ s → ((scan thread t p).1.proc q).state = (t.proc q).state := by
  simp only [scan, h]
  split <;> exact ⟨state_set_self _ _ _, fun q other => state_set_of_ne _ _ other⟩

/-- A scan that finds none returns, or leaves the caller asleep. -/
theorem scan_none {thread : Bool} (h : found thread t p = none) :
    scan thread t p = (t, some (-1)) ∨
      scan thread t p =
        (t.set p { t.proc p with chan := some (.proc p), state := .sleeping }, none) := by
  simp only [scan, h]
  split
  · exact .inl rfl
  · exact .inr rfl

end Tables

/-! ## Where the processors are -/

section Places

variable {C : Type} {locked locked' : Bool} {proc proc' : C → Option Slot} {pos : C → Where}
  {state state' : Slot → ProcState}

structure Placed (locked : Bool) (proc : C → Option Slot) (pos : C → Where)
    (state : Slot → ProcState) : Prop where
  lock : Guarded locked fun c => (pos c).holds
  proc : ∀ c, proc c = (pos c).cur
  one : ∀ c c' p, (pos c).cur = some p → (pos c').cur = some p → c = c'
  active : ∀ c p, (pos c).cur = some p → (pos c).parked = false → state p = .running
  parked : ∀ c p, (pos c).cur = some p → (pos c).parked = true → (state p).out = true
  running : ∀ p, state p = .running → ∃ c, (pos c).cur = some p ∧ (pos c).parked = false

theorem Where.holds_of_parked {w : Where} (parked : w.parked = true) : w.holds = true := by
  cases w <;> first | rfl | cases parked

theorem Where.cur_of_stack {w : Where} {p : Slot} (on_stack : w.stack = some p) :
    w.cur = some p := by
  cases w <;> first | exact on_stack | cases on_stack

/-- A processor that has the lock is the only one. -/
theorem Placed.alone (h : Placed locked proc pos state) {c : C} (has : (pos c).holds = true)
    (c' : C) (other : c' ≠ c) : (pos c').holds = false := by
  by_contra held
  exact other (h.lock.one c' c (by simpa using held) has)

/-- With the lock free, the process of a processor is RUNNING. -/
theorem Placed.run (h : Placed locked proc pos state) {c : C} {p : Slot}
    (free : (pos c).holds = false) (cur : (pos c).cur = some p) : state p = .running := by
  refine h.active c p cur ?_
  by_contra parked
  rw [Where.holds_of_parked (by simpa using parked)] at free
  cases free

/-- Entries that no processor is at change outside the lock. -/
theorem Placed.aside (h : Placed locked proc pos state)
    (same : ∀ p, state' p = .running ↔ state p = .running)
    (out : ∀ p, (state p).out = true → (state' p).out = true) :
    Placed locked proc pos state' :=
  ⟨h.lock, h.proc, h.one, fun c p cur runs => (same p).mpr (h.active c p cur runs),
    fun c p cur waits => out p (h.parked c p cur waits), fun p runs => h.running p ((same p).mp runs)⟩

variable [DecidableEq C] {c : C} {w : Where}

/-- The processor `c` moves while no other has the lock. -/
theorem Placed.move (h : Placed locked proc pos state)
    (alone : ∀ c', c' ≠ c → (pos c').holds = false)
    (lock : Guarded locked' fun c' => (update pos c w c').holds)
    (proc_eq : proc' = update proc c w.cur)
    (fresh : ∀ p, w.cur = some p → (pos c).cur = some p ∨ state p ≠ .running)
    (active : ∀ p, w.cur = some p → w.parked = false → state' p = .running)
    (parked : ∀ p, w.cur = some p → w.parked = true → (state' p).out = true)
    (gone : ∀ p, (pos c).cur = some p → w.cur ≠ some p → state' p ≠ .running)
    (others : ∀ p, (pos c).cur ≠ some p → w.cur ≠ some p →
      (state' p = .running ↔ state p = .running)) :
    Placed locked' proc' (update pos c w) state' := by
  -- what another processor is at, it is still at
  have apart : ∀ c' p, c' ≠ c → (pos c').cur = some p → (pos c).cur ≠ some p ∧ w.cur ≠ some p := by
    intro c' p other cur
    refine ⟨fun cur' => other (h.one c' c p cur cur'), fun cur' => ?_⟩
    rcases fresh p cur' with before | idle
    · exact other (h.one c' c p cur before)
    · exact idle (h.run (alone c' other) cur)
  refine ⟨lock, ?_, ?_, ?_, ?_, ?_⟩
  · intro c'
    by_cases here : c' = c
    · rw [proc_eq, here, update_self, update_self]
    · rw [proc_eq, update_of_ne here, update_of_ne here, h.proc]
  · intro c₁ c₂ p cur₁ cur₂
    by_cases here₁ : c₁ = c <;> by_cases here₂ : c₂ = c
    · rw [here₁, here₂]
    · rw [here₁, update_self] at cur₁
      rw [update_of_ne here₂] at cur₂
      exact absurd cur₁ (apart c₂ p here₂ cur₂).2
    · rw [here₂, update_self] at cur₂
      rw [update_of_ne here₁] at cur₁
      exact absurd cur₂ (apart c₁ p here₁ cur₁).2
    · rw [update_of_ne here₁] at cur₁
      rw [update_of_ne here₂] at cur₂
      exact h.one c₁ c₂ p cur₁ cur₂
  · intro c' p cur runs
    by_cases here : c' = c
    · rw [here, update_self] at cur runs
      exact active p cur runs
    · rw [update_of_ne here] at cur runs
      obtain ⟨before, after⟩ := apart c' p here cur
      exact (others p before after).mpr (h.active c' p cur runs)
  · intro c' p cur waits
    by_cases here : c' = c
    · rw [here, update_self] at cur waits
      exact parked p cur waits
    · rw [update_of_ne here] at waits
      have held := Where.holds_of_parked waits
      rw [alone c' here] at held
      cases held
  · intro p runs
    by_cases after : w.cur = some p
    · refine ⟨c, by rw [update_self]; exact after, ?_⟩
      rw [update_self]
      by_contra waits
      have out := parked p after (by simpa using waits)
      rw [runs] at out
      cases out
    · have before : (pos c).cur ≠ some p := fun before => gone p before after runs
      obtain ⟨c', cur, active'⟩ := h.running p ((others p before after).mp runs)
      have other : c' ≠ c := by
        rintro rfl
        exact before cur
      exact ⟨c', by rw [update_of_ne other]; exact cur, by rw [update_of_ne other]; exact active'⟩

/-- The processor stays with its process, which runs on. -/
theorem Placed.stay (h : Placed locked proc pos state)
    (alone : ∀ c', c' ≠ c → (pos c').holds = false)
    (lock : Guarded locked' fun c' => (update pos c w c').holds)
    (cur : w.cur = (pos c).cur) (parked : w.parked = false) (parked' : (pos c).parked = false)
    (same : ∀ p, state' p = .running ↔ state p = .running) :
    Placed locked' proc (update pos c w) state' := by
  refine h.move alone lock ?_ ?_ ?_ ?_ ?_ fun p _ _ => same p
  · rw [cur, ← h.proc, update_eq_self]
  · exact fun p now => .inl (cur ▸ now)
  · exact fun p now _ => (same p).mpr (h.active c p (cur ▸ now) parked')
  · intro p _ waits
    rw [parked] at waits
    cases waits
  · exact fun p before after => absurd (cur.trans before) after

/-- The process of the processor leaves the running state. -/
theorem Placed.park (h : Placed locked proc pos state) {p : Slot} (has : (pos c).holds = true)
    (cur : (pos c).cur = some p) (out : (state' p).out = true)
    (others : ∀ q, q ≠ p → (state' q = .running ↔ state q = .running)) :
    Placed locked proc (update pos c (.swtch p)) state' := by
  refine h.move (h.alone has) (h.lock.stays (by rw [has]; rfl)) ?_ ?_ nofun ?_ ?_ ?_
  · rw [show (Where.swtch p).cur = (pos c).cur from cur.symm, ← h.proc, update_eq_self]
  · rintro q now
    exact .inl (cur.trans now)
  · rintro q now -
    cases now
    exact out
  · exact fun q before after => absurd (cur.symm.trans before) after
  · exact fun q before _ => others q fun same => before (same ▸ cur)

end Places

theorem Wakes.running {t t' : Table} (wakes : Wakes t t') (p : Slot) :
    (t'.proc p).state = .running ↔ (t.proc p).state = .running := by
  rcases wakes p with same | ⟨asleep, woken⟩
  · rw [same]
  · simp [asleep, woken]

/-! ## Which entries have kernel stacks -/

section Stacks

variable {state state' : Slot → ProcState} {kstack kstack' : Slot → Bool}
  {making : Slot → Making} {p np : Slot}

structure Stacked (state : Slot → ProcState) (kstack : Slot → Bool) (making : Slot → Making) :
    Prop where
  stack : ∀ p, (state p).started = true → kstack p = true
  embryo : ∀ p np, (making p).slot = some np → state np = .embryo
  ready : ∀ p np, (making p).slot = some np → (making p).hasStack = true → kstack np = true
  one : ∀ p q np, (making p).slot = some np → (making q).slot = some np → p = q

/-- No entry is started or taken from its maker. -/
def Keeps (a b : ProcState) : Prop :=
  (b.started = true → a.started = true) ∧ (a = .embryo → b = .embryo)

theorem Keeps.of_eq {a b : ProcState} (same : b = a) : Keeps a b := by
  rw [same]
  exact ⟨id, id⟩

theorem Keeps.of_started {a b : ProcState} (started : a.started = true) : Keeps a b := by
  refine ⟨fun _ => started, ?_⟩
  rintro rfl
  cases started

theorem Keeps.of_wakes {t t' : Table} (wakes : Wakes t t') (q : Slot) :
    Keeps (t.proc q).state (t'.proc q).state := by
  rcases wakes q with same | ⟨asleep, -⟩
  · exact .of_eq same
  · exact .of_started (by rw [asleep]; rfl)

/-- Stacks are only taken from entries that are exited. -/
theorem Stacked.keep (h : Stacked state kstack making) (keeps : ∀ q, Keeps (state q) (state' q))
    (kstacks : ∀ q, kstack' q = kstack q ∨ (state' q).started = false ∧ state q ≠ .embryo) :
    Stacked state' kstack' making := by
  refine ⟨fun q started => ?_, fun q np made => (keeps np).2 (h.embryo q np made), ?_, h.one⟩
  · rcases kstacks q with same | ⟨idle, -⟩
    · rw [same]
      exact h.stack q ((keeps q).1 started)
    · rw [idle] at started
      cases started
  · intro q np made ready
    rcases kstacks np with same | ⟨-, other⟩
    · rw [same]
      exact h.ready q np made ready
    · exact absurd (h.embryo q np made) other

theorem Stacked.same (h : Stacked state kstack making)
    (keeps : ∀ q, Keeps (state q) (state' q)) : Stacked state' kstack making :=
  h.keep keeps fun _ => .inl rfl

/-- The process `p` goes on with making `np`; the other processes make other entries. -/
theorem Stacked.make (h : Stacked state kstack making) {now : Making}
    (states : ∀ q, q ≠ np → state' q = state q) (kstacks : ∀ q, q ≠ np → kstack' q = kstack q)
    (others : ∀ q, q ≠ p → (making q).slot ≠ some np)
    (same : now.slot = some np ∨ now.slot = none)
    (stack : (state' np).started = true → kstack' np = true)
    (embryo : now.slot = some np → state' np = .embryo)
    (ready : now.hasStack = true → kstack' np = true) :
    Stacked state' kstack' (update making p now) := by
  -- what another process makes is not `np`
  have apart : ∀ q x, q ≠ p → (making q).slot = some x → x ≠ np := by
    rintro q x other made rfl
    exact others q other made
  have own : ∀ x, now.slot = some x → x = np := by
    intro x made
    rcases same with at_np | none_made
    · exact Option.some.inj (made.symm.trans at_np)
    · rw [none_made] at made
      cases made
  refine ⟨fun q started => ?_, fun q x made => ?_, fun q x made hasStack => ?_,
    fun q r x madeq mader => ?_⟩
  · by_cases at_np : q = np
    · subst at_np
      exact stack started
    · rw [states q at_np] at started
      rw [kstacks q at_np]
      exact h.stack q started
  · by_cases at_p : q = p
    · rw [at_p, update_self] at made
      obtain rfl := own x made
      exact embryo made
    · rw [update_of_ne at_p] at made
      rw [states x (apart q x at_p made)]
      exact h.embryo q x made
  · by_cases at_p : q = p
    · rw [at_p, update_self] at made hasStack
      rw [own x made]
      exact ready hasStack
    · rw [update_of_ne at_p] at made hasStack
      rw [kstacks x (apart q x at_p made)]
      exact h.ready q x made hasStack
  · by_cases at_p : q = p <;> by_cases at_p' : r = p
    · rw [at_p, at_p']
    · rw [at_p, update_self] at madeq
      rw [update_of_ne at_p'] at mader
      exact absurd (own x madeq) (apart r x at_p' mader)
    · rw [at_p', update_self] at mader
      rw [update_of_ne at_p] at madeq
      exact absurd (own x mader) (apart q x at_p madeq)
    · rw [update_of_ne at_p] at madeq
      rw [update_of_ne at_p'] at mader
      exact h.one q r x madeq mader

end Stacks

section Machines

variable {C : Type} {m m' : Machine C} {c : C} {p np : Slot}

namespace Machine

abbrev Placed (m : Machine C) : Prop :=
  Ptable.Placed m.locked m.proc m.pos m.state

abbrev Stacked (m : Machine C) : Prop :=
  Ptable.Stacked m.state m.kstack m.making

theorem boot_placed : (boot : Machine C).Placed := by
  refine ⟨guarded_init, fun _ => rfl, nofun, nofun, nofun, fun p runs => ?_⟩
  simp only [state, boot, userinit] at runs
  by_cases first : p = 0
  · simp [first] at runs
  · simp [update_of_ne first, Proc.blank] at runs

theorem boot_stacked : (boot : Machine C).Stacked := by
  refine ⟨fun p started => ?_, nofun, nofun, nofun⟩
  simp only [boot, decide_eq_true_eq]
  by_contra other
  simp [state, boot, userinit, update_of_ne (show p ≠ 0 from other), Proc.blank,
    ProcState.started] at started

/-- `fork` changes an entry that is not RUNNING before or after. -/
theorem aside_placed (h : m.Placed) {t : Table} (embryo : m.state np = .embryo)
    (now : (t.proc np).state ≠ .running)
    (others : ∀ q, q ≠ np → (t.proc q).state = m.state q) :
    Ptable.Placed m.locked m.proc m.pos fun q => (t.proc q).state := by
  refine h.aside (fun q => ?_) fun q out => ?_
  · by_cases at_np : q = np
    · rw [at_np, embryo]
      exact iff_of_false now (by decide)
    · exact iff_of_eq (congrArg (· = ProcState.running) (others q at_np))
  · by_cases at_np : q = np
    · rw [at_np, embryo] at out
      cases out
    · exact (congrArg ProcState.out (others q at_np)).trans out

/-- Only `p` makes the entry it makes. -/
theorem Stacked.sole (h : m.Stacked) (own : (m.making p).slot = some np) (q : Slot)
    (other : q ≠ p) : (m.making q).slot ≠ some np :=
  fun made => other (h.one q p np made own)

theorem keeps_set {x : Proc} (started : (m.state p).started = true) (q : Slot) :
    Keeps (m.state q) ((m.table.set p x).proc q).state := by
  by_cases at_p : q = p
  · rw [at_p]
    exact .of_started started
  · exact .of_eq (state_set_of_ne _ _ at_p)

variable [DecidableEq C]

/-! ## What a processor with the lock can do -/

inductive Goes (m : Machine C) (c : C) : Machine C → Prop where
  /-- It stays with its process, or without one; sleepers may be woken. -/
  | stay {w : Where} {t : Table} {locked : Bool} (cur : w.cur = (m.pos c).cur)
      (active : w.parked = false) (active' : (m.pos c).parked = false)
      (lock : locked = m.locked ∧ w.holds = true ∨ locked = false ∧ w.holds = false)
      (wakes : Wakes m.table t) : Goes m c { m with pos := update m.pos c w, table := t, locked }
  /-- The scheduler has found a process. -/
  | choose {p : Slot} (ready : m.state p = .runnable) (cur : (m.pos c).cur = none) :
      Goes m c { m with
        pos := update m.pos c (.entering p)
        proc := update m.proc c (some p)
        table := m.table.set p { m.table.proc p with state := .running } }
  | leave {p : Slot} (here : m.pos c = .leaving p) :
      Goes m c { m with pos := update m.pos c (.scan (p + 1)), proc := update m.proc c none }
  | swtch {p : Slot} (here : m.pos c = .swtch p) :
      Goes m c { m with pos := update m.pos c (.leaving p) }
  /-- A process changes its state and goes on to `sched`. -/
  | park {p : Slot} {todo : Crit} {t : Table} {context : Slot → Context}
      (here : m.pos c = .crit p todo) (out : (t.proc p).state.out = true)
      (others : ∀ q, q ≠ p → (t.proc q).state = m.state q ∨
        m.state q = .sleeping ∧ (t.proc q).state = .runnable) :
      Goes m c { m with pos := update m.pos c (.swtch p), table := t, context }
  | alloc {p np : Slot} {todo : Crit} (here : m.pos c = .crit p todo)
      (unused : m.state np = .unused) :
      Goes m c { m with
        pos := update m.pos c (.unlock p)
        table := m.table.embryo np
        making := update m.making p (.embryo np) }
  | publish {p np : Slot} {todo : Crit} (here : m.pos c = .crit p todo)
      (making : m.making p = .filled np) :
      Goes m c { m with
        pos := update m.pos c (.unlock p)
        table := m.table.set np { m.table.proc np with state := .runnable }
        making := update m.making p .no }
  /-- A scan has found an exited child. -/
  | free {p s : Slot} {thread : Bool} {t : Table} (here : m.pos c = .crit p (.scan thread))
      (search : found thread m.table p = some s) (freed : (t.proc s).state = .unused)
      (others : ∀ q, q ≠ s → (t.proc q).state = m.state q) :
      Goes m c { m with
        pos := update m.pos c (.unlock p), table := t, kstack := update m.kstack s false }

theorem goes_of_perform {todo : Crit} (here : m.pos c = .crit p todo)
    (done : m.perform c p todo = some m') : Goes m c m' := by
  have unlocks : ∀ {t : Table}, Wakes m.table t →
      Goes m c { m.goto c (.unlock p) with table := t } := fun wakes =>
    .stay (by rw [here]; rfl) rfl (by rw [here]; rfl) (.inl ⟨rfl, rfl⟩) wakes
  cases todo with
  | yield | sleep chan =>
    cases done
    exact .park here (by rw [state_set_self]; rfl) fun q other =>
      .inl (state_set_of_ne _ _ other)
  | wakeup chan =>
    cases done
    exact unlocks (wakeup1_wakes _ _)
  | kill pid =>
    cases done
    exact unlocks (kill_wakes _ _)
  | allocproc =>
    simp only [perform] at done
    cases first : firstUnused m.table with
    | none =>
      simp only [first] at done
      cases done
      exact unlocks (.of_eq fun _ => rfl)
    | some np =>
      simp only [first] at done
      cases done
      exact .alloc here (firstUnused_state first)
  | publish =>
    simp only [perform] at done
    split at done
    · rename_i np making
      cases done
      exact .publish here making
    · cases done
  | exit =>
    obtain ⟨t, left, rfl⟩ := Option.map_eq_some_iff.mp done
    obtain ⟨zombie, wakes⟩ := leave_state left
    exact .park here (by rw [zombie]; rfl) wakes
  | scan thread =>
    simp only [perform] at done
    cases search : found thread m.table p with
    | some s =>
      simp only [search] at done
      cases done
      obtain ⟨freed, others⟩ := scan_found search
      exact .free here search freed others
    | none =>
      simp only [search] at done
      rcases scan_none search with returns | sleeps
      · rw [returns] at done
        cases done
        exact unlocks (.of_eq fun _ => rfl)
      · rw [sleeps] at done
        cases done
        exact .park here (by rw [state_set_self]; rfl) fun q other =>
          .inl (state_set_of_ne _ _ other)

theorem goes_of_go (went : m.go c = some m') : (m.pos c).holds = true ∧ Goes m c m' := by
  rw [go] at went
  cases here : m.pos c with
  | idle | run p =>
    simp only [here] at went
    cases went
  | scan k =>
    simp only [here] at went
    cases went
    refine ⟨rfl, ?_⟩
    have cur : none = (m.pos c).cur := by rw [here]; rfl
    have active : (m.pos c).parked = false := by rw [here]; rfl
    rw [schedule]
    split
    · simp only
      split
      · exact .choose ‹_› cur.symm
      · exact .stay (w := .scan (k + 1)) cur rfl active (.inl ⟨rfl, rfl⟩) (.of_eq fun _ => rfl)
    · exact .stay (w := .idle) cur rfl active (.inr ⟨rfl, rfl⟩) (.of_eq fun _ => rfl)
  | entering p =>
    simp only [here] at went
    cases went
    refine ⟨rfl, ?_⟩
    have cur : some p = (m.pos c).cur := by rw [here]; rfl
    have active : (m.pos c).parked = false := by rw [here]; rfl
    have awake : Wakes m.table (m.table.set p { m.table.proc p with chan := none }) := by
      refine .of_eq fun q => ?_
      by_cases at_p : q = p
      · rw [at_p, state_set_self]
      · rw [state_set_of_ne _ _ at_p]
    rw [resume]
    cases m.context p with
    | release =>
      exact .stay (w := .unlock p) cur rfl active (.inl ⟨rfl, rfl⟩) (.of_eq fun _ => rfl)
    | awake => exact .stay (w := .unlock p) cur rfl active (.inl ⟨rfl, rfl⟩) awake
    | rescan thread => exact .stay (w := .crit p _) cur rfl active (.inl ⟨rfl, rfl⟩) awake
  | leaving p =>
    simp only [here] at went
    cases went
    exact ⟨rfl, .leave here⟩
  | handler chan =>
    simp only [here] at went
    cases went
    exact ⟨rfl, .stay (w := .handled) (by rw [here]; rfl) rfl (by rw [here]; rfl)
      (.inl ⟨rfl, rfl⟩) (wakeup1_wakes _ _)⟩
  | handled =>
    simp only [here] at went
    cases went
    exact ⟨rfl, .stay (w := .idle) (by rw [here]; rfl) rfl (by rw [here]; rfl) (.inr ⟨rfl, rfl⟩)
      (.of_eq fun _ => rfl)⟩
  | crit p todo =>
    simp only [here] at went
    exact ⟨rfl, goes_of_perform here went⟩
  | swtch p =>
    simp only [here] at went
    cases went
    exact ⟨rfl, .swtch here⟩
  | unlock p =>
    simp only [here] at went
    cases went
    exact ⟨rfl, .stay (w := .run p) (by rw [here]; rfl) rfl (by rw [here]; rfl) (.inr ⟨rfl, rfl⟩)
      (.of_eq fun _ => rfl)⟩

theorem go_placed (h : m.Placed) (stacked : m.Stacked) (went : m.go c = some m') :
    m'.Placed := by
  obtain ⟨has, goes⟩ := goes_of_go went
  have alone := h.alone has
  have holds : ∀ {w : Where}, w.holds = true →
      Guarded m.locked fun c' => (update m.pos c w c').holds :=
    fun held => h.lock.stays (by rw [held, has])
  -- a process under the lock goes on to `release` after it has changed no RUNNING state
  have unlocks : ∀ {p : Slot} {todo : Crit} {t : Table}, m.pos c = .crit p todo →
      (∀ q, (t.proc q).state = .running ↔ m.state q = .running) →
      Ptable.Placed m.locked m.proc (update m.pos c (.unlock p)) fun q => (t.proc q).state :=
    fun here same => h.stay alone (holds rfl) (by rw [here]; rfl) rfl (by rw [here]; rfl) same
  -- a change of an entry that is RUNNING neither before nor after
  have beside : ∀ (np : Slot) (x : Proc), m.state np ≠ .running → x.state ≠ .running → ∀ q,
      (((m.table.set np x).proc q).state = .running ↔ m.state q = .running) := by
    intro np x before after q
    by_cases at_np : q = np
    · subst at_np
      rw [state_set_self]
      exact iff_of_false after before
    · rw [state_set_of_ne _ _ at_np, state]
  cases goes with
  | stay cur active active' lock wakes =>
    rcases lock with ⟨rfl, held⟩ | ⟨rfl, released⟩
    · exact h.stay alone (holds held) cur active active' wakes.running
    · exact h.stay alone (h.lock.gives has released) cur active active' wakes.running
  | @choose p ready none_yet =>
    refine h.move alone (holds rfl) rfl ?_ ?_ nofun ?_ ?_
    · rintro q now
      cases now
      exact .inr (by rw [ready]; decide)
    · rintro q now -
      cases now
      exact state_set_self _ _ _
    · intro q before
      rw [none_yet] at before
      cases before
    · intro q _ after
      have other : q ≠ p := fun same => after (by rw [same]; rfl)
      simp only [state, state_set_of_ne _ _ other]
  | leave here =>
    refine h.move alone (holds rfl) rfl nofun nofun nofun ?_ fun _ _ _ => Iff.rfl
    intro q before _ runs
    have out := h.parked c q before (by rw [here]; rfl)
    rw [show m.state q = .running from runs] at out
    cases out
  | @swtch p here =>
    have at_p : (m.pos c).cur = some p := by rw [here]; rfl
    refine h.move alone (holds rfl) ?_ ?_ nofun ?_ ?_ fun _ _ _ => Iff.rfl
    · rw [show (Where.leaving p).cur = (m.pos c).cur from at_p.symm, ← h.proc, update_eq_self]
    · exact fun q now => .inl (at_p.trans now)
    · exact fun q now _ => h.parked c q (at_p.trans now) (by rw [here]; rfl)
    · exact fun q before after => absurd (at_p.symm.trans before) after
  | park here out others =>
    refine h.park has (by rw [here]; rfl) out fun q other => ?_
    rcases others q other with same | ⟨asleep, woken⟩
    · rw [state, same]
    · rw [state, woken, asleep]
      decide
  | alloc here unused => exact unlocks here (beside _ _ (by rw [unused]; decide) (by nofun))
  | publish here making =>
    have embryo := stacked.embryo _ _ (by rw [making]; rfl)
    exact unlocks here (beside _ _ (by rw [embryo]; decide) (by nofun))
  | @free p s thread t here search freed others =>
    refine unlocks here fun q => ?_
    by_cases at_s : q = s
    · subst at_s
      rw [freed, state, (found_spec search).1]
      decide
    · rw [others q at_s]

theorem go_stacked (h : m.Placed) (stacked : m.Stacked) (went : m.go c = some m') :
    m'.Stacked := by
  cases (goes_of_go went).2 with
  | stay cur active active' lock wakes => exact stacked.same (Keeps.of_wakes wakes)
  | choose ready => exact stacked.same (keeps_set (by rw [ready]; rfl))
  | leave | swtch => exact stacked
  | @park p todo t context here out others =>
    have started : (m.state p).started = true := by
      rw [h.active c p (by rw [here]; rfl) (by rw [here]; rfl)]
      rfl
    refine stacked.same fun q => ?_
    by_cases at_p : q = p
    · rw [at_p]
      exact .of_started started
    · rcases others q at_p with still | ⟨asleep, -⟩
      · exact .of_eq still
      · exact .of_started (by rw [asleep]; rfl)
  | @alloc p np todo here unused =>
    have embryo : ((m.table.embryo np).proc np).state = .embryo := state_set_self _ _ _
    refine stacked.make (fun q other => state_set_of_ne _ _ other) (fun _ _ => rfl) ?_
      (.inl rfl) (fun started => ?_) (fun _ => embryo) nofun
    · intro q _ made
      have embryo := stacked.embryo q np made
      rw [unused] at embryo
      cases embryo
    · replace started : ((m.table.embryo np).proc np).state.started = true := started
      rw [embryo] at started
      cases started
  | @publish p np todo here making =>
    have own : (m.making p).slot = some np := by rw [making]; rfl
    exact stacked.make (fun q other => state_set_of_ne _ _ other) (fun _ _ => rfl)
      (stacked.sole own) (.inr rfl) (fun _ => stacked.ready p np own (by rw [making]; rfl)) nofun
      nofun
  | @free p s thread t here search freed others =>
    have zombie : m.state s = .zombie := (found_spec search).1
    refine stacked.keep (fun q => ?_) fun q => ?_
    · by_cases at_s : q = s
      · rw [at_s]
        exact .of_started (by rw [zombie]; rfl)
      · exact .of_eq (others q at_s)
    · by_cases at_s : q = s
      · subst at_s
        exact .inr ⟨by rw [state, freed]; rfl, by rw [zombie]; decide⟩
      · exact .inl (update_of_ne at_s _ _)

/-! ## Every step -/

structure Inv (m : Machine C) : Prop where
  placed : m.Placed
  stacked : m.Stacked

/-- A new entry is given up, with or without a stack. -/
theorem abandon_inv (h : m.Inv) (own : (m.making p).slot = some np) (t : Table)
    (same : ∀ q, (t.proc q).state = (m.table.proc q).state) (kstack : Slot → Bool)
    (stack : ∀ q, q ≠ np → kstack q = m.kstack q) :
    Inv { ({ m with table := t } : Machine C).abandon p np with kstack := kstack } := by
  have embryo := h.stacked.embryo p np own
  have idle : ((t.set np { t.proc np with state := .unused }).proc np).state = .unused :=
    state_set_self _ _ _
  have others : ∀ q, q ≠ np →
      ((t.set np { t.proc np with state := .unused }).proc q).state = m.state q :=
    fun q other => (state_set_of_ne _ _ other).trans (same q)
  refine ⟨?_, ?_⟩
  · refine aside_placed h.placed embryo (fun runs => ?_) others
    cases idle.symm.trans runs
  · refine h.stacked.make others stack (h.stacked.sole own) (.inr rfl) (fun started => ?_)
      nofun nofun
    cases (congrArg ProcState.started idle).symm.trans started

theorem kalloc_inv (h : m.Inv) {ok : Bool} (done : m.kalloc p ok = some m') : m'.Inv := by
  simp only [kalloc] at done
  split at done
  · rename_i np making
    cases done
    have own : (m.making p).slot = some np := by rw [making]; rfl
    have has : update m.kstack np true np = true := update_self ..
    refine ⟨h.placed, h.stacked.make (fun _ _ => rfl) (fun q other => update_of_ne other _ _)
      (h.stacked.sole own) (.inl rfl) (fun _ => has) (fun _ => h.stacked.embryo p np own)
      fun _ => has⟩
  · rename_i np making
    cases done
    exact abandon_inv h (by rw [making]; rfl) m.table (fun _ => rfl) m.kstack fun _ _ => rfl
  · cases done

/-- The new entry is filled in. -/
theorem fill_inv (h : m.Inv) (making : m.making p = .stacked np) {t : Table}
    (same : ∀ q, (t.proc q).state = m.state q) :
    Inv { m with table := t, making := update m.making p (.filled np) } := by
  have own : (m.making p).slot = some np := by rw [making]; rfl
  have embryo := h.stacked.embryo p np own
  have ready := h.stacked.ready p np own (by rw [making]; rfl)
  refine ⟨?_, ?_⟩
  · refine aside_placed h.placed embryo ?_ fun q _ => same q
    rw [same np, embryo]
    decide
  · exact h.stacked.make (fun q _ => same q) (fun _ _ => rfl) (h.stacked.sole own) (.inl rfl)
      (fun _ => ready) (fun _ => (same np).trans embryo) fun _ => ready

theorem copyuvm_inv (h : m.Inv) {copy : Copy} (done : m.copyuvm p copy = some m') : m'.Inv := by
  simp only [copyuvm] at done
  split at done
  · rename_i np making
    cases done
    exact abandon_inv h (by rw [making]; rfl) m.table (fun _ => rfl)
      (update m.kstack np false) fun q other => update_of_ne other _ _
  · rename_i np making
    cases done
    exact abandon_inv h (by rw [making]; rfl)
      (m.table.newPgdir.freevm (some m.table.nextPgdir)) (fun _ => rfl)
      (update m.kstack np false) fun q other => update_of_ne other _ _
  · rename_i np making
    cases done
    refine fill_inv h making fun q => ?_
    by_cases at_np : q = np
    · rw [at_np, state_set_self, state]
    · exact state_set_of_ne _ _ at_np
  · cases done

theorem share_inv (h : m.Inv) (done : m.share p = some m') : m'.Inv := by
  simp only [share] at done
  split at done
  · rename_i np making
    cases done
    refine fill_inv h making fun q => ?_
    by_cases at_np : q = np
    · rw [at_np, state_set_self, state]
    · exact state_set_of_ne _ _ at_np
  · cases done

/-- The lock is taken, by the scheduler or by a process. -/
theorem acquire_inv (h : m.Inv) (clear : m.locked = false) {w : Where}
    (free : (m.pos c).holds = false) (gets : w.holds = true) (cur : w.cur = (m.pos c).cur)
    (active : w.parked = false) : Inv { m.goto c w with locked := true } := by
  have lock := h.placed.lock
  rw [clear] at lock
  have active' : (m.pos c).parked = false := by
    by_contra waits
    rw [Where.holds_of_parked (by simpa using waits)] at free
    cases free
  exact ⟨h.placed.stay (fun c' _ => lock.none c') (lock.takes gets) cur active active'
    fun _ => Iff.rfl, h.stacked⟩

theorem step_inv {e : Move C} (h : m.Inv) (stepped : m.step e = some m') : m'.Inv := by
  cases e with
  | acquire c | interrupt c chan =>
    simp only [step] at stepped
    split at stepped
    · rename_i here clear
      cases stepped
      exact acquire_inv h clear (by rw [here]; rfl) rfl (by rw [here]; rfl) rfl
    · cases stepped
  | enter c todo =>
    simp only [step] at stepped
    split at stepped
    · rename_i p here clear
      split at stepped
      · cases stepped
        exact acquire_inv h clear (by rw [here]; rfl) rfl (by rw [here]; rfl) rfl
      · cases stepped
    · cases stepped
  | go c => exact ⟨go_placed h.placed h.stacked stepped, go_stacked h.placed h.stacked stepped⟩
  | kalloc c ok =>
    simp only [step] at stepped
    split at stepped
    · exact kalloc_inv h stepped
    · cases stepped
  | copyuvm c copy =>
    simp only [step] at stepped
    split at stepped
    · exact copyuvm_inv h stepped
    · cases stepped
  | share c =>
    simp only [step] at stepped
    split at stepped
    · exact share_inv h stepped
    · cases stepped

/-! ## Stacks are freed with nobody on them -/

/-- A processor is on the stack of a process that runs or is about to leave. -/
theorem Placed.on_stack (h : m.Placed) (on_stack : (m.pos c).stack = some p) :
    m.state p = .running ∨ (m.pos c).holds = true ∧ (m.state p).out = true := by
  have cur := Where.cur_of_stack on_stack
  by_cases waits : (m.pos c).parked = true
  · exact .inr ⟨Where.holds_of_parked waits, h.parked c p cur waits⟩
  · exact .inl (h.active c p cur (by simpa using waits))

/-- Under the lock, only a scan frees a stack. -/
theorem go_kstack (went : m.go c = some m') :
    m'.kstack = m.kstack ∨ ∃ p thread s, m.pos c = .crit p (.scan thread) ∧
      found thread m.table p = some s ∧ m'.kstack = update m.kstack s false := by
  cases (goes_of_go went).2 with
  | free here search => exact .inr ⟨_, _, _, here, search, rfl⟩
  | _ => exact .inl rfl

/-- A stack is freed by `wait` and `thread_join`, which have the lock and have found the
entry exited, or by the `fork` that made it. -/
theorem freed_by {e : Move C} (h : m.Inv) (stepped : m.step e = some m')
    (had : m.kstack p = true) (gone : m'.kstack p = false) :
    (m.state p = .zombie ∧ ∃ c q thread, m.pos c = .crit q (.scan thread)) ∨
      m.state p = .embryo := by
  have kept : ∀ {m' : Machine C}, m'.kstack = m.kstack → m'.kstack p = false → False := by
    intro m' same gone
    rw [same, had] at gone
    cases gone
  have at_np : ∀ {np : Slot} {b : Bool}, update m.kstack np b p = false → p = np := by
    intro np b gone
    by_contra other
    rw [update_of_ne other, had] at gone
    cases gone
  cases e with
  | acquire c | interrupt c chan =>
    simp only [step] at stepped
    split at stepped <;> cases stepped
    exact absurd gone (kept rfl)
  | enter c todo =>
    simp only [step] at stepped
    split at stepped
    · split at stepped <;> cases stepped
      exact absurd gone (kept rfl)
    · cases stepped
  | kalloc c ok =>
    simp only [step, kalloc] at stepped
    split at stepped
    · split at stepped <;> cases stepped
      · rename_i np making
        rw [at_np gone] at gone
        simp at gone
      · exact absurd gone (kept rfl)
    · cases stepped
  | copyuvm c copy =>
    simp only [step, copyuvm] at stepped
    split at stepped
    · rename_i q here
      split at stepped <;> cases stepped
      · rename_i np making
        rw [at_np gone]
        exact .inr (h.stacked.embryo q np (by rw [making]; rfl))
      · rename_i np making
        rw [at_np gone]
        exact .inr (h.stacked.embryo q np (by rw [making]; rfl))
      · exact absurd gone (kept rfl)
    · cases stepped
  | share c =>
    simp only [step, share] at stepped
    split at stepped
    · split at stepped <;> cases stepped
      exact absurd gone (kept rfl)
    · cases stepped
  | go c =>
    rcases go_kstack stepped with same | ⟨q, thread, s, here, search, same⟩
    · exact absurd gone (kept same)
    · rw [same] at gone
      rw [at_np gone]
      exact .inl ⟨(found_spec search).1, c, q, thread, here⟩

end Machine

variable [DecidableEq C]

/-- **One processor each.**  From the boot on, with any number of processors and in any
order of their steps: whenever `ptable.lock` is free, a process is RUNNING exactly when
it is `c->proc` of one processor, and a process that is SLEEPING, RUNNABLE or ZOMBIE is
on none.  A kernel stack is freed only when no processor is on it, so that the stack
under a processor is always there. -/
theorem one_cpu (es : List (Move C)) (m : Machine C)
    (reached : run Machine.step Machine.boot es = some m) :
    (m.locked = false → ∀ p,
      (m.state p = .running ↔ ∃! c, m.proc c = some p) ∧
      (m.state p = .sleeping ∨ m.state p = .runnable ∨ m.state p = .zombie →
        ∀ c, m.proc c ≠ some p ∧ (m.pos c).stack ≠ some p)) ∧
    (∀ e m' p, m.step e = some m' → m.kstack p = true → m'.kstack p = false →
      ∀ c, (m.pos c).stack ≠ some p) ∧
    ∀ c p, (m.pos c).stack = some p → m.kstack p = true := by
  have h : m.Inv := run_invariant Machine.step (I := Machine.Inv)
    (fun _ _ _ h stepped => Machine.step_inv h stepped)
    ⟨Machine.boot_placed, Machine.boot_stacked⟩ reached
  refine ⟨fun clear p => ?_, fun e m' p stepped had gone c on_stack => ?_,
    fun c p on_stack => h.stacked.stack p ?_⟩
  · have lock := h.placed.lock
    rw [clear] at lock
    have runs : ∀ c, m.proc c = some p → m.state p = .running := by
      intro c cur
      exact h.placed.run (lock.none c) ((h.placed.proc c).symm.trans cur)
    refine ⟨⟨fun running => ?_, fun ⟨c, cur, _⟩ => runs c cur⟩, fun out c => ?_⟩
    · obtain ⟨c, cur, -⟩ := h.placed.running p running
      refine ⟨c, (h.placed.proc c).trans cur, fun c' cur' => ?_⟩
      exact h.placed.one c' c p ((h.placed.proc c').symm.trans cur') cur
    · have off : m.proc c ≠ some p := by
        intro cur
        rw [runs c cur] at out
        rcases out with out | out | out <;> cases out
      exact ⟨off, fun on_stack => off ((h.placed.proc c).trans (Where.cur_of_stack on_stack))⟩
  · rcases Machine.freed_by h stepped had gone with ⟨zombie, c₀, q, thread, here⟩ | embryo
    · rcases h.placed.on_stack on_stack with runs | ⟨holds, -⟩
      · rw [zombie] at runs
        cases runs
      · -- only the processor that scans has the lock, and its own process runs
        obtain rfl : c = c₀ := h.placed.lock.one c c₀ holds (by rw [here]; rfl)
        have cur := Where.cur_of_stack on_stack
        have runs := h.placed.active c p cur (by rw [here]; rfl)
        rw [zombie] at runs
        cases runs
    · rcases h.placed.on_stack on_stack with runs | ⟨-, out⟩
      · rw [embryo] at runs
        cases runs
      · rw [embryo] at out
        cases out
  · rcases h.placed.on_stack on_stack with runs | ⟨-, out⟩
    · rw [runs]
      rfl
    · cases state : m.state p <;> rw [state] at out <;> first | rfl | cases out

/-- Processor 0 runs the first process, which forks; processor 1 runs the child, which
exits; the first process waits for it.  The step after these frees the child's
stack. -/
def childExits : List (Move (Fin 2)) :=
  [.acquire 0, .go 0, .go 0, .go 0,
    .enter 0 .allocproc, .go 0, .go 0, .kalloc 0 true, .copyuvm 0 .done,
    .enter 0 .publish, .go 0, .go 0,
    .acquire 1, .go 1, .go 1, .go 1, .go 1,
    .enter 1 .exit, .go 1, .go 1, .go 1] ++ List.replicate 63 (.go 1) ++
  [.enter 0 (.scan false)]

theorem child_stack_freed : ∃ m m' : Machine (Fin 2),
    run Machine.step Machine.boot childExits = some m ∧ m.step (.go 0) = some m' ∧
      m.kstack 1 = true ∧ m'.kstack 1 = false ∧ ∀ c, (m.pos c).stack ≠ some 1 := by
  have goes : ((run Machine.step Machine.boot childExits).bind fun m => (m.step (.go 0)).map
      fun m' => (m.kstack 1, m'.kstack 1)) = some (true, false) := by decide +kernel
  obtain ⟨m, reached, rest⟩ := Option.bind_eq_some_iff.mp goes
  obtain ⟨m', stepped, both⟩ := Option.map_eq_some_iff.mp rest
  obtain ⟨had, gone⟩ := Prod.mk.inj both
  exact ⟨m, m', reached, stepped, had, gone,
    (one_cpu childExits m reached).2.1 _ m' 1 stepped had gone⟩

end Machines

end BasicOS.Ptable
