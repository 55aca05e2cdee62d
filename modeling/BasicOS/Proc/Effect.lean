/-
# BasicOS.Proc.Effect — what a call does to families and address spaces

The table seen from far enough to reason about threads and page directories:
of each entry whether it is free, live or exited, its flag, its parent, its
directory and its size.  The eight calls have seven effects on it, scheduling
has none.  `step_effect` says once what a step can do; the results on the
thread flag, on freed directories and on sizes start from there.
-/
import BasicOS.Proc.Table
import BasicOS.Lib.Run

namespace BasicOS.Ptable

open Function

set_option autoImplicit false

/-- What a `procstate` says about the entry's occupant. -/
inductive Life where
  | free | live | exited
  deriving DecidableEq, Repr

def ProcState.life : ProcState → Life
  | .unused => .free
  | .embryo => .live
  | .sleeping => .live
  | .runnable => .live
  | .running => .live
  | .zombie => .exited

structure Entry where
  life : Life
  isthread : Bool
  parent : Option Slot
  pgdir : Option Nat
  sz : UInt32
  deriving DecidableEq, Repr

def Proc.entry (p : Proc) : Entry where
  life := p.state.life
  isthread := p.isthread
  parent := p.parent
  pgdir := p.pgdir
  sz := p.sz

@[ext] structure View where
  entry : Slot → Entry
  nextPgdir : Nat
  freed : List Nat

def Table.view (t : Table) : View where
  entry s := (t.proc s).entry
  nextPgdir := t.nextPgdir
  freed := t.freed

/-! ## Effects -/

inductive Effect where
  | idle
  /-- `fork` gives up after `allocproc`; `made` when a directory was made and freed. -/
  | abandoned (np : Slot) (made : Bool)
  /-- `exec` gives up after it has made a directory. -/
  | wasted
  | forked (cur np : Slot)
  | spawned (cur np : Slot)
  | replaced (cur : Slot) (sz : UInt32)
  | left (cur : Slot)
  | reaped (thread : Bool) (cur s : Slot)
  | grown (cur : Slot) (sz : UInt32)
  deriving DecidableEq, Repr

/-- The effect of a call, from the table it finds. -/
def effect (t : Table) : Event → Effect
  | .fork cur true copy =>
    match firstUnused t, copy with
    | none, _ => .idle
    | some np, .noDirectory => .abandoned np false
    | some np, .undone => .abandoned np true
    | some np, .done => .forked cur np
  | .threadCreate cur true => ((firstUnused t).map (Effect.spawned cur)).getD .idle
  | .exec _ .undone => .wasted
  | .exec cur (.done sz) => .replaced cur sz
  | .exit cur => .left cur
  | .threadExit cur => .left cur
  | .wait cur => ((found false t cur).map (Effect.reaped false cur)).getD .idle
  | .threadJoin cur => ((found true t cur).map (Effect.reaped true cur)).getD .idle
  | .sbrk cur n mem =>
    ((growSize (t.proc cur).isthread (t.proc cur).sz n mem).map (Effect.grown cur)).getD .idle
  | _ => .idle

/-- The entries other than the caller whose size `growproc` assigns: the parent
of a thread, and every thread whose parent is the caller or the caller's
parent. -/
def View.reached (v : View) (cur s : Slot) : Prop :=
  ((v.entry cur).isthread = true ∧ (v.entry cur).parent = some s) ∨
    ((v.entry s).isthread = true ∧
      ((v.entry s).parent = (v.entry cur).parent ∨ (v.entry s).parent = some cur))

instance (v : View) (cur s : Slot) : Decidable (v.reached cur s) :=
  inferInstanceAs (Decidable (_ ∨ _))

/-- The entries after an effect; `init` adopts orphans. -/
def Effect.entries (init : Slot) (v : View) : Effect → Slot → Entry
  | .idle => v.entry
  | .abandoned np _ => update v.entry np { v.entry np with pgdir := none }
  | .wasted => v.entry
  | .forked cur np => update v.entry np
      { v.entry np with
        life := .live, parent := some cur, pgdir := some v.nextPgdir, sz := (v.entry cur).sz }
  | .spawned cur np => update v.entry np
      { life := .live, isthread := true, parent := some cur, pgdir := (v.entry cur).pgdir,
        sz := (v.entry cur).sz }
  | .replaced cur sz => update v.entry cur
      { v.entry cur with pgdir := some v.nextPgdir, sz := sz }
  | .left cur => fun s =>
    { v.entry s with
      life := if s = cur then .exited else (v.entry s).life
      parent := if (v.entry s).parent = some cur then some init else (v.entry s).parent }
  | .reaped _ _ s => update v.entry s { v.entry s with life := .free, parent := none }
  | .grown cur sz => fun s =>
    { v.entry s with sz := if s = cur ∨ v.reached cur s then sz else (v.entry s).sz }

/-- The directories an effect makes and frees. -/
def Effect.made : Effect → Nat
  | .abandoned _ true => 1
  | .wasted => 1
  | .forked _ _ => 1
  | .replaced _ _ => 1
  | _ => 0

def Effect.frees (v : View) : Effect → List Nat
  | .abandoned _ true => [v.nextPgdir]
  | .wasted => [v.nextPgdir]
  | .replaced cur _ => (v.entry cur).pgdir.toList
  | .reaped false _ s => (v.entry s).pgdir.toList
  | _ => []

def View.after (init : Slot) (v : View) (e : Effect) : View where
  entry := e.entries init v
  nextPgdir := v.nextPgdir + e.made
  freed := v.freed ++ e.frees v

/-- What holds of the entries when a call has an effect. -/
def Effect.Enabled (v : View) : Effect → Prop
  | .idle => True
  | .wasted => True
  | .abandoned np _ => (v.entry np).life = .free
  | .forked cur np => (v.entry cur).life = .live ∧ (v.entry np).life = .free
  | .spawned cur np => (v.entry cur).life = .live ∧ (v.entry np).life = .free
  | .replaced cur _ => (v.entry cur).life = .live
  | .left cur => (v.entry cur).life = .live
  | .reaped thread cur s =>
    (v.entry cur).life = .live ∧ (v.entry s).life = .exited ∧
      (v.entry s).isthread = thread ∧ (v.entry s).parent = some cur
  | .grown cur _ => (v.entry cur).life = .live

/-! ## Every step has its effect -/

@[simp] theorem wake_entry (chan : Option Chan) (p : Proc) : (p.wake chan).entry = p.entry := by
  unfold Proc.wake
  split
  · rename_i asleep
    simp [Proc.entry, asleep.1, ProcState.life]
  · rfl

@[simp] theorem wakeup1_view (chan : Option Chan) (t : Table) : (wakeup1 chan t).view = t.view := by
  simp [Table.view, wakeup1]

@[simp] theorem set_view (t : Table) (s : Slot) (p : Proc) :
    (t.set s p).view = { t.view with entry := update t.view.entry s p.entry } := by
  simp only [Table.view, Table.set, View.mk.injEq, and_self, and_true]
  exact (comp_update Proc.entry t.proc s p)

@[simp] theorem newPgdir_view (t : Table) :
    t.newPgdir.view = { t.view with nextPgdir := t.nextPgdir + 1 } := rfl

@[simp] theorem freevm_view (t : Table) (pgdir : Option Nat) :
    (t.freevm pgdir).view = { t.view with freed := t.freed ++ pgdir.toList } := rfl

/-- A change that leaves an entry's occupant alone is not seen. -/
theorem set_view_same {t : Table} {s : Slot} {p : Proc} (same : p.entry = (t.proc s).entry) :
    (t.set s p).view = t.view := by
  rw [set_view, same]
  simp [Table.view]

theorem firstUnused_free {t : Table} {np : Slot} (h : firstUnused t = some np) :
    (t.view.entry np).life = .free := by
  have unused := List.find?_some h
  simp only [decide_eq_true_eq] at unused
  simp [Table.view, Proc.entry, unused, ProcState.life]

theorem found_spec {thread : Bool} {t : Table} {cur s : Slot} (h : found thread t cur = some s) :
    (t.proc s).state = .zombie ∧ (t.proc s).isthread = thread ∧ (t.proc s).parent = some cur := by
  have zombie := List.find?_some h
  have kid := List.mem_of_find?_eq_some h
  simp only [kids, List.mem_filter, decide_eq_true_eq] at zombie kid
  exact ⟨zombie, kid.2⟩

theorem running_live {t : Table} {cur : Slot} (h : (t.proc cur).state = .running) :
    (t.view.entry cur).life = .live := by
  simp [Table.view, Proc.entry, h, ProcState.life]

section

variable (t : Table)

include t

theorem view_update_self (s : Slot) :
    update t.view.entry s (t.proc s).entry = t.view.entry :=
  update_eq_self s t.view.entry

@[simp] theorem view_nextPgdir (t : Table) : t.view.nextPgdir = t.nextPgdir := rfl

@[simp] theorem view_freed (t : Table) : t.view.freed = t.freed := rfl

/-- `allocproc`, by what it finds. -/
theorem allocproc_eq (kstack : Bool) :
    allocproc t kstack =
      match firstUnused t, kstack with
      | none, _ => (none, t)
      | some np, true => (some np, t.embryo np)
      | some np, false => (none, (t.embryo np).set np { (t.embryo np).proc np with state := .unused }) := by
  unfold allocproc
  rcases firstUnused t with _ | np
  · rfl
  · cases kstack <;> rfl

/-- Whatever becomes of a new entry, the view changes there only. -/
theorem embryo_set_view (np : Slot) (p : Proc) :
    ((t.embryo np).set np p).view = { t.view with entry := update t.view.entry np p.entry } := by
  simp only [set_view]
  simp [Table.embryo, Table.view, Table.set, funext_iff, update_apply]
  grind

theorem newPgdir_embryo_view (np : Slot) (p : Proc) :
    ((t.embryo np).newPgdir.set np p).view =
      { t.view with entry := update t.view.entry np p.entry, nextPgdir := t.nextPgdir + 1 } := by
  have h := embryo_set_view t np p
  simp only [set_view, View.mk.injEq] at h ⊢
  exact ⟨h.1, rfl, rfl⟩

theorem embryo_proc (np : Slot) :
    (t.embryo np).proc np = { t.proc np with state := .embryo, pid := t.nextpid } := by
  simp [Table.embryo, Table.set]

theorem embryo_proc_ne {np cur : Slot} (ne : cur ≠ np) :
    (t.embryo np).proc cur = t.proc cur := by
  simp [Table.embryo, Table.set, ne]

end

@[simp] theorem after_idle (init : Slot) (v : View) : v.after init .idle = v := by
  simp [View.after, Effect.entries, Effect.made, Effect.frees]

/-- A call with this effect leaves this table. -/
structure Shows (t t' : Table) (e : Effect) : Prop where
  view : t'.view = t.view.after t.initproc e
  initproc : t'.initproc = t.initproc
  enabled : e.Enabled t.view

/-- A call that changes nothing but scheduling data. -/
theorem shows_idle {t t' : Table} (view : t'.view = t.view) (init : t'.initproc = t.initproc) :
    Shows t t' .idle :=
  ⟨by rw [view, after_idle], init, trivial⟩

/-- A failed `allocproc` returns the entry as it was. -/
theorem shows_returned {t : Table} {np : Slot} (first : firstUnused t = some np) :
    Shows t ((t.embryo np).set np { (t.embryo np).proc np with state := .unused }) .idle := by
  have unused := List.find?_some first
  simp only [decide_eq_true_eq] at unused
  refine shows_idle ?_ rfl
  rw [embryo_set_view, embryo_proc]
  have same : ({ t.proc np with state := .unused, pid := t.nextpid } : Proc).entry =
      (t.proc np).entry := by
    simp [Proc.entry, unused]
  rw [same, view_update_self]

theorem fork_shows {t : Table} {cur : Slot} (kstack : Bool) (copy : Copy)
    (running : (t.proc cur).state = .running) :
    Shows t (fork t cur kstack copy).1 (effect t (.fork cur kstack copy)) := by
  unfold fork
  rw [allocproc_eq]
  rcases first : firstUnused t with _ | np
  · cases kstack <;> simpa [effect, first] using shows_idle rfl rfl
  have free := firstUnused_free first
  have live := running_live running
  have other : cur ≠ np := by
    intro h
    rw [← h, live] at free
    cases free
  cases kstack with
  | false => exact shows_returned first
  | true =>
    simp only [effect, first]
    -- an abandoned entry is `UNUSED` again, without a directory
    have returned : ({ (t.embryo np).proc np with pgdir := none, state := .unused } : Proc).entry =
        { t.view.entry np with pgdir := none } := by
      rw [embryo_proc]
      simp only [Proc.entry, Table.view, Entry.mk.injEq, and_self, and_true]
      exact free.symm
    cases copy with
    | noDirectory =>
      refine ⟨?_, rfl, free⟩
      rw [embryo_set_view, returned]
      simp [View.after, Effect.entries, Effect.made, Effect.frees]
    | undone =>
      refine ⟨?_, rfl, free⟩
      simp only [freevm_view, newPgdir_view, embryo_set_view, returned]
      rfl
    | done =>
      refine ⟨?_, rfl, live, free⟩
      rw [newPgdir_embryo_view, embryo_proc, embryo_proc_ne t other]
      simp [View.after, Effect.entries, Effect.made, Effect.frees]
      rfl

theorem threadCreate_shows {t : Table} {cur : Slot} (kstack : Bool)
    (running : (t.proc cur).state = .running) :
    Shows t (threadCreate t cur kstack).1 (effect t (.threadCreate cur kstack)) := by
  unfold threadCreate
  rw [allocproc_eq]
  rcases first : firstUnused t with _ | np
  · cases kstack <;> simpa [effect, first] using shows_idle rfl rfl
  have free := firstUnused_free first
  have live := running_live running
  have other : cur ≠ np := by
    intro h
    rw [← h, live] at free
    cases free
  cases kstack with
  | false => exact shows_returned first
  | true =>
    simp only [effect, first, Option.map_some, Option.getD_some]
    refine ⟨?_, rfl, live, free⟩
    rw [embryo_set_view, embryo_proc, embryo_proc_ne t other]
    simp [View.after, Effect.entries, Effect.made, Effect.frees]
    rfl

theorem exec_shows {t : Table} {cur : Slot} (image : Image)
    (running : (t.proc cur).state = .running) :
    Shows t (exec t cur image).1 (effect t (.exec cur image)) := by
  cases image with
  | noDirectory => exact shows_idle rfl rfl
  | undone => exact ⟨rfl, rfl, trivial⟩
  | done sz =>
    refine ⟨?_, rfl, running_live running⟩
    simp only [exec, freevm_view, set_view, newPgdir_view]
    rfl

/-- What `exit` has done to the view when it comes to its own entry. -/
theorem reparent_view (t : Table) (cur : Slot) :
    (reparent t cur).view = { t.view with
      entry := fun s => { t.view.entry s with
        parent := if (t.view.entry s).parent = some cur then some t.initproc
          else (t.view.entry s).parent } } := by
  ext1
  · funext s
    simp only [reparent, Table.view]
    split <;> rename_i child
    · simp [Proc.entry, child]
    · simp [Proc.entry, child]
  · rfl
  · rfl

theorem exited_entry (p : Proc) :
    ({ p with state := .zombie } : Proc).entry = { p.entry with life := .exited } := rfl

theorem leave_shows {t t' : Table} {cur : Slot} (running : (t.proc cur).state = .running)
    (h : leave t cur = some t') : Shows t t' (.left cur) := by
  have wakes : ∀ (b : Bool) (chan : Option Chan) (u : Table),
      (if b then wakeup1 chan u else u).view = u.view := by
    intro b chan u
    cases b <;> simp
  unfold leave at h
  split at h
  · cases h
  cases h
  refine ⟨?_, ?_, running_live running⟩
  · rw [set_view, exited_entry]
    change View.mk (update _ cur { View.entry (Table.view _) cur with life := .exited }) _ _ = _
    simp only [wakes, reparent_view, wakeup1_view, View.after, Effect.made, Effect.frees]
    simp only [View.mk.injEq, List.append_nil, Nat.add_zero, and_true]
    funext s
    by_cases here : s = cur
    · subst here
      simp [Effect.entries, wakeup1]
    · simp [Effect.entries, wakeup1, here]
  · split <;> rfl

theorem scan_shows {t : Table} {cur : Slot} (thread : Bool)
    (running : (t.proc cur).state = .running) :
    Shows t (scan thread t cur).1
      (((found thread t cur).map (Effect.reaped thread cur)).getD .idle) := by
  unfold scan
  rcases first : found thread t cur with _ | s
  · simp only [Option.map_none, Option.getD_none]
    split
    · exact shows_idle rfl rfl
    · refine shows_idle (set_view_same ?_) rfl
      simp [Proc.entry, running, ProcState.life]
  · obtain ⟨zombie, flag, parent⟩ := found_spec first
    have gone : (t.view.entry s).life = .exited := by
      simp [Table.view, Proc.entry, zombie, ProcState.life]
    cases thread with
    | false =>
      refine ⟨?_, rfl, running_live running, gone, flag, parent⟩
      simp [View.after, Effect.entries, Effect.made, Effect.frees]
      exact ⟨rfl, rfl⟩
    | true =>
      refine ⟨?_, rfl, running_live running, gone, flag, parent⟩
      simp [View.after, Effect.entries, Effect.made, Effect.frees]
      rfl

/-- Entries get a size where `P` holds. -/
def Table.resize (t : Table) (P : Slot → Prop) [DecidablePred P] (sz : UInt32) : Table :=
  { t with proc := fun s => if P s then { t.proc s with sz := sz } else t.proc s }

theorem resize_or (t : Table) (P Q : Slot → Prop) [DecidablePred P] [DecidablePred Q]
    (sz : UInt32) : (t.resize P sz).resize Q sz = t.resize (fun s => P s ∨ Q s) sz := by
  simp only [Table.resize, Table.mk.injEq, and_true]
  funext s
  by_cases hp : P s <;> by_cases hq : Q s <;> simp [hp, hq]

theorem resize_congr (t : Table) {P Q : Slot → Prop} [DecidablePred P] [DecidablePred Q]
    (sz : UInt32) (same : ∀ s, P s ↔ Q s) : t.resize P sz = t.resize Q sz := by
  simp [Table.resize, same]

theorem resize_flag (t : Table) (P : Slot → Prop) [DecidablePred P] (sz : UInt32) (s : Slot) :
    ((t.resize P sz).proc s).isthread = (t.proc s).isthread ∧
      ((t.resize P sz).proc s).parent = (t.proc s).parent := by
  by_cases h : P s <;> simp [Table.resize, h]

theorem set_resize (t : Table) (s : Slot) (sz : UInt32) :
    t.set s { t.proc s with sz := sz } = t.resize (· = s) sz := by
  simp only [Table.set, Table.resize, Table.mk.injEq, and_true]
  funext r
  by_cases h : r = s
  · subst h
    simp
  · simp [h]

theorem growParent_resize (t : Table) (cur : Slot) (sz : UInt32) :
    growParent t cur sz = t.resize
      (fun s => (t.proc cur).isthread = true ∧ (t.proc cur).parent = some s) sz := by
  unfold growParent
  split
  · rename_i q flag parent
    rw [set_resize]
    exact resize_congr t sz fun s => by simp [flag, parent, eq_comm]
  · rename_i other
    have nobody : ∀ s, ¬ ((t.proc cur).isthread = true ∧ (t.proc cur).parent = some s) :=
      fun s both => other s both.1 both.2
    simp [Table.resize, nobody]

theorem growThreads_resize {t : Table} {cur : Slot} {sz : UInt32} (own : (t.proc cur).sz = sz) :
    growThreads t cur = t.resize (fun s => (t.proc s).isthread = true ∧
      ((t.proc s).parent = (t.proc cur).parent ∨ (t.proc s).parent = some cur)) sz := by
  simp [growThreads, Table.resize, own]

/-- The three assignments of `growproc` are one. -/
theorem grow_resize (t : Table) (cur : Slot) (sz : UInt32) :
    growThreads (growParent (t.set cur { t.proc cur with sz := sz }) cur sz) cur =
      t.resize (fun s => s = cur ∨ t.view.reached cur s) sz := by
  rw [set_resize, growParent_resize, resize_or, growThreads_resize (by simp [Table.resize] : _ = sz),
    resize_or]
  refine resize_congr t sz fun s => ?_
  simp only [resize_flag, View.reached, Table.view, Proc.entry, or_assoc]

theorem resize_view (t : Table) (P : Slot → Prop) [DecidablePred P] (sz : UInt32) :
    (t.resize P sz).view = { t.view with
      entry := fun s => { t.view.entry s with sz := if P s then sz else (t.view.entry s).sz } } := by
  ext1
  · funext s
    by_cases h : P s <;> simp [Table.resize, Table.view, Proc.entry, h]
  · rfl
  · rfl

theorem growproc_shows {t : Table} {cur : Slot} (n : Int32) (mem : Bool)
    (running : (t.proc cur).state = .running) :
    Shows t (growproc t cur n mem).1 (effect t (.sbrk cur n mem)) := by
  unfold growproc
  rcases grows : growSize (t.proc cur).isthread (t.proc cur).sz n mem with _ | sz
  · simpa [effect, grows] using shows_idle rfl rfl
  · simp only [effect, grows, Option.map_some, Option.getD_some, grow_resize]
    refine ⟨?_, rfl, running_live running⟩
    rw [resize_view]
    simp only [View.after, Effect.entries, Effect.made, Effect.frees, List.append_nil,
      Nat.add_zero]

theorem kill_view (t : Table) (pid : Nat) : (kill t pid).1.view = t.view := by
  unfold kill
  split
  · refine set_view_same ?_
    simp only [Proc.entry, Entry.mk.injEq, and_true]
    split <;> simp_all [ProcState.life]
  · rfl

/-- **What a step can do**: a step shows the effect of its call. -/
theorem step_effect {t t' : Table} {e : Event} (h : step t e = some t') :
    Shows t t' (effect t e) := by
  unfold step at h
  split at h
  case isFalse => cases h
  rename_i guard
  cases e with
  | fork cur kstack copy =>
    cases h
    exact fork_shows kstack copy (guard cur rfl)
  | threadCreate cur kstack =>
    cases h
    exact threadCreate_shows kstack (guard cur rfl)
  | exec cur image =>
    cases h
    exact exec_shows image (guard cur rfl)
  | exit cur => exact leave_shows (guard cur rfl) h
  | threadExit cur => exact leave_shows (guard cur rfl) h
  | wait cur =>
    cases h
    exact scan_shows false (guard cur rfl)
  | threadJoin cur =>
    cases h
    exact scan_shows true (guard cur rfl)
  | sbrk cur n mem =>
    cases h
    exact growproc_shows n mem (guard cur rfl)
  | schedule s =>
    simp only [act] at h
    split at h
    · rename_i runnable
      cases h
      exact shows_idle (set_view_same (by simp [Proc.entry, runnable, ProcState.life])) rfl
    · cases h
  | yield cur =>
    cases h
    have running := guard cur rfl
    exact shows_idle (set_view_same (by simp [Proc.entry, running, ProcState.life])) rfl
  | sleep cur chan =>
    cases h
    have running := guard cur rfl
    exact shows_idle (set_view_same (by simp [Proc.entry, running, ProcState.life])) rfl
  | wakeup chan =>
    cases h
    exact shows_idle (wakeup1_view _ t) rfl
  | kill pid =>
    cases h
    refine shows_idle (kill_view t pid) ?_
    unfold kill
    split <;> rfl

/-! ## The fate of an entry -/

/-- An occupant that is still there after an effect. -/
structure Kept (init : Slot) (v : View) (e : Effect) (s : Slot) : Prop where
  used : (v.entry s).life ≠ .free
  life : ((v.after init e).entry s).life = .live → (v.entry s).life = .live
  isthread : ((v.after init e).entry s).isthread = (v.entry s).isthread
  parent : ((v.after init e).entry s).parent = (v.entry s).parent ∨
    ∃ cur, e = .left cur ∧ (v.entry s).parent = some cur
  pgdir : ((v.after init e).entry s).pgdir = (v.entry s).pgdir ∨
    ∃ sz, e = .replaced s sz ∧ (v.entry s).life = .live ∧
      ((v.after init e).entry s).pgdir = some v.nextPgdir
  exited : ((v.after init e).entry s).life = .exited → (v.entry s).life = .exited ∨ e = .left s
  sz : ((v.after init e).entry s).sz = (v.entry s).sz ∨ (∃ sz, e = .replaced s sz) ∨
    ∃ cur sz, e = .grown cur sz

/-- An occupied entry after an effect: a new process, a new thread, or the old
occupant. -/
inductive Fate (init : Slot) (v : View) (e : Effect) (s : Slot) : Prop where
  | forked (cur : Slot) (call : e = .forked cur s) (free : (v.entry s).life = .free)
      (live : (v.entry cur).life = .live)
      (entry : (v.after init e).entry s = { v.entry s with
        life := .live, parent := some cur, pgdir := some v.nextPgdir, sz := (v.entry cur).sz })
  | spawned (cur : Slot) (call : e = .spawned cur s) (free : (v.entry s).life = .free)
      (live : (v.entry cur).life = .live)
      (entry : (v.after init e).entry s =
        { life := .live, isthread := true, parent := some cur, pgdir := (v.entry cur).pgdir,
          sz := (v.entry cur).sz })
  | kept (old : Kept init v e s)

theorem kept_same {init : Slot} {v : View} {e : Effect} {s : Slot}
    (same : (v.after init e).entry s = v.entry s) (used : (v.entry s).life ≠ .free) :
    Kept init v e s := by
  constructor <;> simp_all

theorem fate (init : Slot) {v : View} {e : Effect} (enabled : e.Enabled v) (s : Slot)
    (used : ((v.after init e).entry s).life ≠ .free) : Fate init v e s := by
  -- an effect on one entry leaves the others
  have elsewhere : ∀ {p : Slot} {en : Entry}, s ≠ p →
      (v.after init e).entry = update v.entry p en → Fate init v e s := by
    intro p en other same
    have here : (v.after init e).entry s = v.entry s := by rw [same, update_of_ne other]
    exact .kept (kept_same here (here ▸ used))
  cases e with
  | idle => exact .kept (kept_same rfl used)
  | wasted => exact .kept (kept_same rfl used)
  | abandoned np made =>
    by_cases here : s = np
    · subst here
      simp only [View.after, Effect.entries, update_self] at used
      exact absurd enabled used
    · exact elsewhere here rfl
  | forked cur np =>
    by_cases here : s = np
    · subst here
      exact .forked cur rfl enabled.2 enabled.1 (by simp [View.after, Effect.entries])
    · exact elsewhere here rfl
  | spawned cur np =>
    by_cases here : s = np
    · subst here
      exact .spawned cur rfl enabled.2 enabled.1 (by simp [View.after, Effect.entries])
    · exact elsewhere here rfl
  | replaced cur sz =>
    by_cases here : s = cur
    · subst here
      have live : (v.entry s).life = .live := enabled
      refine .kept ⟨by simp [live], fun _ => live, ?_, .inl ?_, .inr ⟨sz, rfl, live, ?_⟩, ?_,
        .inr (.inl ⟨sz, rfl⟩)⟩ <;> simp [View.after, Effect.entries, live]
    · exact elsewhere here rfl
  | left cur =>
    have live : (v.entry cur).life = .live := enabled
    by_cases here : s = cur
    · subst here
      refine .kept ⟨by simp [live], fun _ => live, rfl, ?_, .inl rfl, fun _ => .inr rfl, .inl rfl⟩
      by_cases child : (v.entry s).parent = some s
      · exact .inr ⟨s, rfl, child⟩
      · exact .inl (by simp [View.after, Effect.entries, child])
    · simp only [View.after, Effect.entries, if_neg here] at used
      refine .kept ⟨used, ?_, rfl, ?_, .inl rfl, ?_, .inl rfl⟩
      · simp [View.after, Effect.entries, here]
      · by_cases child : (v.entry s).parent = some cur
        · exact .inr ⟨cur, rfl, child⟩
        · exact .inl (by simp [View.after, Effect.entries, child])
      · intro exited
        exact .inl (by simpa [View.after, Effect.entries, here] using exited)
  | reaped thread cur z =>
    by_cases here : s = z
    · subst here
      simp [View.after, Effect.entries] at used
    · exact elsewhere here rfl
  | grown cur sz =>
    exact .kept ⟨used, id, rfl, .inl rfl, .inl rfl, .inl, .inr (.inr ⟨cur, sz, rfl⟩)⟩

/-! ## What every step keeps -/

/-- Every occupant has a page directory that has been made. -/
def View.Housed (v : View) : Prop :=
  ∀ s, (v.entry s).life ≠ .free → ∃ g, (v.entry s).pgdir = some g ∧ g < v.nextPgdir

theorem after_housed {init : Slot} {v : View} {e : Effect} (enabled : e.Enabled v)
    (housed : v.Housed) : (v.after init e).Housed := by
  intro s used
  have older : ∀ r, (v.entry r).life ≠ .free →
      ∃ g, (v.entry r).pgdir = some g ∧ g < (v.after init e).nextPgdir := by
    intro r used
    obtain ⟨g, dir, made⟩ := housed r used
    exact ⟨g, dir, Nat.lt_add_right _ made⟩
  cases fate init enabled s used with
  | forked cur call free live entry =>
    subst call
    exact ⟨v.nextPgdir, by rw [entry], Nat.lt_succ_self _⟩
  | spawned cur call free live entry =>
    rw [entry]
    exact older cur (by rw [live]; decide)
  | kept old =>
    rcases old.pgdir with same | ⟨sz, call, -, dir⟩
    · rw [same]
      exact older s old.used
    · subst call
      exact ⟨v.nextPgdir, dir, Nat.lt_succ_self _⟩

theorem step_housed {t t' : Table} {e : Event} (housed : t.view.Housed)
    (h : step t e = some t') : t'.view.Housed := by
  have shows := step_effect h
  rw [shows.view]
  exact after_housed shows.enabled housed

theorem userinit_housed : userinit.view.Housed := by
  intro s used
  by_cases here : s = 0
  · subst here
    exact ⟨0, rfl, Nat.one_pos⟩
  · simp [userinit, Table.view, here, Proc.blank, Proc.entry, ProcState.life] at used

end BasicOS.Ptable
