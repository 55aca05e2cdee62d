/-
# BasicOS.Proc.Flag — whether isthread tells a thread from a process

`wait` takes the children with `isthread == 0` and `thread_join` the others, so
an exited child is found by the right call only if the flag says how the child
was made.  `thread_create` sets the flag.  Nothing clears it: not `allocproc`,
not `fork`, not `thread_join`.

The run is traced with a record of how each occupant came to be, which the
kernel does not keep.

* `flag_run_iff`: the flag is right in all states of a run exactly when every
  `fork` of the run takes an entry whose flag is clear.
* `scan_reaps`: a parent that scans often enough reaps any exited child whose
  flag the scan looks for.
* `stale_flag`: six calls after which a forked child has the flag.
-/
import BasicOS.Proc.Effect
import Mathlib.Data.Fintype.Card
import Mathlib.Data.Finset.Card

namespace BasicOS.Ptable

open Function Lib

set_option autoImplicit false

/-- How an occupant was made, and by whom.  The creator is forgotten when it
exits, and init takes its place. -/
structure Origin where
  thread : Bool
  creator : Option Slot
  deriving DecidableEq, Repr

/-- A table with the origins of its occupants. -/
structure Traced where
  table : Table
  origin : Slot → Origin

def Effect.origins (o : Slot → Origin) : Effect → Slot → Origin
  | .forked cur np => update o np { thread := false, creator := some cur }
  | .spawned cur np => update o np { thread := true, creator := some cur }
  | .left cur => fun s =>
    if (o s).creator = some cur then { o s with creator := none } else o s
  | _ => o

def Traced.step (tr : Traced) (e : Event) : Option Traced :=
  (Ptable.step tr.table e).map fun t =>
    { table := t, origin := (effect tr.table e).origins tr.origin }

def Traced.userinit : Traced where
  table := Ptable.userinit
  origin _ := { thread := false, creator := none }

/-- The flag of every occupant says whether `thread_create` made it. -/
def Truthful (tr : Traced) : Prop :=
  ∀ s, (tr.table.proc s).state ≠ .unused →
    ((tr.table.proc s).isthread = true ↔ (tr.origin s).thread = true)

instance (tr : Traced) : Decidable (Truthful tr) :=
  inferInstanceAs (Decidable (∀ _, _))

/-- If the call is a `fork` that succeeds, it takes an entry whose flag is clear. -/
def ForkClean (tr : Traced) (e : Event) : Prop :=
  ∀ cur np, effect tr.table e = .forked cur np → (tr.table.proc np).isthread = false

instance (tr : Traced) (e : Event) : Decidable (ForkClean tr e) :=
  match call : effect tr.table e with
  | .forked _ np =>
    decidable_of_iff ((tr.table.proc np).isthread = false) (by simp [ForkClean, call])
  | .idle | .abandoned _ _ | .wasted | .spawned _ _ | .replaced _ _ | .left _ | .reaped _ _ _
  | .grown _ _ => isTrue (by simp [ForkClean, call])

theorem traced_step {tr tr' : Traced} {e : Event} (h : tr.step e = some tr') :
    Shows tr.table tr'.table (effect tr.table e) ∧
      tr'.origin = (effect tr.table e).origins tr.origin := by
  obtain ⟨t, ht, rfl⟩ := Option.map_eq_some_iff.mp h
  exact ⟨step_effect ht, rfl⟩

theorem life_free_iff (st : ProcState) : st.life = .free ↔ st = .unused := by
  cases st <;> simp [ProcState.life]

/-! ## The flag along a run -/

/-- `Truthful`, on views. -/
def FlagsMatch (v : View) (o : Slot → Origin) : Prop :=
  ∀ s, (v.entry s).life ≠ .free → (v.entry s).isthread = (o s).thread

theorem truthful_iff (tr : Traced) : Truthful tr ↔ FlagsMatch tr.table.view tr.origin := by
  refine forall_congr' fun s => ?_
  simp only [Table.view, Proc.entry, ne_eq, life_free_iff]
  exact imp_congr_right fun _ => Bool.eq_iff_iff.symm

theorem origins_kept {init : Slot} {v : View} {o : Slot → Origin} {e : Effect} {s : Slot}
    (enabled : e.Enabled v) (old : Kept init v e s) : (e.origins o s).thread = (o s).thread := by
  have apart : ∀ np, (v.entry np).life = .free → s ≠ np := by
    rintro np free rfl
    exact old.used free
  cases e with
  | forked cur np => simp [Effect.origins, apart np enabled.2]
  | spawned cur np => simp [Effect.origins, apart np enabled.2]
  | left cur =>
    simp only [Effect.origins]
    split <;> rfl
  | _ => rfl

/-- Flags stay right exactly when the effect is not a `fork` into an entry whose
flag is set. -/
theorem flagsMatch_after {init : Slot} {v : View} {o : Slot → Origin} {e : Effect}
    (enabled : e.Enabled v) (right : FlagsMatch v o) :
    FlagsMatch (v.after init e) (e.origins o) ↔
      ∀ cur np, e = .forked cur np → (v.entry np).isthread = false := by
  constructor
  · rintro after cur np rfl
    have flag := after np (by simp [View.after, Effect.entries])
    simpa [View.after, Effect.entries, Effect.origins] using flag
  · intro clean s used
    cases fate init enabled s used with
    | forked cur call free live entry =>
      rw [entry, call]
      simpa [Effect.origins] using clean cur s call
    | spawned cur call free live entry =>
      rw [entry, call]
      simp [Effect.origins]
    | kept old => rw [old.isthread, origins_kept enabled old, right s old.used]

theorem truthful_step {tr tr' : Traced} {e : Event} (right : Truthful tr)
    (h : tr.step e = some tr') : Truthful tr' ↔ ForkClean tr e := by
  obtain ⟨shows, origins⟩ := traced_step h
  rw [truthful_iff, origins, shows.view]
  exact flagsMatch_after shows.enabled ((truthful_iff tr).mp right)

theorem userinit_truthful : Truthful Traced.userinit := by
  decide

/-- The flag is right all along a run exactly when no `fork` of it meets a flag
that is set. -/
theorem flag_run_iff {es : List Event} {tr : Traced}
    (h : run Traced.step Traced.userinit es = some tr) :
    (∀ pre u, pre <+: es → run Traced.step Traced.userinit pre = some u → Truthful u) ↔
      Along Traced.step ForkClean Traced.userinit es :=
  states_iff_along Traced.step (J := fun _ => True) (fun _ _ _ _ _ => trivial)
    (fun _ _ _ _ right hs => truthful_step right hs) trivial userinit_truthful h

/-! ## Parents and creators -/

/-- As long as the creator has not exited, it is the parent. -/
def Parented (v : View) (o : Slot → Origin) : Prop :=
  ∀ s, (v.entry s).life ≠ .free → ∀ c, (o s).creator = some c → (v.entry s).parent = some c

theorem parented_after {init : Slot} {v : View} {o : Slot → Origin} {e : Effect}
    (enabled : e.Enabled v) (right : Parented v o) : Parented (v.after init e) (e.origins o) := by
  intro s used c made
  cases fate init enabled s used with
  | forked cur call free live entry =>
    rw [call] at made
    rw [entry]
    simpa [Effect.origins] using made
  | spawned cur call free live entry =>
    rw [call] at made
    rw [entry]
    simpa [Effect.origins] using made
  | kept old =>
    -- a creator on record is the old one, and not the process that exits
    have recorded : (o s).creator = some c ∧ ∀ cur, e = .left cur → c ≠ cur := by
      cases e with
      | forked cur np =>
        have apart : s ≠ np := fun eq => old.used (eq ▸ enabled.2)
        simpa [Effect.origins, apart] using made
      | spawned cur np =>
        have apart : s ≠ np := fun eq => old.used (eq ▸ enabled.2)
        simpa [Effect.origins, apart] using made
      | left cur =>
        simp only [Effect.origins] at made
        split at made
        · cases made
        · rename_i elsewhere
          refine ⟨made, fun other call => ?_⟩
          cases call
          rintro rfl
          exact elsewhere made
      | _ => exact ⟨made, by simp⟩
    have parent := right s old.used c recorded.1
    rcases old.parent with same | ⟨cur, call, child⟩
    · rw [same, parent]
    · rw [parent] at child
      exact absurd (Option.some.inj child) (recorded.2 cur call)

theorem userinit_parented : Parented Traced.userinit.table.view Traced.userinit.origin := by
  intro s used c made
  cases made

/-! ## Exited children are found -/

/-- The call that looks for children with this flag. -/
def scanCall : Bool → Slot → Event
  | false => .wait
  | true => .threadJoin

/-- The exited children with this flag. -/
def waiting (thread : Bool) (t : Table) (cur : Slot) : Finset Slot :=
  Finset.univ.filter fun s =>
    (t.proc s).state = .zombie ∧ (t.proc s).isthread = thread ∧ (t.proc s).parent = some cur

theorem found_of_waiting {thread : Bool} {t : Table} {cur z : Slot}
    (h : z ∈ waiting thread t cur) : ∃ s, found thread t cur = some s := by
  obtain ⟨zombie, kid⟩ := (Finset.mem_filter.mp h).2
  refine Option.isSome_iff_exists.mp (List.find?_isSome.mpr ⟨z, ?_, by simpa using zombie⟩)
  simpa [kids] using kid

/-- The table after a scan that finds `s`. -/
def reapedTable (thread : Bool) (t : Table) (s : Slot) : Table :=
  (if thread then t else t.freevm (t.proc s).pgdir).set s
    { t.proc s with pid := 0, parent := none, killed := false, state := .unused }

theorem step_scanCall {thread : Bool} {t : Table} {cur s : Slot}
    (running : (t.proc cur).state = .running) (first : found thread t cur = some s) :
    step t (scanCall thread cur) = some (reapedTable thread t s) := by
  cases thread <;>
    simp [scanCall, step, Event.caller, running, act, wait, threadJoin, scan, first, reapedTable]

theorem reapedTable_other (thread : Bool) (t : Table) {s r : Slot} (ne : r ≠ s) :
    (reapedTable thread t s).proc r = t.proc r := by
  cases thread <;> simp [reapedTable, Table.set, ne, Table.freevm]

theorem reapedTable_self (thread : Bool) (t : Table) (s : Slot) :
    ((reapedTable thread t s).proc s).state = .unused := by
  cases thread <;> simp [reapedTable, Table.set]

/-- **A parent that keeps scanning reaps every exited child** with the flag it
looks for, and `wait` frees the child's page directory. -/
theorem scan_reaps {thread : Bool} {cur z : Slot} {t : Table}
    (running : (t.proc cur).state = .running) (h : z ∈ waiting thread t cur) :
    ∃ k t', run step t (List.replicate k (scanCall thread cur)) = some t' ∧
      (t'.proc z).state = .unused ∧
      (thread = false → ∀ g, (t.proc z).pgdir = some g → g ∈ t'.freed) := by
  -- induction on the number of children that wait to be reaped
  induction size : (waiting thread t cur).card using Nat.strong_induction_on generalizing t with
  | _ n ih =>
  obtain ⟨s, first⟩ := found_of_waiting h
  have scanned := step_scanCall running first
  by_cases here : s = z
  · subst here
    refine ⟨1, reapedTable thread t s, by simp [run, scanned], reapedTable_self thread t s, ?_⟩
    rintro rfl g dir
    simp [reapedTable, Table.set, Table.freevm, dir]
  · obtain ⟨zombie, flag, parent⟩ := found_spec first
    have awake : cur ≠ s := by
      rintro rfl
      rw [zombie] at running
      cases running
    have fewer : waiting thread (reapedTable thread t s) cur ⊂ waiting thread t cur := by
      refine Finset.ssubset_iff_subset_ne.mpr ⟨fun r mem => ?_, fun same => ?_⟩
      · have occupied := (Finset.mem_filter.mp mem).2
        have ne : r ≠ s := by
          rintro rfl
          rw [reapedTable_self] at occupied
          cases occupied.1
        rw [reapedTable_other thread t ne] at occupied
        exact Finset.mem_filter.mpr ⟨Finset.mem_univ r, occupied⟩
      · have mem : s ∈ waiting thread t cur :=
          Finset.mem_filter.mpr ⟨Finset.mem_univ s, zombie, flag, parent⟩
        rw [← same] at mem
        have occupied := (Finset.mem_filter.mp mem).2.1
        rw [reapedTable_self] at occupied
        cases occupied
    have still : z ∈ waiting thread (reapedTable thread t s) cur := by
      have waits := (Finset.mem_filter.mp h).2
      rw [← reapedTable_other thread t (Ne.symm here)] at waits
      exact Finset.mem_filter.mpr ⟨Finset.mem_univ z, waits⟩
    have running' : ((reapedTable thread t s).proc cur).state = .running := by
      rwa [reapedTable_other thread t awake]
    obtain ⟨k, t', done, unused, freed⟩ :=
      ih _ (size ▸ Finset.card_lt_card fewer) running' still rfl
    refine ⟨k + 1, t', by simp [List.replicate_succ, run, scanned, done], unused, ?_⟩
    rwa [reapedTable_other thread t (Ne.symm here)] at freed

/-! ## The flag and the calls that rely on it -/

/-- Every exited child is reaped by the call meant for it: a process by its
parent's `wait`, which frees its page directory, and a thread by its parent's
`thread_join`.  The parent is the creator until the creator exits. -/
def ChildrenFound (tr : Traced) : Prop :=
  ∀ p z, (tr.table.proc p).state = .running → (tr.table.proc z).state = .zombie →
    (tr.table.proc z).parent = some p →
      (∀ c, (tr.origin z).creator = some c → c = p) ∧
      ∃ k t', run step tr.table
          (List.replicate k (scanCall (tr.origin z).thread p)) = some t' ∧
        (t'.proc z).state = .unused ∧
        ((tr.origin z).thread = false → ∃ g, (tr.table.proc z).pgdir = some g ∧ g ∈ t'.freed)

theorem children_found {tr : Traced} (right : Truthful tr) (housed : tr.table.view.Housed)
    (parented : Parented tr.table.view tr.origin) : ChildrenFound tr := by
  intro p z running zombie parent
  have used : (tr.table.view.entry z).life ≠ .free := by
    simp [Table.view, Proc.entry, zombie, ProcState.life]
  refine ⟨fun c made => ?_, ?_⟩
  · have same : (tr.table.proc z).parent = some c := parented z used c made
    exact Option.some.inj (same.symm.trans parent)
  · have flag : (tr.table.proc z).isthread = (tr.origin z).thread :=
      Bool.eq_iff_iff.mpr (right z (by simp [zombie]))
    obtain ⟨k, t', done, unused, freed⟩ := scan_reaps running
      (Finset.mem_filter.mpr ⟨Finset.mem_univ z, zombie, flag, parent⟩)
    refine ⟨k, t', done, unused, fun forked => ?_⟩
    obtain ⟨g, dir, -⟩ := housed z used
    exact ⟨g, dir, freed forked g dir⟩

/-- What holds of every traced table. -/
def Traced.Sound (tr : Traced) : Prop :=
  tr.table.view.Housed ∧ Parented tr.table.view tr.origin

theorem traced_sound {tr : Traced} {es : List Event}
    (h : run Traced.step Traced.userinit es = some tr) : tr.Sound := by
  refine run_invariant Traced.step (I := Traced.Sound) ?_ ⟨userinit_housed, userinit_parented⟩ h
  intro s e s' sound hs
  obtain ⟨shows, origins⟩ := traced_step hs
  unfold Traced.Sound
  rw [shows.view, origins]
  exact ⟨after_housed shows.enabled sound.1, parented_after shows.enabled sound.2⟩

/-- **What the thread flag is worth.**  It tells the truth in every state of a
run exactly when every `fork` of the run takes an entry whose flag is clear;
and then every exited child is found by the call meant for it. -/
theorem thread_flag {es : List Event} {tr : Traced}
    (done : run Traced.step Traced.userinit es = some tr) :
    ((∀ pre u, pre <+: es → run Traced.step Traced.userinit pre = some u → Truthful u) ↔
      Along Traced.step ForkClean Traced.userinit es) ∧
    (Along Traced.step ForkClean Traced.userinit es → Truthful tr ∧ ChildrenFound tr) := by
  refine ⟨flag_run_iff done, fun clean => ?_⟩
  have right : Truthful tr :=
    (flag_run_iff done).mpr clean es tr (List.prefix_refl es) done
  obtain ⟨housed, parented⟩ := traced_sound done
  exact ⟨right, children_found right housed parented⟩

/-- Init makes a thread and forks: the child takes an entry that no thread had. -/
def besideRun : List Event :=
  [.schedule 0, .threadCreate 0 true, .fork 0 true .done, .schedule 1, .threadExit 1]

theorem forked_beside_thread : ∃ tr, run Traced.step Traced.userinit besideRun = some tr ∧
    Truthful tr ∧ ChildrenFound tr := by
  obtain ⟨tr, done⟩ := Option.isSome_iff_exists.mp
    (by decide +kernel : (run Traced.step Traced.userinit besideRun).isSome = true)
  exact ⟨tr, done, (thread_flag done).2 (by decide +kernel)⟩

/-- A thread is created, exits and is joined; then its creator forks. -/
def recycledRun : List Event :=
  [.schedule 0, .threadCreate 0 true, .schedule 1, .threadExit 1, .threadJoin 0,
    .fork 0 true .done]

/-- **The flag outlives the thread**: the child of the last call was made by
`fork`, yet has the flag, so its parent's `wait` finds no child at all. -/
theorem stale_flag :
    ∃ tr, run Traced.step Traced.userinit recycledRun = some tr ∧
      (tr.table.proc 1).state = .runnable ∧ (tr.origin 1).thread = false ∧
      (tr.table.proc 1).isthread = true ∧ ¬ Truthful tr ∧
      (wait tr.table 0).2 = some (-1) := by
  refine ⟨_, rfl, ?_⟩
  decide +kernel

end BasicOS.Ptable
