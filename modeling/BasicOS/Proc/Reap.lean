/-
# BasicOS.Proc.Reap — whether an exited task can still be reaped

`exit` and `thread_exit` pass the children of a process to init, processes and
threads alike, and init calls nothing but `wait`.  An exited task is reapable
while its parent is live and not init, or when init is its parent and `wait`
selects it.

* `reapable_run_iff`: every exited task is reapable in all states of a run
  exactly when no exit of the run leaves an exited thread to init, be it the
  caller or a child that the caller has not joined.
* `orphan_stays`: an exited thread that init has adopted keeps its entry for
  ever, unless init calls `thread_join`.
* `orphan_lost`: such a run.
-/
import BasicOS.Proc.Flag
import BasicOS.Proc.Space

namespace BasicOS.Ptable

open Function Lib

set_option autoImplicit false

/-- Every exited task has a live parent other than init, or is among the
children `wait` looks at when init calls it. -/
def Reapable (t : Table) : Prop :=
  ∀ z, (t.proc z).state = .zombie →
    (∃ p, (t.proc z).parent = some p ∧ p ≠ t.initproc ∧ (t.proc p).Live) ∨
      z ∈ kids false t t.initproc

instance (t : Table) : Decidable (Reapable t) :=
  haveI : ∀ z, Decidable (∃ p, (t.proc z).parent = some p ∧ p ≠ t.initproc ∧ (t.proc p).Live) :=
    fun z => decidable_of_iff
      (∃ p ∈ (t.proc z).parent, p ≠ t.initproc ∧ (t.proc p).Live) (by simp)
  inferInstanceAs (Decidable (∀ _, _))

/-- If the call is an `exit` or a `thread_exit`, it leaves no exited thread to
init: neither the caller itself nor an exited child of it. -/
def LeavesNoThread (t : Table) (e : Event) : Prop :=
  ∀ cur, effect t e = .left cur →
    ((t.proc cur).parent = some t.initproc → (t.proc cur).isthread = false) ∧
      ∀ z, (t.proc z).state = .zombie → (t.proc z).parent = some cur →
        (t.proc z).isthread = false

instance (t : Table) (e : Event) : Decidable (LeavesNoThread t e) :=
  match call : effect t e with
  | .left cur =>
    decidable_of_iff
      (((t.proc cur).parent = some t.initproc → (t.proc cur).isthread = false) ∧
        ∀ z, (t.proc z).state = .zombie → (t.proc z).parent = some cur →
          (t.proc z).isthread = false) (by simp [LeavesNoThread, call])
  | .idle | .abandoned _ _ | .wasted | .forked _ _ | .spawned _ _ | .replaced _ _
  | .reaped _ _ _ | .grown _ _ => isTrue (by simp [LeavesNoThread, call])

/-! ## Parents are live -/

/-- Init is live, and so is the parent of every other occupant, which is not the
occupant itself. -/
structure View.Headed (init : Slot) (v : View) : Prop where
  init_live : (v.entry init).life = .live
  parent_live : ∀ s, (v.entry s).life ≠ .free → s ≠ init →
    ∃ p, (v.entry s).parent = some p ∧ p ≠ s ∧ (v.entry p).life = .live

/-- An occupant stays as live or exited as it is, unless it exits or is reaped. -/
theorem life_after (init : Slot) {v : View} {e : Effect} {s : Slot} (enabled : e.Enabled v)
    (used : (v.entry s).life ≠ .free) (stays : e ≠ .left s)
    (unreaped : ∀ thread cur, e ≠ .reaped thread cur s) :
    ((v.after init e).entry s).life = (v.entry s).life := by
  have apart : ∀ np, (v.entry np).life = .free → s ≠ np := by
    rintro np free rfl
    exact used free
  cases e with
  | abandoned np made => simp [View.after, Effect.entries, apart np enabled]
  | forked cur np => simp [View.after, Effect.entries, apart np enabled.2]
  | spawned cur np => simp [View.after, Effect.entries, apart np enabled.2]
  | replaced cur sz =>
    by_cases here : s = cur
    · subst here
      simp [View.after, Effect.entries]
    · simp [View.after, Effect.entries, here]
  | left cur =>
    have here : s ≠ cur := fun same => stays (by rw [same])
    simp [View.after, Effect.entries, here]
  | reaped thread cur z =>
    have here : s ≠ z := fun same => unreaped thread cur (by rw [same])
    simp [View.after, Effect.entries, here]
  | _ => rfl

theorem live_after {init : Slot} {v : View} {e : Effect} {s : Slot} (enabled : e.Enabled v)
    (live : (v.entry s).life = .live) (stays : e ≠ .left s) :
    ((v.after init e).entry s).life = .live := by
  rw [life_after init enabled (by simp [live]) stays, live]
  rintro thread cur rfl
  have gone : (v.entry s).life = .exited := enabled.2.1
  rw [live] at gone
  cases gone

theorem headed_after {init : Slot} {v : View} {e : Effect} (enabled : e.Enabled v)
    (stays : e ≠ .left init) (headed : v.Headed init) : (v.after init e).Headed init := by
  refine ⟨live_after enabled headed.init_live stays, fun s used other => ?_⟩
  cases fate init enabled s used with
  | forked cur call free live entry =>
    have apart : cur ≠ s := by
      rintro rfl
      rw [free] at live
      cases live
    exact ⟨cur, by rw [entry], apart, live_after enabled live (by simp [call])⟩
  | spawned cur call free live entry =>
    have apart : cur ≠ s := by
      rintro rfl
      rw [free] at live
      cases live
    exact ⟨cur, by rw [entry], apart, live_after enabled live (by simp [call])⟩
  | kept old =>
    obtain ⟨p, parent, apart, live⟩ := headed.parent_live s old.used other
    by_cases leaves : e = .left p
    · subst leaves
      exact ⟨init, by simp [View.after, Effect.entries, parent], other.symm,
        live_after enabled headed.init_live stays⟩
    · refine ⟨p, ?_, apart, live_after enabled live leaves⟩
      rcases old.parent with same | ⟨cur, call, child⟩
      · rw [same, parent]
      · rw [parent, Option.some.injEq] at child
        exact absurd (child ▸ call) leaves

/-- Init does not get past the panic in `exit`. -/
theorem init_stays {t t' : Table} {e : Event} (h : step t e = some t') :
    effect t e ≠ .left t.initproc := by
  have panics : leave t t.initproc = none := by simp [leave]
  intro call
  rw [step] at h
  split at h
  case isFalse => cases h
  cases e with
  | exit cur =>
    rw [effect, Effect.left.injEq] at call
    subst call
    simp [act, exit, panics] at h
  | threadExit cur =>
    rw [effect, Effect.left.injEq] at call
    subst call
    simp [act, threadExit, panics] at h
  | fork cur kstack copy =>
    cases kstack <;> cases copy <;> simp only [effect] at call <;>
      first | cases call | (split at call <;> cases call)
  | threadCreate cur kstack =>
    cases kstack <;> simp only [effect] at call
    · cases call
    · cases first : firstUnused t <;> simp [first] at call
  | exec cur image => cases image <;> cases call
  | wait cur => cases first : found false t cur <;> simp [effect, first] at call
  | threadJoin cur => cases first : found true t cur <;> simp [effect, first] at call
  | sbrk cur n mem =>
    cases grows : growSize (t.proc cur).isthread (t.proc cur).sz n mem <;>
      simp [effect, grows] at call
  | _ => cases call

/-- Init is live, and so are all parents. -/
def Headed (t : Table) : Prop :=
  t.view.Headed t.initproc

theorem step_headed {t t' : Table} {e : Event} (headed : Headed t) (h : step t e = some t') :
    Headed t' := by
  have shows := step_effect h
  rw [Headed, shows.view, shows.initproc]
  exact headed_after shows.enabled (init_stays h) headed

theorem userinit_headed : Headed userinit := by
  refine ⟨rfl, fun s used other => ?_⟩
  have other : s ≠ 0 := other
  simp [userinit, Table.view, other, Proc.blank, Proc.entry, ProcState.life] at used

/-! ## The exact condition -/

/-- `Reapable`, on views. -/
def View.Reapable (init : Slot) (v : View) : Prop :=
  ∀ z, (v.entry z).life = .exited →
    (∃ p, (v.entry z).parent = some p ∧ p ≠ init ∧ (v.entry p).life = .live) ∨
      (v.entry z).isthread = false ∧ (v.entry z).parent = some init

theorem life_exited_iff (st : ProcState) : st.life = .exited ↔ st = .zombie := by
  cases st <;> simp [ProcState.life]

theorem reapable_iff (t : Table) : Reapable t ↔ t.view.Reapable t.initproc := by
  refine forall_congr' fun z => ?_
  simp [Table.view, Proc.entry, life_exited_iff, live_iff, kids]

/-- Exited tasks stay reapable exactly when the effect is not an exit that leaves
a thread to init. -/
theorem reapable_after {init : Slot} {v : View} {e : Effect} (enabled : e.Enabled v)
    (stays : e ≠ .left init) (headed : v.Headed init) (right : v.Reapable init) :
    (v.after init e).Reapable init ↔
      ∀ cur, e = .left cur →
        ((v.entry cur).parent = some init → (v.entry cur).isthread = false) ∧
          ∀ z, (v.entry z).life = .exited → (v.entry z).parent = some cur →
            (v.entry z).isthread = false := by
  constructor
  · -- whoever is left to init is seen by its `wait`
    rintro after cur rfl
    have adopted : ∀ z, ((v.after init (.left cur)).entry z).life = .exited →
        ((v.after init (.left cur)).entry z).parent = some init →
          (v.entry z).isthread = false := by
      intro z gone parent
      rcases after z gone with ⟨p, at_p, other, -⟩ | ⟨flag, -⟩
      · rw [parent, Option.some.injEq] at at_p
        exact absurd at_p.symm other
      · exact flag
    constructor
    · intro parent
      refine adopted cur (by simp [View.after, Effect.entries]) ?_
      simp [View.after, Effect.entries, parent]
    · intro z gone parent
      have other : z ≠ cur := by
        rintro rfl
        have live : (v.entry z).life = .live := enabled
        rw [gone] at live
        cases live
      refine adopted z ?_ (by simp [View.after, Effect.entries, parent])
      simp [View.after, Effect.entries, other, gone]
  · intro clean z gone
    have headed' := headed_after enabled stays headed
    have used : ((v.after init e).entry z).life ≠ .free := by simp [gone]
    have not_init : z ≠ init := by
      rintro rfl
      rw [headed'.init_live] at gone
      cases gone
    obtain ⟨p, parent, -, live⟩ := headed'.parent_live z used not_init
    by_cases adopted : p = init
    · subst adopted
      refine Or.inr ⟨?_, parent⟩
      -- an exited child of init was one before, or this exit has made it one
      cases fate p enabled z used with
      | forked cur call free _ entry => simp [entry] at gone
      | spawned cur call free _ entry => simp [entry] at gone
      | kept old =>
        rw [old.isthread]
        rcases old.exited gone with before | call
        · rcases old.parent with same | ⟨cur, call, child⟩
          · rcases right z before with ⟨q, at_q, other, -⟩ | ⟨flag, -⟩
            · rw [← same, parent, Option.some.injEq] at at_q
              exact absurd at_q.symm other
            · exact flag
          · exact (clean cur call).2 z before child
        · refine (clean z call).1 ?_
          rcases old.parent with same | ⟨cur, call', child⟩
          · rw [← same, parent]
          · -- nobody is its own child
            rw [call, Effect.left.injEq] at call'
            subst call'
            obtain ⟨q, at_q, apart, -⟩ := headed.parent_live z old.used not_init
            rw [child, Option.some.injEq] at at_q
            exact absurd at_q.symm apart
    · exact Or.inl ⟨p, parent, adopted, live⟩

theorem reapable_step {t t' : Table} {e : Event} (headed : Headed t) (right : Reapable t)
    (h : step t e = some t') : Reapable t' ↔ LeavesNoThread t e := by
  have shows := step_effect h
  rw [reapable_iff, shows.view, shows.initproc,
    reapable_after shows.enabled (init_stays h) headed ((reapable_iff t).mp right)]
  simp only [LeavesNoThread, Table.view, Proc.entry, life_exited_iff]

theorem userinit_reapable : Reapable userinit := by
  decide

/-- Exited tasks are reapable all along a run exactly when no exit of it leaves an
exited thread to init. -/
theorem reapable_run_iff {es : List Event} {t : Table} (h : run step userinit es = some t) :
    (∀ pre u, pre <+: es → run step userinit pre = some u → Reapable u) ↔
      Along step LeavesNoThread userinit es :=
  states_iff_along step (fun _ _ _ headed hs => step_headed headed hs)
    (fun _ _ _ headed right hs => reapable_step headed right hs) userinit_headed
    userinit_reapable h

/-! ## Reaping -/

/-- A reapable task is reaped once its parent runs and scans: init by `wait`
alone, another parent by the call that fits the flag. -/
theorem reapable_reaped {t : Table} (right : Reapable t) {z p : Slot}
    (zombie : (t.proc z).state = .zombie) (parent : (t.proc z).parent = some p)
    (running : (t.proc p).state = .running) :
    ∃ thread k t', (p = t.initproc → thread = false) ∧
      run step t (List.replicate k (scanCall thread p)) = some t' ∧
        (t'.proc z).state = .unused := by
  obtain ⟨k, t', done, unused, -⟩ := scan_reaps running
    (Finset.mem_filter.mpr ⟨Finset.mem_univ z, zombie, rfl, parent⟩)
  refine ⟨(t.proc z).isthread, k, t', fun by_init => ?_, done, unused⟩
  rcases right z zombie with ⟨q, at_q, other, -⟩ | selected
  · rw [parent, Option.some.injEq] at at_q
    exact absurd (at_q.symm.trans by_init) other
  · simp only [kids, List.mem_filter, List.mem_finRange, decide_eq_true_eq, true_and] at selected
    exact selected.1

/-- **Which exited tasks stay reapable.**  In all states of a run every exited
task has a live parent other than init or is selected by init's `wait`, exactly
when no `exit` or `thread_exit` of the run leaves an exited thread to init; and
then each is reaped as soon as its parent runs and scans. -/
theorem tasks_stay_reapable {es : List Event} {t : Table}
    (done : run step userinit es = some t) :
    ((∀ pre u, pre <+: es → run step userinit pre = some u → Reapable u) ↔
      Along step LeavesNoThread userinit es) ∧
    (Along step LeavesNoThread userinit es → ∀ z p, (t.proc z).state = .zombie →
      (t.proc z).parent = some p → (t.proc p).state = .running →
        ∃ thread k t', (p = t.initproc → thread = false) ∧
          run step t (List.replicate k (scanCall thread p)) = some t' ∧
            (t'.proc z).state = .unused) := by
  refine ⟨reapable_run_iff done, fun clean z p zombie parent running => ?_⟩
  have right := (reapable_run_iff done).mpr clean es t (List.prefix_refl es) done
  exact reapable_reaped right zombie parent running

/-- Init's child joins its thread before it exits. -/
theorem joined_stays_reapable :
    ∃ t, run step userinit joinedRun = some t ∧
      (∀ pre u, pre <+: joinedRun → run step userinit pre = some u → Reapable u) := by
  obtain ⟨t, done⟩ := Option.isSome_iff_exists.mp
    (by decide +kernel : (run step userinit joinedRun).isSome = true)
  exact ⟨t, done, (tasks_stay_reapable done).1.mpr (by decide +kernel)⟩

/-! ## A lost entry -/

/-- An exited thread that init has adopted. -/
def Orphan (t : Table) (z : Slot) : Prop :=
  (t.proc z).state = .zombie ∧ (t.proc z).isthread = true ∧ (t.proc z).parent = some t.initproc

instance (t : Table) (z : Slot) : Decidable (Orphan t z) :=
  inferInstanceAs (Decidable (_ ∧ _))

theorem effect_reaped_thread {t : Table} {e : Event} {cur s : Slot}
    (call : effect t e = .reaped true cur s) : e = .threadJoin cur := by
  cases e with
  | threadJoin other =>
    cases first : found true t other <;> simp [effect, first] at call
    rw [call.1]
  | wait other => cases first : found false t other <;> simp [effect, first] at call
  | fork other kstack copy =>
    cases kstack <;> cases copy <;> simp only [effect] at call <;>
      first | cases call | (split at call <;> cases call)
  | threadCreate other kstack =>
    cases kstack <;> simp only [effect] at call
    · cases call
    · cases first : firstUnused t <;> simp [first] at call
  | exec other image => cases image <;> cases call
  | sbrk other n mem =>
    cases grows : growSize (t.proc other).isthread (t.proc other).sz n mem <;>
      simp [effect, grows] at call
  | _ => cases call

/-- Nobody but init could reap it, and only by `thread_join`. -/
theorem orphan_step {t t' : Table} {e : Event} {z : Slot} (orphan : Orphan t z)
    (no_join : e ≠ .threadJoin t.initproc) (h : step t e = some t') :
    Orphan t' z ∧ t'.initproc = t.initproc := by
  obtain ⟨zombie, flag, parent⟩ := orphan
  have shows := step_effect h
  have gone : (t.view.entry z).life = .exited := (life_exited_iff _).mpr zombie
  have stays : effect t e ≠ .left z := by
    intro call
    have live := shows.enabled
    rw [call] at live
    simp only [Effect.Enabled, gone] at live
    cases live
  have unreaped : ∀ thread cur, effect t e ≠ .reaped thread cur z := by
    intro thread cur call
    have enabled := shows.enabled
    rw [call] at enabled
    obtain ⟨-, -, flag', parent'⟩ := enabled
    obtain rfl : thread = true := flag'.symm.trans flag
    obtain rfl : cur = t.initproc := Option.some.inj (parent'.symm.trans parent)
    exact no_join (effect_reaped_thread call)
  have life := life_after t.initproc shows.enabled (by simp [gone]) stays unreaped
  rw [gone, ← shows.view] at life
  refine ⟨⟨(life_exited_iff _).mp life, ?_⟩, shows.initproc⟩
  have used : ((t.view.after t.initproc (effect t e)).entry z).life ≠ .free := by
    rw [← shows.view, life]
    decide
  cases fate t.initproc shows.enabled z used with
  | forked cur call free _ entry =>
    rw [gone] at free
    cases free
  | spawned cur call free _ entry =>
    rw [gone] at free
    cases free
  | kept old =>
    have flag' := old.isthread.trans flag
    rw [← shows.view] at flag'
    refine ⟨flag', ?_⟩
    have parent' : (t'.view.entry z).parent = some t'.initproc := by
      rw [shows.view, shows.initproc]
      rcases old.parent with same | ⟨cur, call, child⟩
      · exact same.trans parent
      · rw [call]
        simp [View.after, Effect.entries, child]
    exact parent'

/-- An orphan keeps its entry for ever if init calls nothing but `wait`. -/
theorem orphan_stays {t t' : Table} {es : List Event} {z : Slot} (orphan : Orphan t z)
    (no_join : .threadJoin t.initproc ∉ es) (done : run step t es = some t') : Orphan t' z := by
  induction es generalizing t with
  | nil =>
    cases done
    exact orphan
  | cons e es ih =>
    obtain ⟨u, hu, rest⟩ := (run_cons step).mp done
    rw [List.mem_cons, not_or] at no_join
    obtain ⟨orphan', same⟩ := orphan_step orphan (Ne.symm no_join.1) hu
    exact ih orphan' (same.symm ▸ no_join.2) rest

/-- A child of init makes a thread and exits, then the thread exits. -/
def lostRun : List Event :=
  [.schedule 0, .fork 0 true .done, .schedule 1, .threadCreate 1 true, .exit 1, .schedule 2,
    .threadExit 2]

/-- **An exited thread can be lost**: it is not reapable, and its entry is taken
in every continuation in which init does not call `thread_join`. -/
theorem orphan_lost :
    ∃ t, run step userinit lostRun = some t ∧ ¬ Reapable t ∧ (t.proc 2).state = .zombie ∧
      ∀ es t', .threadJoin t.initproc ∉ es → run step t es = some t' →
        (t'.proc 2).state = .zombie := by
  obtain ⟨t, done, unreapable, orphan⟩ :
      ∃ t, run step userinit lostRun = some t ∧ ¬ Reapable t ∧ Orphan t 2 := by
    refine ⟨_, rfl, ?_⟩
    decide +kernel
  exact ⟨t, done, unreapable, orphan.1,
    fun es t' no_join continued => (orphan_stays orphan no_join continued).1⟩

end BasicOS.Ptable
