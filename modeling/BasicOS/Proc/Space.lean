/-
# BasicOS.Proc.Space — page directories and who still uses them

A thread shares its creator's page directory and nothing counts the users.
`thread_join` leaves the directory alone; `wait` frees the directory of the
child it reaps and `exec` frees the caller's old one, whoever else uses it.

* `space_run_iff`: no live process is on a freed directory, and none is freed
  twice, in all states of a run exactly when each `wait` and `exec` of the run
  frees a directory that no live process needs and that is not freed yet.
* `space_discipline`: a condition on the table alone that is enough.  The
  exited processes that `wait` will reap count as users of their directory.
* `freed_under_thread`: a process whose thread outlives it is reaped, and the
  thread runs on a freed directory.
-/
import BasicOS.Proc.Effect

namespace BasicOS.Ptable

open Function Lib

set_option autoImplicit false

/-- EMBRYO, SLEEPING, RUNNABLE or RUNNING. -/
def Proc.Live (p : Proc) : Prop :=
  p.state ≠ .unused ∧ p.state ≠ .zombie

instance (p : Proc) : Decidable p.Live :=
  inferInstanceAs (Decidable (_ ∧ _))

theorem live_iff (p : Proc) : p.Live ↔ p.entry.life = .live := by
  rcases p with ⟨sz, pgdir, state, pid, parent, chan, killed, isthread⟩
  cases state <;> simp [Proc.Live, Proc.entry, ProcState.life]

/-- No live process has a freed page directory, and none was freed twice. -/
def Safe (t : Table) : Prop :=
  (∀ s, (t.proc s).Live → ∀ g, (t.proc s).pgdir = some g → g ∉ t.freed) ∧ t.freed.Nodup

instance (t : Table) : Decidable (Safe t) :=
  haveI : ∀ s, Decidable (∀ g, (t.proc s).pgdir = some g → g ∉ t.freed) := fun s =>
    inferInstanceAs (Decidable (∀ g ∈ (t.proc s).pgdir, g ∉ t.freed))
  inferInstanceAs (Decidable (_ ∧ _))

/-- What `exec` and `wait` free is not freed yet and no other live process is on
it. -/
def FreesUnused (t : Table) (e : Event) : Prop :=
  match effect t e with
  | .replaced cur _ => ∀ q, q ≠ cur → (t.proc q).Live → (t.proc q).pgdir ≠ (t.proc cur).pgdir
  | .reaped false _ z =>
    (∀ g, (t.proc z).pgdir = some g → g ∉ t.freed) ∧
      ∀ q, (t.proc q).Live → (t.proc q).pgdir ≠ (t.proc z).pgdir
  | _ => True

/-! ## The exact condition -/

/-- Freed directories have been made. -/
def View.FreedMade (v : View) : Prop :=
  ∀ g ∈ v.freed, g < v.nextPgdir

theorem frees_made {v : View} {e : Effect} (enabled : e.Enabled v) (housed : v.Housed) :
    ∀ g ∈ e.frees v, g < v.nextPgdir + e.made := by
  have dir_made : ∀ s, (v.entry s).life ≠ .free → ∀ g ∈ (v.entry s).pgdir.toList,
      g < v.nextPgdir := by
    intro s used g mem
    obtain ⟨g', dir, made⟩ := housed s used
    simp only [dir, Option.toList_some, List.mem_singleton] at mem
    omega
  intro g mem
  cases e with
  | abandoned np made =>
    cases made with
    | false => cases mem
    | true =>
      simp only [Effect.frees, List.mem_singleton] at mem
      simp [Effect.made, mem]
  | wasted =>
    simp only [Effect.frees, List.mem_singleton] at mem
    simp [Effect.made, mem]
  | replaced cur sz =>
    have live : (v.entry cur).life = .live := enabled
    exact Nat.lt_add_right _ (dir_made cur (by simp [live]) g mem)
  | reaped thread cur z =>
    cases thread with
    | true => cases mem
    | false =>
      have exited : (v.entry z).life = .exited := enabled.2.1
      exact Nat.lt_add_right _ (dir_made z (by simp [exited]) g mem)
  | _ => cases mem

theorem frees_nodup (v : View) (e : Effect) : (e.frees v).Nodup := by
  have one : ∀ o : Option Nat, o.toList.Nodup := by
    intro o
    cases o <;> simp
  cases e with
  | abandoned np made => cases made <;> simp [Effect.frees]
  | replaced cur sz => exact one _
  | reaped thread cur z =>
    cases thread with
    | true => simp [Effect.frees]
    | false => exact one _
  | _ => simp [Effect.frees]

theorem freedMade_after {init : Slot} {v : View} {e : Effect} (enabled : e.Enabled v)
    (housed : v.Housed) (freed : v.FreedMade) : (v.after init e).FreedMade := by
  intro g mem
  rcases List.mem_append.mp mem with old | new
  · exact Nat.lt_add_right _ (freed g old)
  · exact frees_made enabled housed g new

/-- `Safe`, on views. -/
def View.Safe (v : View) : Prop :=
  (∀ s, (v.entry s).life = .live → ∀ g, (v.entry s).pgdir = some g → g ∉ v.freed) ∧ v.freed.Nodup

theorem safe_iff (t : Table) : Safe t ↔ t.view.Safe := by
  simp only [Safe, View.Safe, live_iff]
  rfl

/-- The directories that live processes have after an effect were not freed
before it. -/
theorem live_after_unfreed {init : Slot} {v : View} {e : Effect} (enabled : e.Enabled v)
    (freed : v.FreedMade) (safe : v.Safe) {s : Slot} {g : Nat}
    (live : ((v.after init e).entry s).life = .live)
    (dir : ((v.after init e).entry s).pgdir = some g) : g ∉ v.freed := by
  have fresh : v.nextPgdir ∉ v.freed := fun mem => Nat.lt_irrefl _ (freed _ mem)
  cases fate init enabled s (by simp [live]) with
  | forked cur call free live' entry =>
    rw [entry] at dir
    cases dir
    exact fresh
  | spawned cur call free live' entry =>
    rw [entry] at dir
    exact safe.1 cur live' g dir
  | kept old =>
    rcases old.pgdir with same | ⟨sz, call, -, new⟩
    · exact safe.1 s (old.life live) g (same ▸ dir)
    · rw [new] at dir
      cases dir
      exact fresh

/-- An effect keeps the view safe exactly when what it frees is not freed yet
and no live process is on it afterwards. -/
theorem safe_after {init : Slot} {v : View} {e : Effect} (enabled : e.Enabled v)
    (freed : v.FreedMade) (safe : v.Safe) :
    (v.after init e).Safe ↔ ∀ g ∈ e.frees v, g ∉ v.freed ∧
      ∀ s, ((v.after init e).entry s).life = .live →
        ((v.after init e).entry s).pgdir ≠ some g := by
  constructor
  · rintro ⟨apart, nodup⟩ g mem
    obtain ⟨-, -, disjoint⟩ := List.nodup_append.mp nodup
    refine ⟨fun old => disjoint g old g mem rfl, fun s live dir => ?_⟩
    exact apart s live g dir (List.mem_append_right _ mem)
  · intro frees
    refine ⟨fun s live g dir mem => ?_, List.nodup_append.mpr ⟨safe.2, frees_nodup v e, ?_⟩⟩
    · rcases List.mem_append.mp mem with old | new
      · exact live_after_unfreed enabled freed safe live dir old
      · exact (frees g new).2 s live dir
    · rintro g old _ new rfl
      exact (frees g new).1 old

theorem mem_toList_some {o : Option Nat} {g : Nat} : g ∈ o.toList ↔ o = some g := by
  cases o <;> simp [eq_comm]

/-- A directory that is made and given up at once is nobody's. -/
theorem fresh_unused {init : Slot} {v : View} {e : Effect} (enabled : e.Enabled v)
    (housed : v.Housed) (freed : v.FreedMade) (frees : e.frees v = [v.nextPgdir])
    (quiet : ∀ cur np sz, e ≠ .forked cur np ∧ e ≠ .replaced cur sz) :
    ∀ g ∈ e.frees v, g ∉ v.freed ∧
      ∀ s, ((v.after init e).entry s).life = .live →
        ((v.after init e).entry s).pgdir ≠ some g := by
  intro g mem
  rw [frees, List.mem_singleton] at mem
  subst mem
  have old : ∀ s, (v.entry s).life ≠ .free → (v.entry s).pgdir ≠ some v.nextPgdir := by
    intro s used dir
    obtain ⟨g, dir', made⟩ := housed s used
    rw [dir] at dir'
    cases dir'
    exact Nat.lt_irrefl _ made
  refine ⟨fun mem => Nat.lt_irrefl _ (freed _ mem), fun s live dir => ?_⟩
  cases fate init enabled s (by simp [live]) with
  | forked cur call free live' entry => exact (quiet cur s 0).1 call
  | spawned cur call free live' entry =>
    rw [entry] at dir
    exact old cur (by simp [live']) dir
  | kept occupant =>
    rcases occupant.pgdir with same | ⟨sz, call, -, -⟩
    · exact old s occupant.used (same ▸ dir)
    · exact (quiet s s sz).2 call

theorem safe_step {t t' : Table} {e : Event} (housed : t.view.Housed) (freed : t.view.FreedMade)
    (safe : Safe t) (h : step t e = some t') : Safe t' ↔ FreesUnused t e := by
  have shows := step_effect h
  have enabled := shows.enabled
  rw [safe_iff] at safe ⊢
  rw [shows.view, safe_after enabled freed safe]
  unfold FreesUnused
  cases call : effect t e with
  | abandoned np made =>
    rw [call] at enabled
    cases made with
    | false => simp [Effect.frees]
    | true => simpa using fresh_unused enabled housed freed rfl (by simp)
  | wasted =>
    rw [call] at enabled
    simpa using fresh_unused enabled housed freed rfl (by simp)
  | replaced cur sz =>
    rw [call] at enabled
    have live : (t.view.entry cur).life = .live := enabled
    obtain ⟨g, dir, made⟩ := housed cur (by simp [live])
    have dir' : (t.proc cur).pgdir = some g := dir
    simp only [Effect.frees, dir, Option.toList_some, List.mem_singleton, forall_eq, live_iff,
      dir']
    constructor
    · rintro ⟨-, others⟩ q other alive
      have same : (t.view.after t.initproc (.replaced cur sz)).entry q = t.view.entry q :=
        update_of_ne other _ _
      have apart := others q (by rw [same]; exact alive)
      rwa [same] at apart
    · intro others
      refine ⟨safe.1 cur live g dir, fun s alive => ?_⟩
      by_cases here : s = cur
      · subst here
        simp only [View.after, Effect.entries, update_self, ne_eq, Option.some.injEq]
        omega
      · simp only [View.after, Effect.entries, update_of_ne here] at alive ⊢
        exact others s here alive
  | reaped thread cur z =>
    rw [call] at enabled
    cases thread with
    | true => simp [Effect.frees]
    | false =>
      have exited : (t.view.entry z).life = .exited := enabled.2.1
      obtain ⟨g, dir, -⟩ := housed z (by simp [exited])
      have dir' : (t.proc z).pgdir = some g := dir
      simp only [Effect.frees, dir, Option.toList_some, List.mem_singleton, forall_eq,
        live_iff, dir', Option.some.injEq, forall_eq']
      refine and_congr_right fun _ => ⟨fun others q alive => ?_, fun others s alive => ?_⟩
      · have other : q ≠ z := by
          rintro rfl
          cases alive.symm.trans exited
        have same : (t.view.after t.initproc (.reaped false cur z)).entry q = t.view.entry q :=
          update_of_ne other _ _
        have apart := others q (by rw [same]; exact alive)
        rwa [same] at apart
      · by_cases here : s = z
        · subst here
          simp [View.after, Effect.entries] at alive
        · simp only [View.after, Effect.entries, update_of_ne here] at alive ⊢
          exact others s alive
  | _ => simp [Effect.frees]

/-- What holds of the directories of every table. -/
def Sound (t : Table) : Prop :=
  t.view.Housed ∧ t.view.FreedMade

theorem step_sound {t t' : Table} {e : Event} (sound : Sound t) (h : step t e = some t') :
    Sound t' := by
  have shows := step_effect h
  unfold Sound
  rw [shows.view]
  exact ⟨after_housed shows.enabled sound.1,
    freedMade_after shows.enabled sound.1 sound.2⟩

theorem userinit_sound : Sound userinit :=
  ⟨userinit_housed, by simp [View.FreedMade, userinit]⟩

theorem userinit_safe : Safe userinit :=
  ⟨by simp [userinit], by simp [userinit]⟩

theorem space_run_iff {es : List Event} {t : Table} (h : run step userinit es = some t) :
    (∀ pre u, pre <+: es → run step userinit pre = some u → Safe u) ↔
      Along step FreesUnused userinit es :=
  states_iff_along step (fun _ _ _ sound hs => step_sound sound hs)
    (fun _ _ _ sound safe hs => safe_step sound.1 sound.2 safe hs) userinit_sound userinit_safe h

/-! ## A discipline that is enough -/

/-- An exited process that `wait` will reap, directory and all. -/
def Proc.Due (p : Proc) : Prop :=
  p.state = .zombie ∧ p.isthread = false

instance (p : Proc) : Decidable p.Due :=
  inferInstanceAs (Decidable (_ ∧ _))

/-- `exec` replaces a directory that nobody else is on or due to give back, and
`wait` reaps a process whose directory no live process is on. -/
def Alone (t : Table) (e : Event) : Prop :=
  match effect t e with
  | .replaced cur _ => ∀ q, q ≠ cur → (t.proc q).Live ∨ (t.proc q).Due →
      (t.proc q).pgdir ≠ (t.proc cur).pgdir
  | .reaped false _ z => ∀ q, (t.proc q).Live → (t.proc q).pgdir ≠ (t.proc z).pgdir
  | _ => True

instance (t : Table) (e : Event) : Decidable (Alone t e) :=
  match call : effect t e with
  | .replaced cur _ =>
    decidable_of_iff (∀ q, q ≠ cur → (t.proc q).Live ∨ (t.proc q).Due →
      (t.proc q).pgdir ≠ (t.proc cur).pgdir) (by simp only [Alone, call])
  | .reaped false _ z =>
    decidable_of_iff (∀ q, (t.proc q).Live → (t.proc q).pgdir ≠ (t.proc z).pgdir)
      (by simp only [Alone, call])
  | .idle | .abandoned _ _ | .wasted | .spawned _ _ | .forked _ _ | .left _ | .reaped true _ _
  | .grown _ _ => isTrue (by simp only [Alone, call])

def Entry.due (en : Entry) : Prop :=
  en.life = .exited ∧ en.isthread = false

theorem due_iff (p : Proc) : p.Due ↔ p.entry.due := by
  rcases p with ⟨sz, pgdir, state, pid, parent, chan, killed, isthread⟩
  cases state <;> simp [Proc.Due, Entry.due, Proc.entry, ProcState.life]

/-- Processes due to be reaped still own their directory, and no two processes
without the flag share one. -/
structure View.Owned (v : View) : Prop where
  due : ∀ s, (v.entry s).due → ∀ g, (v.entry s).pgdir = some g → g ∉ v.freed
  apart : ∀ r s, r ≠ s → (v.entry r).life ≠ .free → (v.entry s).life ≠ .free →
    (v.entry r).isthread = false → (v.entry s).isthread = false →
    (v.entry r).pgdir ≠ (v.entry s).pgdir

theorem alone_frees {t : Table} {e : Event} (enabled : (effect t e).Enabled t.view)
    (owned : t.view.Owned) (alone : Alone t e) : FreesUnused t e := by
  unfold Alone at alone
  unfold FreesUnused
  cases call : effect t e with
  | replaced cur sz =>
    simp only [call] at alone ⊢
    exact fun q other live => alone q other (.inl live)
  | reaped thread cur z =>
    cases thread with
    | true => trivial
    | false =>
      simp only [call] at enabled alone ⊢
      exact ⟨owned.due z ⟨enabled.2.1, enabled.2.2.1⟩, alone⟩
  | _ => trivial

/-- What `Alone` says of the processes that are due. -/
theorem alone_due {t : Table} {e : Event} (alone : Alone t e) {cur s : Slot} {sz : UInt32}
    (call : effect t e = .replaced cur sz) (other : s ≠ cur) (due : (t.view.entry s).due) :
    (t.view.entry s).pgdir ≠ (t.view.entry cur).pgdir := by
  simp only [Alone, call] at alone
  exact alone s other (.inr ((due_iff _).mpr due))

/-- An occupant without the flag has its old directory or a new one. -/
theorem flagless_dir {init : Slot} {v : View} {e : Effect} (enabled : e.Enabled v)
    {s : Slot} (used : ((v.after init e).entry s).life ≠ .free)
    (flag : ((v.after init e).entry s).isthread = false) :
    ((v.entry s).life ≠ .free ∧ (v.entry s).isthread = false ∧
        ((v.after init e).entry s).pgdir = (v.entry s).pgdir) ∨
      (((v.after init e).entry s).pgdir = some v.nextPgdir ∧
        ((∃ cur, e = .forked cur s) ∨ ∃ sz, e = .replaced s sz)) := by
  cases fate init enabled s used with
  | forked cur call free live entry => exact .inr ⟨by rw [entry], .inl ⟨cur, call⟩⟩
  | spawned cur call free live entry =>
    rw [entry] at flag
    cases flag
  | kept old =>
    rcases old.pgdir with same | ⟨sz, call, -, new⟩
    · exact .inl ⟨old.used, old.isthread ▸ flag, same⟩
    · exact .inr ⟨new, .inr ⟨sz, call⟩⟩

theorem owned_step {t t' : Table} {e : Event} (sound : Sound t) (safe : Safe t)
    (owned : t.view.Owned) (alone : Alone t e) (h : step t e = some t') : t'.view.Owned := by
  have shows := step_effect h
  have enabled := shows.enabled
  rw [safe_iff] at safe
  rw [shows.view]
  constructor
  · intro s due g dir mem
    cases fate t.initproc enabled s (by simp [due.1]) with
    | forked cur call free live entry =>
      rw [entry] at due
      cases due.1
    | spawned cur call free live entry =>
      rw [entry] at due
      cases due.1
    | kept old =>
      have used := old.used
      rcases old.exited due.1 with exited | left
      · have due' : (t.view.entry s).due := ⟨exited, old.isthread ▸ due.2⟩
        have dir' : (t.view.entry s).pgdir = some g := by
          rcases old.pgdir with same | ⟨sz, -, live, -⟩
          · exact same ▸ dir
          · cases exited.symm.trans live
        rcases List.mem_append.mp mem with before | now
        · exact owned.due s due' g dir' before
        · -- what is freed now belongs to somebody else
          obtain ⟨g', dir'', made⟩ := sound.1 s used
          obtain rfl : g = g' := Option.some.inj (dir'.symm.trans dir'')
          cases call : effect t e with
          | abandoned np wasted =>
            rw [call] at now
            cases wasted with
            | false => cases now
            | true =>
              simp only [Effect.frees, List.mem_singleton] at now
              omega
          | wasted =>
            rw [call] at now
            simp only [Effect.frees, List.mem_singleton] at now
            omega
          | replaced cur sz =>
            rw [call] at now enabled
            have other : s ≠ cur := by
              rintro rfl
              cases exited.symm.trans enabled
            exact alone_due alone call other due'
              (dir'.trans (mem_toList_some.mp now).symm)
          | reaped thread cur z =>
            rw [call] at now enabled
            cases thread with
            | true => cases now
            | false =>
              have other : s ≠ z := by
                rintro rfl
                have gone := due.1
                rw [call] at gone
                simp [View.after, Effect.entries] at gone
              exact owned.apart s z other used (by simp [enabled.2.1]) due'.2
                enabled.2.2.1 (dir'.trans (mem_toList_some.mp now).symm)
          | _ =>
            rw [call] at now
            cases now
      · rw [left] at enabled mem dir
        simp only [View.after, Effect.frees, List.append_nil] at mem
        exact safe.1 s enabled g dir mem
  · intro r s other usedr useds flagr flags same
    have older : ∀ q, (t.view.entry q).life ≠ .free →
        (t.view.entry q).pgdir ≠ some t.view.nextPgdir := by
      intro q used dir
      obtain ⟨g, dir', made⟩ := sound.1 q used
      rw [dir] at dir'
      cases dir'
      exact Nat.lt_irrefl _ made
    rcases flagless_dir enabled usedr flagr with ⟨used, flag, dir⟩ | ⟨dir, new⟩ <;>
      rcases flagless_dir enabled useds flags with ⟨used', flag', dir'⟩ | ⟨dir', new'⟩
    · rw [dir, dir'] at same
      exact owned.apart r s other used used' flag flag' same
    · rw [dir, dir'] at same
      exact older r used same
    · rw [dir, dir'] at same
      exact older s used' same.symm
    · -- one effect makes one directory, for one entry
      rcases new with ⟨cur, call⟩ | ⟨sz, call⟩ <;> rcases new' with ⟨cur', call'⟩ | ⟨sz', call'⟩
      · exact other (Effect.forked.inj (call.symm.trans call')).2
      · cases call.symm.trans call'
      · cases call.symm.trans call'
      · exact other (Effect.replaced.inj (call.symm.trans call')).1

theorem userinit_owned : userinit.view.Owned := by
  have only : ∀ s, (userinit.view.entry s).life ≠ .free → s = 0 := by
    intro s used
    by_contra here
    simp [userinit, Table.view, here, Proc.blank, Proc.entry, ProcState.life] at used
  constructor
  · intro s due g dir
    simp [userinit]
  · intro r s other usedr useds
    exact absurd ((only r usedr).trans (only s useds).symm) other

theorem space_discipline {es : List Event} {t : Table} (alone : Along step Alone userinit es)
    (h : run step userinit es = some t) : Safe t := by
  refine (run_invariant_along step (I := fun t => Sound t ∧ Safe t ∧ t.view.Owned) ?_
    ⟨userinit_sound, userinit_safe, userinit_owned⟩ alone h).2.1
  rintro s e s' ⟨sound, safe, owned⟩ here hs
  have frees := alone_frees (step_effect hs).enabled owned here
  exact ⟨step_sound sound hs, (safe_step sound.1 sound.2 safe hs).mpr frees,
    owned_step sound safe owned here hs⟩

/-- A child that has joined its thread exits and is reaped. -/
def joinedRun : List Event :=
  [.schedule 0, .fork 0 true .done, .schedule 1, .threadCreate 1 true, .schedule 2,
    .threadExit 2, .threadJoin 1, .exit 1, .wait 0]

/-- A child makes a thread and exits; init reaps the child. -/
def orphanRun : List Event :=
  [.schedule 0, .fork 0 true .done, .schedule 1, .threadCreate 1 true, .exit 1, .wait 0]

end BasicOS.Ptable
