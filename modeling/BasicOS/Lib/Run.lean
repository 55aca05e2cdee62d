/-
# BasicOS.Lib.Run — runs of a labelled step function

A system is a partial step function on states, labelled by actions.  `run`
executes a list of actions; `Along P` says that `P` holds of every state and
action the run meets.  An invariant is proved once per step (`run_invariant`),
also when only the steps of one kind of run keep it (`run_invariant_along`).
`run_simulation` lifts a matching of steps of two systems to their runs.
-/
import Mathlib.Algebra.GroupWithZero.Nat
import Mathlib.Tactic.Common

namespace BasicOS.Lib

set_option autoImplicit false

/-! ## The index types of small runs -/

instance neZero_one : NeZero 1 := ⟨by decide⟩
instance neZero_two : NeZero 2 := ⟨by decide⟩
instance neZero_three : NeZero 3 := ⟨by decide⟩

section Runs

variable {S A : Type} (step : S → A → Option S)

/-- Execute the actions in order; `none` when one of them is not enabled. -/
def run : S → List A → Option S
  | s, [] => some s
  | s, a :: as => (step s a).bind fun s' => run s' as

/-- `P` holds of every state and action met while executing the actions. -/
def Along (P : S → A → Prop) : S → List A → Prop
  | _, [] => True
  | s, a :: as => P s a ∧ ∀ s', step s a = some s' → Along P s' as

/-- Along a concrete list of actions, `P` is checked by running them. -/
def decidableAlong (P : S → A → Prop) [∀ s a, Decidable (P s a)] :
    (s : S) → (as : List A) → Decidable (Along step P s as)
  | _, [] => isTrue trivial
  | s, a :: as =>
    match next : step s a with
    | none => decidable_of_iff (P s a) ⟨fun h => ⟨h, by simp [next]⟩, fun h => h.1⟩
    | some s' =>
      have := decidableAlong P s' as
      decidable_of_iff (P s a ∧ Along step P s' as)
        ⟨fun h => ⟨h.1, by simpa [next] using h.2⟩, fun h => ⟨h.1, h.2 s' next⟩⟩

instance (P : S → A → Prop) [∀ s a, Decidable (P s a)] (s : S) (as : List A) :
    Decidable (Along step P s as) :=
  decidableAlong step P s as

@[simp] theorem run_nil (s : S) : run step s [] = some s := rfl

theorem run_cons {s t : S} {a : A} {as : List A} :
    run step s (a :: as) = some t ↔ ∃ s', step s a = some s' ∧ run step s' as = some t := by
  simp only [run, Option.bind_eq_some_iff]

theorem run_append {s t : S} {as bs : List A} :
    run step s (as ++ bs) = some t ↔ ∃ s', run step s as = some s' ∧ run step s' bs = some t := by
  induction as generalizing s with
  | nil => simp
  | cons a as ih =>
    simp only [List.cons_append, run_cons, ih]
    constructor
    · rintro ⟨u, hu, v, hv, hw⟩
      exact ⟨v, ⟨u, hu, hv⟩, hw⟩
    · rintro ⟨v, ⟨u, hu, hv⟩, hw⟩
      exact ⟨u, hu, v, hv, hw⟩

theorem along_append {P : S → A → Prop} {s : S} {as bs : List A} :
    Along step P s (as ++ bs) ↔
      Along step P s as ∧ ∀ t, run step s as = some t → Along step P t bs := by
  induction as generalizing s with
  | nil => simp [Along]
  | cons a as ih =>
    simp only [List.cons_append, Along, ih, run_cons]
    constructor
    · rintro ⟨ha, rest⟩
      exact ⟨⟨ha, fun u hu => (rest u hu).1⟩, fun t ⟨u, hu, ht⟩ => (rest u hu).2 t ht⟩
    · rintro ⟨⟨ha, rest⟩, after⟩
      exact ⟨ha, fun u hu => ⟨rest u hu, fun t ht => after t ⟨u, hu, ht⟩⟩⟩

theorem along_mono {P Q : S → A → Prop} (weaken : ∀ s a, P s a → Q s a) {s : S} {as : List A}
    (h : Along step P s as) : Along step Q s as := by
  induction as generalizing s with
  | nil => trivial
  | cons a as ih => exact ⟨weaken s a h.1, fun s' hs => ih (h.2 s' hs)⟩

/-- A condition on the actions only. -/
theorem along_of_all {P : A → Prop} {s : S} {as : List A} (all : ∀ a ∈ as, P a) :
    Along step (fun _ a => P a) s as := by
  induction as generalizing s with
  | nil => trivial
  | cons a as ih =>
    exact ⟨all a List.mem_cons_self, fun s' _ => ih fun b mem => all b (List.mem_cons_of_mem _ mem)⟩

/-- On a run that goes through, a condition may be replaced by one that enabled
steps cannot tell from it. -/
theorem along_congr {P Q : S → A → Prop} (same : ∀ s a s', step s a = some s' → (P s a ↔ Q s a))
    {s t : S} {as : List A} (done : run step s as = some t) :
    Along step P s as ↔ Along step Q s as := by
  induction as generalizing s with
  | nil => rfl
  | cons a as ih =>
    obtain ⟨s', hs, rest⟩ := (run_cons step).mp done
    refine and_congr (same s a s' hs) (forall_congr' fun r => forall_congr' fun hr => ?_)
    obtain rfl : s' = r := Option.some.inj (hs.symm.trans hr)
    exact ih rest

/-- What an invariant implies holds along every run. -/
theorem along_of_invariant {P : S → A → Prop} {I : S → Prop}
    (keep : ∀ s a s', I s → step s a = some s' → I s') (holds : ∀ s a, I s → P s a) {s : S}
    {as : List A} (start : I s) : Along step P s as := by
  induction as generalizing s with
  | nil => trivial
  | cons a as ih => exact ⟨holds s a start, fun s' hs => ih (keep s a s' start hs)⟩

/-- An invariant kept by the steps that meet `P` holds after every run along `P`. -/
theorem run_invariant_along {P : S → A → Prop} {I : S → Prop}
    (keep : ∀ s a s', I s → P s a → step s a = some s' → I s') {s t : S} {as : List A}
    (start : I s) (along : Along step P s as) (done : run step s as = some t) : I t := by
  induction as generalizing s with
  | nil =>
    cases done
    exact start
  | cons a as ih =>
    obtain ⟨s', hs, rest⟩ := (run_cons step).mp done
    exact ih (keep s a s' start along.1 hs) (along.2 s' hs) rest

/-- An invariant kept by every step holds after every run. -/
theorem run_invariant {I : S → Prop} (keep : ∀ s a s', I s → step s a = some s' → I s')
    {s t : S} {as : List A} (start : I s) (done : run step s as = some t) : I t := by
  induction as generalizing s with
  | nil =>
    cases done
    exact start
  | cons a as ih =>
    obtain ⟨s', hs, rest⟩ := (run_cons step).mp done
    exact ih (keep s a s' start hs) rest

/-- Where an invariant survives exactly the steps that meet `P`, the states of a
run all satisfy it exactly when the run is along `P`.  `J` is what holds in
any case. -/
theorem states_iff_along {P : S → A → Prop} {I J : S → Prop}
    (always : ∀ s a s', J s → step s a = some s' → J s')
    (keep : ∀ s a s', J s → I s → step s a = some s' → (I s' ↔ P s a))
    {s t : S} {as : List A} (frame : J s) (start : I s) (done : run step s as = some t) :
    (∀ pre u, pre <+: as → run step s pre = some u → I u) ↔ Along step P s as := by
  induction as generalizing s with
  | nil =>
    refine ⟨fun _ => trivial, fun _ pre u before at_u => ?_⟩
    rw [List.prefix_nil.mp before] at at_u
    cases at_u
    exact start
  | cons a as ih =>
    obtain ⟨s', hs, rest⟩ := (run_cons step).mp done
    have one := keep s a s' frame start hs
    constructor
    · intro all
      have next : I s' := all [a] s' (by simp) (by simp [run, hs])
      refine ⟨one.mp next, fun r hr => ?_⟩
      obtain rfl : s' = r := Option.some.inj (hs.symm.trans hr)
      refine (ih (always s a s' frame hs) next rest).mp fun pre u before at_u => ?_
      exact all (a :: pre) u (List.cons_prefix_cons.mpr ⟨rfl, before⟩)
        ((run_cons step).mpr ⟨s', hs, at_u⟩)
    · rintro ⟨here, after⟩ pre u before at_u
      have next : I s' := one.mpr here
      cases pre with
      | nil =>
        cases at_u
        exact start
      | cons b pre =>
        obtain ⟨rfl, before'⟩ := List.cons_prefix_cons.mp before
        obtain ⟨r, hr, at_u'⟩ := (run_cons step).mp at_u
        obtain rfl : s' = r := Option.some.inj (hs.symm.trans hr)
        exact (ih (always s b s' frame hs) next rest).mpr (after s' hs) pre u before' at_u'

/-- **Forward simulation**: where every step of one system is matched by a step
of another on related states, so is every run. -/
theorem run_simulation {T : Type} {abstract : T → A → Option T} {R : S → T → Prop} {P : A → Prop}
    (sim : ∀ s t a s', R s t → P a → step s a = some s' → ∃ t', abstract t a = some t' ∧ R s' t')
    {s s' : S} {t : T} {as : List A} (related : R s t) (kind : ∀ a ∈ as, P a)
    (done : run step s as = some s') : ∃ t', run abstract t as = some t' ∧ R s' t' := by
  induction as generalizing s t with
  | nil =>
    cases done
    exact ⟨t, rfl, related⟩
  | cons a as ih =>
    obtain ⟨u, hu, rest⟩ := (run_cons step).mp done
    obtain ⟨v, hv, related'⟩ := sim s t a u related (kind a List.mem_cons_self) hu
    obtain ⟨t', ht, final⟩ := ih related' (fun b mem => kind b (List.mem_cons_of_mem _ mem)) rest
    exact ⟨t', (run_cons abstract).mpr ⟨v, hv, ht⟩, final⟩

end Runs

end BasicOS.Lib
