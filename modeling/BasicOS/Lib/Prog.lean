/-
# BasicOS.Lib.Prog — stateful programs that may stop with an error

A `Prog σ ε α` reads and writes a state `σ`, returns an `α`, or stops with an
`ε`.  `wp m Q E s` says what one run of `m` from `s` does: it returns a value
and a state in `Q`, or it stops with an error in `E`.  Nothing here depends on
what the state is.  A specification of a program is one implication into its
`wp`; `wp_bind` chains them, so that a caller never unfolds a callee.
-/
import Mathlib.Algebra.GroupWithZero.Nat
import Mathlib.Tactic.Common

namespace BasicOS.Lib

set_option autoImplicit false

abbrev Prog (σ ε α : Type) := StateT σ (Except ε) α

namespace Prog

variable {σ ε α β : Type}

/-- One run of `m` from `s` ends in `Q`, or stops with an error in `E`. -/
def wp (m : Prog σ ε α) (Q : α → σ → Prop) (E : ε → Prop) (s : σ) : Prop :=
  match m s with
  | .ok (a, s') => Q a s'
  | .error e => E e

theorem wp_iff {m : Prog σ ε α} {Q : α → σ → Prop} {E : ε → Prop} {s : σ} :
    wp m Q E s ↔ (∀ a s', m s = .ok (a, s') → Q a s') ∧ (∀ e, m s = .error e → E e) := by
  unfold wp
  cases h : m s with
  | ok r =>
    obtain ⟨a, s'⟩ := r
    simp
  | error e => simp

theorem wp_ok {m : Prog σ ε α} {Q : α → σ → Prop} {E : ε → Prop} {s s' : σ} {a : α}
    (h : wp m Q E s) (run : m s = .ok (a, s')) : Q a s' :=
  (wp_iff.mp h).1 a s' run

theorem wp_error {m : Prog σ ε α} {Q : α → σ → Prop} {E : ε → Prop} {s : σ} {e : ε}
    (h : wp m Q E s) (run : m s = .error e) : E e :=
  (wp_iff.mp h).2 e run

theorem wp_of_run {m : Prog σ ε α} {Q : α → σ → Prop} {E : ε → Prop} {s s' : σ} {a : α}
    (run : m s = .ok (a, s')) (h : Q a s') : wp m Q E s := by
  simpa [wp, run] using h

theorem wp_mono {m : Prog σ ε α} {Q Q' : α → σ → Prop} {E E' : ε → Prop} {s : σ}
    (h : wp m Q E s) (hQ : ∀ a s', Q a s' → Q' a s') (hE : ∀ e, E e → E' e) :
    wp m Q' E' s := by
  rw [wp_iff] at h ⊢
  exact ⟨fun a s' run => hQ a s' (h.1 a s' run), fun e run => hE e (h.2 e run)⟩

/-- Consequence with the error side unchanged. -/
theorem wp_post {m : Prog σ ε α} {Q Q' : α → σ → Prop} {E : ε → Prop} {s : σ}
    (h : wp m Q E s) (hQ : ∀ a s', Q a s' → Q' a s') : wp m Q' E s :=
  wp_mono h hQ fun _ he => he

theorem wp_congr {m n : Prog σ ε α} {Q : α → σ → Prop} {E : ε → Prop} {s : σ}
    (same : m s = n s) (h : wp n Q E s) : wp m Q E s := by
  rwa [wp, same]

/-- Two specifications of one run hold together. -/
theorem wp_and {m : Prog σ ε α} {Q Q' : α → σ → Prop} {E E' : ε → Prop} {s : σ}
    (h : wp m Q E s) (h' : wp m Q' E' s) :
    wp m (fun a s' => Q a s' ∧ Q' a s') (fun e => E e ∧ E' e) s := by
  rw [wp_iff] at h h' ⊢
  exact ⟨fun a s' run => ⟨h.1 a s' run, h'.1 a s' run⟩, fun e run => ⟨h.2 e run, h'.2 e run⟩⟩

/-- A program stops with an error or returns. -/
theorem wp_cases {m : Prog σ ε α} {Q : α → σ → Prop} {E : ε → Prop} {s : σ} (spec : wp m Q E s) :
    (∃ e, m s = .error e ∧ E e) ∨ ∃ a s', m s = .ok (a, s') ∧ Q a s' := by
  obtain ⟨returned, stopped⟩ := wp_iff.mp spec
  cases ran : m s with
  | error e => exact .inl ⟨e, rfl, stopped e ran⟩
  | ok r => exact .inr ⟨r.1, r.2, rfl, returned r.1 r.2 ran⟩

/-- A run that no error is allowed to stop returns. -/
theorem wp_returns {m : Prog σ ε α} {Q : α → σ → Prop} {s : σ} (h : wp m Q (fun _ => False) s) :
    ∃ a s', m s = .ok (a, s') ∧ Q a s' := by
  unfold wp at h
  cases done : m s with
  | ok r =>
    rw [done] at h
    exact ⟨r.1, r.2, rfl, h⟩
  | error e =>
    rw [done] at h
    exact h.elim

/-- What holds of every value and state holds of those a run ends with. -/
theorem wp_any {m : Prog σ ε α} {Q : α → σ → Prop} {s : σ} (all : ∀ a s', Q a s') :
    wp m Q (fun _ => True) s :=
  wp_iff.mpr ⟨fun a s' _ => all a s', fun _ _ => trivial⟩

@[simp] theorem wp_pure (a : α) (Q : α → σ → Prop) (E : ε → Prop) (s : σ) :
    wp (pure a : Prog σ ε α) Q E s ↔ Q a s :=
  Iff.rfl

@[simp] theorem wp_throw (e : ε) (Q : α → σ → Prop) (E : ε → Prop) (s : σ) :
    wp (throw e : Prog σ ε α) Q E s ↔ E e :=
  Iff.rfl

@[simp] theorem wp_get (Q : σ → σ → Prop) (E : ε → Prop) (s : σ) :
    wp (get : Prog σ ε σ) Q E s ↔ Q s s :=
  Iff.rfl

@[simp] theorem wp_set (t : σ) (Q : PUnit → σ → Prop) (E : ε → Prop) (s : σ) :
    wp (set t : Prog σ ε PUnit) Q E s ↔ Q ⟨⟩ t :=
  Iff.rfl

@[simp] theorem wp_modify (f : σ → σ) (Q : PUnit → σ → Prop) (E : ε → Prop) (s : σ) :
    wp (modify f : Prog σ ε PUnit) Q E s ↔ Q ⟨⟩ (f s) :=
  Iff.rfl

@[simp] theorem wp_bind (m : Prog σ ε α) (f : α → Prog σ ε β) (Q : β → σ → Prop)
    (E : ε → Prop) (s : σ) :
    wp (m >>= f) Q E s ↔ wp m (fun a s' => wp (f a) Q E s') E s := by
  unfold wp
  show (match (m s >>= fun p => f p.1 p.2) with
    | .ok (a, s') => Q a s'
    | .error e => E e) ↔ _
  cases m s with
  | ok r => rfl
  | error e => rfl

/-- The rule of composition. -/
theorem wp_seq {m : Prog σ ε α} {f : α → Prog σ ε β} {Q : α → σ → Prop} {R : β → σ → Prop}
    {E : ε → Prop} {s : σ} (first : wp m Q E s) (rest : ∀ a s', Q a s' → wp (f a) R E s') :
    wp (m >>= f) R E s :=
  (wp_bind m f R E s).mpr (wp_post first rest)

/-- The same, where the first program stops for fewer reasons. -/
theorem wp_seq_mono {m : Prog σ ε α} {f : α → Prog σ ε β} {Q : α → σ → Prop}
    {R : β → σ → Prop} {E E' : ε → Prop} {s : σ} (first : wp m Q E s) (stops : ∀ e, E e → E' e)
    (rest : ∀ a s', Q a s' → wp (f a) R E' s') : wp (m >>= f) R E' s :=
  (wp_bind m f R E' s).mpr (wp_mono first rest stops)

theorem wp_seq_sure {m : Prog σ ε α} {f : α → Prog σ ε β} {Q : α → σ → Prop}
    {R : β → σ → Prop} {E : ε → Prop} {s : σ} (first : wp m Q (fun _ => False) s)
    (rest : ∀ a s', Q a s' → wp (f a) R E s') : wp (m >>= f) R E s :=
  wp_seq_mono first (fun _ no => no.elim) rest

theorem wp_ite {c : Prop} [Decidable c] {m n : Prog σ ε α} {Q : α → σ → Prop}
    {E : ε → Prop} {s : σ} (pos : c → wp m Q E s) (neg : ¬c → wp n Q E s) :
    wp (if c then m else n) Q E s := by
  split
  · exact pos ‹_›
  · exact neg ‹_›

/-! ## Runs that return, by equations -/

theorem run_bind {m : Prog σ ε α} {f : α → Prog σ ε β} {s s' : σ} {a : α}
    (run : m s = .ok (a, s')) : (m >>= f) s = f a s' := by
  show (m s >>= fun p => f p.1 p.2) = _
  rw [run]
  rfl

theorem run_get {f : σ → Prog σ ε β} {s : σ} : (get >>= f) s = f s s := rfl

theorem run_bind_error {m : Prog σ ε α} {f : α → Prog σ ε β} {s : σ} {e : ε}
    (run : m s = .error e) : (m >>= f) s = .error e := by
  show (m s >>= fun p => f p.1 p.2) = _
  rw [run]
  rfl

/-- Only what `m` can return matters to what comes after it. -/
theorem bind_congr_of_wp {m : Prog σ ε α} {f g : α → Prog σ ε β} {P : α → Prop} {s : σ}
    (returns : wp m (fun a _ => P a) (fun _ => True) s) (same : ∀ a, P a → f a = g a) :
    (m >>= f) s = (m >>= g) s := by
  cases done : m s with
  | error e => rw [run_bind_error done, run_bind_error done]
  | ok r =>
    obtain ⟨a, s'⟩ := r
    rw [run_bind done, run_bind done, same a (wp_ok returns done)]

theorem run_bind_ok {m : Prog σ ε α} {f : α → Prog σ ε β} {s t : σ} {b : β}
    (run : (m >>= f) s = .ok (b, t)) : ∃ a s', m s = .ok (a, s') ∧ f a s' = .ok (b, t) := by
  change (m s >>= fun p => f p.1 p.2) = _ at run
  cases h : m s with
  | error e => rw [h] at run; cases run
  | ok r =>
    obtain ⟨a, s'⟩ := r
    rw [h] at run
    exact ⟨a, s', rfl, run⟩

end Prog

end BasicOS.Lib
