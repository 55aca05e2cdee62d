/-
# BasicOS.Dev.Transparent — the buffer cache keeps its promises

Each call keeps the invariant of `BasicOS.Dev.Bio`, one theorem for each stretch of code
that is one step.

* `bcache_transparent` — the list of buffers is a ring that has every buffer once, a
  block is in one buffer at most, a buffer in use keeps its block, and `bread` returns
  what was last stored.
-/
import BasicOS.Dev.Bio

namespace BasicOS.Bio

open Lib Function

set_option autoImplicit false
set_option linter.unusedSectionVars false

section Invariant

variable {P D : Type} [DecidableEq P] [Fintype P]

/-! ## Steps -/

section Steps

variable {s : Cache P D} {xs : List Buf} {p : P} {b : Buf} {k : Key}

theorem forall_update {pc : P → Pc} {c : Pc} {F : P → Pc → Prop} (here : F p c)
    (elsewhere : ∀ q, q ≠ p → F q (pc q)) (q : P) : F q (update pc p c q) := by
  by_cases same : q = p
  · subst same
    rw [update_self]
    exact here
  · rw [update_of_ne same]
    exact elsewhere q same

theorem assigned_grows (s : Cache P D) (b : Buf) :
    ∀ x, s.assigned x = true → update s.assigned b true x = true := by
  intro x given
  by_cases same : x = b
  · rw [same, update_self]
  · rw [update_of_ne same, given]

/-- A process moves on that is not looking at the buffer. -/
theorem Inv.owned_moves (inv : Inv s xs) {x : Buf} {q : P} (lock : s.lock x = some q)
    (elsewhere : ∀ k, s.pc p ≠ .checking x k) (c : Pc) :
    s.assigned x = true ∧ ((∃ k, update s.pc p c q = .checking x k) ∨ s.valid x = true) := by
  obtain ⟨given, state⟩ := inv.owned x q lock
  refine ⟨given, state.imp_left fun ⟨k, checking⟩ => ⟨k, ?_⟩⟩
  have other : q ≠ p := by
    rintro rfl
    exact elsewhere k checking
  rw [update_of_ne other]
  exact checking

/-- `bget` finds the block in the cache. -/
theorem Inv.hit (inv : Inv s xs) (ready : s.pc p = .ready)
    (found : xs.find? (fun x => s.key x = k) = some b) :
    Inv { s with refcnt := update s.refcnt b (s.refcnt b + 1)
                 assigned := update s.assigned b true
                 pc := update s.pc p (.locking b k) } xs := by
  have key : s.key b = k := by simpa using List.find?_some found
  have grows := assigned_grows s b
  refine ⟨inv.listed, inv.indexed.hit found, fun x => ?_, ?_, ?_, fun x q lock => ?_, inv.changed⟩
  · refine inv.recount none (some b) (by rw [ready]; rfl) rfl (fun x => ?_) x
    by_cases same : x = b
    · simp [same]
    · simp [same, credit_some]
  · have truthful := inv.truthful
    refine ⟨fun x new => ?_, truthful.backed, fun x given valid calm => ?_, fun x given tidy => ?_,
      fun k' out => ?_⟩
    · by_cases same : x = b
      · simp [same] at new
      · exact truthful.blank x (by simpa [same] using new)
    · cases known : s.assigned x with
      | true => exact truthful.current x known valid calm
      | false =>
        rw [(truthful.blank x known).1] at valid
        cases valid
    · by_cases known : s.assigned x = true
      · exact truthful.clean x known tidy
      -- The first of the buffers that were never given out; block 0 is not in the cache.
      · have same : x = b := by
          by_contra other
          exact known (by simpa [other] using given)
        subst same
        refine truthful.uncached _ fun c hc clash => known ?_
        have again := inv.indexed.found c hc
        rw [clash, key, found] at again
        rw [Option.some.inj again]
        exact hc
    · exact truthful.uncached k' fun c hc => out c (grows c hc)
  · refine forall_update ⟨update_self _ _ _, key⟩ fun q _ => ?_
    exact (inv.fits q).frame grows (fun _ _ => rfl) fun _ lock => ⟨lock, id, id⟩
  · obtain ⟨given, state⟩ := inv.owned_moves (p := p) lock (by simp [ready]) (.locking b k)
    exact ⟨grows x given, state⟩

/-- `bget` takes a free buffer for the block. -/
theorem Inv.recycle (inv : Inv s xs) (ready : s.pc p = .ready) (mem : b ∈ xs)
    (absent : ∀ x ∈ xs, s.key x ≠ k) (free : s.refcnt b = 0) (tidy : s.dirty b = false) :
    Inv { s with key := update s.key b k
                 valid := update s.valid b false
                 dirty := update s.dirty b false
                 refcnt := update s.refcnt b 1
                 assigned := update s.assigned b true
                 pc := update s.pc p (.locking b k) } xs := by
  have unlocked := inv.unlocked free
  have grows := assigned_grows s b
  have truthful := inv.truthful
  refine ⟨inv.listed, inv.indexed.recycle mem absent, fun x => ?_, ?_, ?_, fun x q lock => ?_,
    inv.changed⟩
  · refine inv.recount none (some b) (by rw [ready]; rfl) rfl (fun x => ?_) x
    by_cases same : x = b
    · simp [same, free]
    · simp [same, credit_some]
  · refine ⟨fun x new => ?_, fun x dirty => ?_, fun x given valid calm => ?_,
      fun x given tidy' => ?_, fun k' out => ?_⟩
    · by_cases same : x = b
      · simp [same] at new
      · simp only [update_of_ne same] at new ⊢
        exact truthful.blank x new
    · by_cases same : x = b
      · simp [same] at dirty
      · simp only [update_of_ne same] at dirty ⊢
        exact truthful.backed x dirty
    · by_cases same : x = b
      · simp [same] at valid
      · simp only [update_of_ne same] at given valid ⊢
        exact truthful.current x given valid calm
    · by_cases same : x = b
      · simp only [same, update_self]
        exact truthful.uncached k fun c hc => absent c (inv.indexed.mem hc)
      · simp only [update_of_ne same] at given tidy' ⊢
        exact truthful.clean x given tidy'
    · by_cases old : s.assigned b = true ∧ s.key b = k'
      · rw [← old.2]
        exact truthful.clean b old.1 tidy
      · refine truthful.uncached k' fun c hc clash => ?_
        have other : c ≠ b := by
          rintro rfl
          exact old ⟨hc, clash⟩
        refine out c (grows c hc) ?_
        simp only [update_of_ne other]
        exact clash
  · refine forall_update ⟨update_self _ _ _, update_self _ _ _⟩ fun q _ => ?_
    refine (inv.fits q).frame grows (fun x here => update_of_ne ?_ _ _) fun x lock => ?_
    · rintro rfl
      have pos := inv.referenced here
      omega
    · have other : x ≠ b := by
        rintro rfl
        rw [unlocked] at lock
        cases lock
      exact ⟨lock, id, fun valid => (update_of_ne other _ _).trans valid⟩
  · have away : x ≠ b := by
      rintro rfl
      rw [unlocked] at lock
      cases lock
    obtain ⟨given, state⟩ := inv.owned_moves (p := p) lock (by simp [ready]) (.locking b k)
    exact ⟨grows x given, state.imp_right fun valid => (update_of_ne away _ _).trans valid⟩

/-- A process that is in no call works on a buffer that it holds. -/
theorem Inv.fits_alone (inv : Inv s xs) (ready : s.pc p = .ready) (lock : s.lock b = some p)
    {s' : Cache P D} (given : s'.assigned = s.assigned) (keys : s'.key = s.key)
    (locks : s'.lock = s.lock)
    (away : ∀ x, x ≠ b → s'.modified x = s.modified x ∧ s'.valid x = s.valid x) (q : P) :
    Fits s' q (s.pc q) := by
  by_cases same : q = p
  · rw [same, ready]
    trivial
  · refine (inv.fits q).frame (fun x => by rw [given]; exact id) (fun x _ => by rw [keys]) ?_
    intro x lock'
    have other : x ≠ b := by
      rintro rfl
      exact same (Option.some.inj (lock'.symm.trans lock))
    rw [locks, (away x other).1, (away x other).2]
    exact ⟨lock', id, id⟩

/-- One buffer changes, and what is on the disk and stored for its block. -/
theorem Truthful.change {s' : Cache P D} (h : Truthful s)
    (indexed : Indexed s.key s.assigned xs) (given : s.assigned b = true)
    (keys : s'.key = s.key) (assigned : s'.assigned = s.assigned)
    (away : ∀ x, x ≠ b → s'.valid x = s.valid x ∧ s'.dirty x = s.dirty x ∧
      s'.modified x = s.modified x ∧ s'.data x = s.data x)
    (others : ∀ k, k ≠ s.key b → s'.disk k = s.disk k ∧ s'.stored k = s.stored k)
    (backed : s'.dirty b = true → s'.valid b = true)
    (current : s'.valid b = true → s'.modified b = false → s'.data b = s'.stored (s.key b))
    (clean : s'.dirty b = false → s'.disk (s.key b) = s'.stored (s.key b)) : Truthful s' := by
  -- No other buffer is for this block.
  have apart : ∀ x, s.assigned x = true → x ≠ b → s.key x ≠ s.key b :=
    fun x hx other same => other (indexed.unique hx given same)
  constructor
  · intro x new
    rw [assigned] at new
    have other : x ≠ b := by
      rintro rfl
      rw [given] at new
      cases new
    obtain ⟨valid, dirty, -⟩ := away x other
    rw [valid, dirty]
    exact h.blank x new
  · intro x
    by_cases same : x = b
    · rw [same]
      exact backed
    · obtain ⟨valid, dirty, -⟩ := away x same
      rw [valid, dirty]
      exact h.backed x
  · intro x hx
    rw [assigned] at hx
    rw [keys]
    by_cases same : x = b
    · rw [same]
      exact current
    · obtain ⟨valid, -, modified, data⟩ := away x same
      rw [valid, modified, data, (others _ (apart x hx same)).2]
      exact h.current x hx
  · intro x hx
    rw [assigned] at hx
    rw [keys]
    by_cases same : x = b
    · rw [same]
      exact clean
    · obtain ⟨-, dirty, -⟩ := away x same
      rw [dirty, (others _ (apart x hx same)).1, (others _ (apart x hx same)).2]
      exact h.clean x hx
  · intro k out
    rw [assigned, keys] at out
    have other : k ≠ s.key b := (out b given).symm
    rw [(others k other).1, (others k other).2]
    exact h.uncached k out

/-- The holder of a buffer changes its data. -/
theorem Inv.modify (inv : Inv s xs) (ready : s.pc p = .ready) (lock : s.lock b = some p) (d : D) :
    Inv { s with data := update s.data b d, modified := update s.modified b true } xs := by
  have given := (inv.owned b p lock).1
  refine ⟨inv.listed, inv.indexed, inv.counted, ?_, ?_, inv.owned, fun x changed => ?_⟩
  · refine inv.truthful.change inv.indexed given rfl rfl (fun x away => ?_)
      (fun _ _ => ⟨rfl, rfl⟩) (inv.truthful.backed b) (fun _ calm => ?_)
      (inv.truthful.clean b given)
    · exact ⟨rfl, rfl, update_of_ne away _ _, update_of_ne away _ _⟩
    · simp at calm
  · exact inv.fits_alone ready lock rfl rfl rfl fun x away => ⟨update_of_ne away _ _, rfl⟩
  · by_cases same : x = b
    · simp [same, lock]
    · exact inv.changed x (by simpa [same] using changed)

theorem Inv.logWrite (inv : Inv s xs) (ready : s.pc p = .ready) (lock : s.lock b = some p) :
    Inv { s with dirty := update s.dirty b true
                 modified := update s.modified b false
                 stored := update s.stored (s.key b) (s.data b) } xs := by
  obtain ⟨given, state⟩ := inv.owned b p lock
  have valid : s.valid b = true := by
    refine state.resolve_left fun ⟨k, checking⟩ => ?_
    rw [ready] at checking
    cases checking
  refine ⟨inv.listed, inv.indexed, inv.counted, ?_, ?_, inv.owned, fun x changed => ?_⟩
  · refine inv.truthful.change inv.indexed given rfl rfl (fun x away => ?_) (fun k other => ?_)
      (fun _ => valid) (fun _ _ => ?_) (fun tidy => ?_)
    · exact ⟨rfl, update_of_ne away _ _, update_of_ne away _ _, rfl⟩
    · exact ⟨rfl, update_of_ne other _ _⟩
    · simp
    · simp at tidy
  · exact inv.fits_alone ready lock rfl rfl rfl fun x away => ⟨update_of_ne away _ _, rfl⟩
  · by_cases same : x = b
    · simp [same] at changed
    · exact inv.changed x (by simpa [same] using changed)

theorem iderw_eq (s : Cache P D) (b : Buf) :
    iderw s b = { s with
      disk := if s.dirty b then update s.disk (s.key b) (s.data b) else s.disk
      data := if s.dirty b then s.data else update s.data b (s.disk (s.key b))
      valid := update s.valid b true
      dirty := update s.dirty b false } := by
  cases dirty : s.dirty b with
  | true => simp [iderw, dirty]
  | false =>
    have same : update s.dirty b false = s.dirty := by
      rw [← dirty]
      exact update_eq_self b s.dirty
    simp [iderw, dirty, same]

section

variable (inv : Inv s xs)

include inv

/-- The disk and a buffer come to agree, on what was last stored. -/
theorem Inv.iderw (given : s.assigned b = true) (calm : s.modified b = false) :
    Inv (iderw s b) xs := by
  have truthful := inv.truthful
  have grows : ∀ x, s.valid x = true → update s.valid b true x = true := by
    intro x valid
    by_cases same : x = b
    · rw [same, update_self]
    · rw [update_of_ne same, valid]
  rw [iderw_eq]
  refine ⟨inv.listed, inv.indexed, inv.counted, ?_, fun q => ?_, fun x q lock => ?_, inv.changed⟩
  · refine truthful.change inv.indexed given rfl rfl (fun x away => ?_) (fun k other => ?_)
      (fun _ => update_self _ _ _) (fun _ _ => ?_) (fun _ => ?_)
    · refine ⟨update_of_ne away _ _, update_of_ne away _ _, rfl, ?_⟩
      cases s.dirty b with
      | true => rfl
      | false => exact update_of_ne away _ _
    · refine ⟨?_, rfl⟩
      cases s.dirty b with
      | true => exact update_of_ne other _ _
      | false => rfl
    · cases dirty : s.dirty b with
      | true => exact truthful.current b given (truthful.backed b dirty) calm
      | false =>
        simp only [Bool.false_eq_true, if_false, update_self]
        exact truthful.clean b given dirty
    · cases dirty : s.dirty b with
      | true =>
        simp only [if_true, update_self]
        exact truthful.current b given (truthful.backed b dirty) calm
      | false => exact truthful.clean b given dirty
  · exact (inv.fits q).frame (fun _ => id) (fun _ _ => rfl) fun x lock => ⟨lock, id, grows x⟩
  · exact ⟨(inv.owned x q lock).1, (inv.owned x q lock).2.imp_right (grows x)⟩

theorem Inv.release (ready : s.pc p = .ready) (lock : s.lock b = some p)
    (calm : s.modified b = false) :
    Inv { s with lock := update s.lock b none, pc := update s.pc p (.releasing b) } xs := by
  refine ⟨inv.listed, inv.indexed, fun x => ?_, ?_, ?_, fun x q lock' => ?_, fun x changed => ?_⟩
  · refine inv.recount none (some b) (by rw [ready]; rfl) rfl (fun x => ?_) x
    by_cases same : x = b
    · simp [same, lock, held]
    · simp [same, credit_some]
  · exact ⟨inv.truthful.blank, inv.truthful.backed, inv.truthful.current, inv.truthful.clean,
      inv.truthful.uncached⟩
  · refine forall_update (inv.owned b p lock).1 fun q other => ?_
    refine (inv.fits q).frame (fun _ => id) (fun _ _ => rfl) fun x lock' => ?_
    have away : x ≠ b := by
      rintro rfl
      exact other (Option.some.inj (lock'.symm.trans lock))
    exact ⟨(update_of_ne away _ _).trans lock', id, id⟩
  · have away : x ≠ b := by
      rintro rfl
      simp at lock'
    simp only [update_of_ne away] at lock'
    exact inv.owned_moves lock' (by simp [ready]) _
  · have away : x ≠ b := by
      rintro rfl
      rw [calm] at changed
      cases changed
    simp only [update_of_ne away]
    exact inv.changed x changed

theorem Inv.lock (here : s.pc p = .locking b k) (free : s.lock b = none) :
    Inv { s with lock := update s.lock b (some p), pc := update s.pc p (.checking b k) } xs := by
  have fits := inv.fits p
  rw [here] at fits
  refine ⟨inv.listed, inv.indexed, fun x => ?_, ?_, ?_, fun x q lock => ?_, fun x changed => ?_⟩
  · refine inv.recount (some b) none (by rw [here]; rfl) rfl (fun x => ?_) x
    by_cases same : x = b
    · simp [same, free, held]
    · simp [same, credit_some]
  · exact ⟨inv.truthful.blank, inv.truthful.backed, inv.truthful.current, inv.truthful.clean,
      inv.truthful.uncached⟩
  · have calm : s.modified b = false := by
      by_contra changed
      exact inv.changed b (by simpa using changed) free
    refine forall_update ⟨fits.1, fits.2, update_self _ _ _, calm⟩ fun q _ => ?_
    refine (inv.fits q).frame (fun _ => id) (fun _ _ => rfl) fun x lock => ?_
    have away : x ≠ b := by
      rintro rfl
      rw [free] at lock
      cases lock
    exact ⟨(update_of_ne away _ _).trans lock, id, id⟩
  · by_cases same : x = b
    · subst same
      obtain rfl : p = q := by simpa using lock
      exact ⟨fits.1, .inl ⟨k, update_self _ _ _⟩⟩
    · simp only [update_of_ne same] at lock
      exact inv.owned_moves lock (by simp [here]) _
  · by_cases same : x = b
    · simp [same]
    · simp only [update_of_ne same]
      exact inv.changed x changed

/-- `bread` has seen that its buffer is valid. -/
theorem Inv.checked (here : s.pc p = .checking b k) (valid : s.valid b = true) :
    Inv { s with pc := update s.pc p (.returned b k) } xs := by
  have fits := inv.fits p
  rw [here] at fits
  refine ⟨inv.listed, inv.indexed, fun x => ?_, ?_, ?_, fun x q lock => ?_, inv.changed⟩
  · exact inv.recount none none (by rw [here]; rfl) rfl (fun x => by simp) x
  · exact ⟨inv.truthful.blank, inv.truthful.backed, inv.truthful.current, inv.truthful.clean,
      inv.truthful.uncached⟩
  · refine forall_update ⟨fits.1, fits.2.1, fits.2.2.1, fits.2.2.2, valid⟩ fun q _ => ?_
    exact (inv.fits q).frame (fun _ => id) (fun _ _ => rfl) fun x lock => ⟨lock, id, id⟩
  · by_cases same : x = b
    · subst same
      exact ⟨fits.1, .inr valid⟩
    · exact inv.owned_moves lock (by simp [here, Ne.symm same]) _

theorem Inv.return (here : s.pc p = .returned b k) :
    Inv { s with pc := update s.pc p .ready } xs := by
  refine ⟨inv.listed, inv.indexed, fun x => ?_, ?_, ?_, fun x q lock => ?_, inv.changed⟩
  · exact inv.recount none none (by rw [here]; rfl) rfl (fun x => by simp) x
  · exact ⟨inv.truthful.blank, inv.truthful.backed, inv.truthful.current, inv.truthful.clean,
      inv.truthful.uncached⟩
  · refine forall_update trivial fun q _ => ?_
    exact (inv.fits q).frame (fun _ => id) (fun _ _ => rfl) fun x lock => ⟨lock, id, id⟩
  · exact inv.owned_moves lock (by simp [here]) _

theorem Inv.unref (here : s.pc p = .releasing b) :
    ∃ xs', Inv { unref s b with pc := update s.pc p .ready } xs' := by
  have given : s.assigned b = true := by
    have fits := inv.fits p
    rw [here] at fits
    exact fits
  have mem := inv.indexed.mem given
  have pos : 0 < s.refcnt b := inv.referenced (by rw [here]; rfl)
  have rest : ∀ (links : Links Buf) (ys : List Buf), Listed links ys →
      Indexed s.key s.assigned ys →
      Inv { s with links := links
                   refcnt := update s.refcnt b (s.refcnt b - 1)
                   pc := update s.pc p .ready } ys := by
    intro links ys listed indexed
    refine ⟨listed, indexed, fun x => ?_, ?_, ?_, fun x q lock => ?_, inv.changed⟩
    · refine inv.recount (some b) none (by rw [here]; rfl) rfl (fun x => ?_) x
      by_cases same : x = b
      · simp only [same, update_self, credit_none, Pi.zero_apply, credit_some_self]
        omega
      · simp [same, credit_some]
    · exact ⟨inv.truthful.blank, inv.truthful.backed, inv.truthful.current, inv.truthful.clean,
        inv.truthful.uncached⟩
    · refine forall_update trivial fun q _ => ?_
      exact (inv.fits q).frame (fun _ => id) (fun _ _ => rfl) fun x lock => ⟨lock, id, id⟩
    · exact inv.owned_moves lock (by simp [here]) _
  by_cases last : s.refcnt b - 1 = 0
  · refine ⟨b :: xs.filter (· ≠ b), ?_⟩
    simp only [Bio.unref, last, if_true]
    have moved := rest _ _ (inv.listed.moved mem) (inv.indexed.moved given)
    rw [last] at moved
    exact moved
  · refine ⟨xs, ?_⟩
    simp only [Bio.unref, last, if_false]
    exact rest _ _ inv.listed inv.indexed

end

theorem bget_cases (listed : Listed s.links xs) {s' : Cache P D} (got : bget s k = some (b, s')) :
    (xs.find? (fun x => s.key x = k) = some b ∧
      s' = { s with refcnt := update s.refcnt b (s.refcnt b + 1)
                    assigned := update s.assigned b true }) ∨
    (b ∈ xs ∧ (∀ x ∈ xs, s.key x ≠ k) ∧ s.refcnt b = 0 ∧ s.dirty b = false ∧
      s' = { s with key := update s.key b k
                    valid := update s.valid b false
                    dirty := update s.dirty b false
                    refcnt := update s.refcnt b 1
                    assigned := update s.assigned b true }) := by
  rw [bget, listed.linked.scan_next _ listed.length, listed.linked.scan_prev _ listed.length] at got
  cases found : xs.find? (fun x => s.key x = k) with
  | some c =>
    rw [found] at got
    obtain ⟨rfl, rfl⟩ := Prod.mk.inj (Option.some.inj got)
    exact .inl ⟨rfl, rfl⟩
  | none =>
    rw [found] at got
    cases chosen : xs.reverse.find? (fun b => s.refcnt b = 0 && !s.dirty b) with
    | none => simp [chosen] at got
    | some c =>
      rw [chosen] at got
      obtain ⟨rfl, rfl⟩ := Prod.mk.inj (Option.some.inj got)
      have free := List.find?_some chosen
      simp only [Bool.and_eq_true, decide_eq_true_eq, Bool.not_eq_true'] at free
      have mem := List.mem_of_find?_eq_some chosen
      have absent := List.find?_eq_none.mp found
      exact .inr ⟨List.mem_reverse.mp mem, by simpa using absent, free.1, free.2, rfl⟩

/-- Every step keeps the invariant. -/
theorem step_inv {e : P × Act D} {s' : Cache P D} (inv : Inv s xs) (moves : step s e = some s') :
    ∃ xs', Inv s' xs' := by
  obtain ⟨p, a⟩ := e
  cases a with
  | bread k =>
    simp only [step] at moves
    split at moves
    case isFalse => cases moves
    case isTrue ready =>
      obtain ⟨⟨b, t⟩, got, rfl⟩ := Option.map_eq_some_iff.mp moves
      obtain ⟨found, rfl⟩ | ⟨mem, absent, free, tidy, rfl⟩ := bget_cases inv.listed got
      · exact ⟨xs, inv.hit ready found⟩
      · exact ⟨xs, inv.recycle ready mem absent free tidy⟩
  | modify b d =>
    simp only [step] at moves
    split at moves
    case isFalse => cases moves
    case isTrue guard =>
      cases moves
      exact ⟨xs, inv.modify guard.1 guard.2 d⟩
  | logWrite b =>
    simp only [step] at moves
    split at moves
    case isFalse => cases moves
    case isTrue guard =>
      cases moves
      exact ⟨xs, inv.logWrite guard.1 guard.2⟩
  | bwrite b =>
    simp only [step] at moves
    split at moves
    case isFalse => cases moves
    case isTrue guard =>
      cases moves
      have stored := inv.logWrite guard.1 guard.2
      exact ⟨xs, stored.iderw (inv.owned b p guard.2).1 (update_self _ _ _)⟩
  | brelse b =>
    simp only [step] at moves
    split at moves
    case isFalse => cases moves
    case isTrue guard =>
      cases moves
      exact ⟨xs, inv.release guard.1 guard.2.1 guard.2.2⟩
  | go =>
    have fits := inv.fits p
    cases here : s.pc p with
    | ready => simp [step, here] at moves
    | locking b k =>
      simp only [step, here] at moves
      split at moves
      case isFalse => cases moves
      case isTrue free =>
        cases moves
        exact ⟨xs, inv.lock here free⟩
    | checking b k =>
      rw [here] at fits
      simp only [step, here, Option.some.injEq] at moves
      subst moves
      cases valid : s.valid b with
      | true => exact ⟨xs, inv.checked here valid⟩
      | false =>
        have read := inv.iderw fits.1 fits.2.2.2
        have same : (iderw s b).pc = s.pc := by rw [iderw_eq]
        have filled : (iderw s b).valid b = true := by
          rw [iderw_eq]
          exact update_self _ _ _
        have checked := read.checked (p := p) (by rw [same, here]) filled
        exact ⟨xs, checked⟩
    | returned b k =>
      simp only [step, here, Option.some.injEq] at moves
      subst moves
      exact ⟨xs, inv.return here⟩
    | releasing b =>
      simp only [step, here, Option.some.injEq] at moves
      subst moves
      exact inv.unref here

end Steps

/-! ## Runs -/

theorem boot_inv (disk : Key → D) (data : Buf → D) : ∃ xs, Inv (boot disk data : Cache P D) xs := by
  obtain ⟨xs, listed⟩ := binit_listed
  refine ⟨xs, listed, ⟨by simp [boot], by simp [boot]⟩, fun b => ?_, ?_, fun _ => trivial,
    by simp [boot], by simp [boot]⟩
  · have none_waits : tally (fun p : P => (Pc.ready).waits) b = 0 := by
      simp [tally, Pc.waits]
    simp only [boot, holders, held]
    rw [none_waits]
  · exact ⟨by simp [boot], by simp [boot], by simp [boot], by simp [boot], fun _ _ => rfl⟩

/-- A buffer changes its block only when `bget` takes it, free and clean. -/
theorem step_key {s s' : Cache P D} {xs : List Buf} {e : P × Act D} {b : Buf} (inv : Inv s xs)
    (moves : step s e = some s') (used : 0 < s.refcnt b ∨ s.dirty b = true) :
    s'.key b = s.key b := by
  obtain ⟨p, a⟩ := e
  have transfer : ∀ (t : Cache P D) (c : Buf), (iderw t c).key = t.key := by
    intro t c
    rw [iderw_eq]
  cases a with
  | bread k =>
    simp only [step] at moves
    split at moves
    case isFalse => cases moves
    case isTrue =>
      obtain ⟨⟨c, t⟩, got, rfl⟩ := Option.map_eq_some_iff.mp moves
      obtain ⟨-, rfl⟩ | ⟨-, -, free, tidy, rfl⟩ := bget_cases inv.listed got
      · rfl
      · refine update_of_ne ?_ _ _
        rintro rfl
        rw [free, tidy] at used
        simp at used
  | modify c d =>
    simp only [step, Option.ite_none_right_eq_some, Option.some.injEq] at moves
    rw [← moves.2]
  | logWrite c =>
    simp only [step, Option.ite_none_right_eq_some, Option.some.injEq] at moves
    rw [← moves.2]
  | bwrite c =>
    simp only [step, Option.ite_none_right_eq_some, Option.some.injEq] at moves
    rw [← moves.2, transfer]
  | brelse c =>
    simp only [step, Option.ite_none_right_eq_some, Option.some.injEq] at moves
    rw [← moves.2]
  | go =>
    cases here : s.pc p with
    | ready => simp [step, here] at moves
    | locking c k =>
      simp only [step, here, Option.ite_none_right_eq_some, Option.some.injEq] at moves
      rw [← moves.2]
    | checking c k =>
      simp only [step, here, Option.some.injEq] at moves
      rw [← moves]
      cases s.valid c with
      | true => rfl
      | false => exact congrFun (transfer s c) b
    | returned c k =>
      simp only [step, here, Option.some.injEq] at moves
      rw [← moves]
    | releasing c =>
      simp only [step, here, Option.some.injEq] at moves
      rw [← moves]
      rfl

/-- **The buffer cache is transparent.**  After any run from boot: the list of buffers is a
ring with every buffer in it, once; two buffers that were given out are for different
blocks; the reference count of a buffer is the number of its references, and while it is
referenced or dirty it keeps its block; and a `bread` that returns has, under its lock,
what was last stored for the block, or what the disk had at boot. -/
theorem bcache_transparent (disk : Key → D) (data : Buf → D) {es : List (P × Act D)}
    {s : Cache P D} (reached : run step (boot disk data) es = some s) :
    (∃ xs, Linked s.links head xs ∧ ∀ b : Fin nbuf, some b ∈ xs) ∧
      (∀ b c, s.assigned b = true → s.assigned c = true → s.key b = s.key c → b = c) ∧
      (∀ b, s.refcnt b = holders s.lock s.pc b) ∧
      (∀ e s' b, step s e = some s' → 0 < s.refcnt b ∨ s.dirty b = true →
        s'.key b = s.key b) ∧
      ∀ p b k, s.pc p = .returned b k →
        s.key b = k ∧ s.lock b = some p ∧ s.data b = s.stored k := by
  obtain ⟨xs, inv⟩ : ∃ xs, Inv s xs := by
    refine run_invariant step (I := fun s => ∃ xs, Inv s xs) ?_ (boot_inv disk data) reached
    intro s e s' ⟨xs, inv⟩ moves
    exact step_inv inv moves
  refine ⟨⟨xs, inv.listed.linked, inv.listed.all⟩, fun b c => inv.indexed.unique, inv.counted,
    fun e s' b => step_key inv, fun p b k here => ?_⟩
  have fits := inv.fits p
  rw [here] at fits
  obtain ⟨given, rfl, lock, calm, valid⟩ := fits
  exact ⟨rfl, lock, inv.truthful.current b given valid calm⟩

end Invariant

/-- One process stores 7 in block 5 of device 1 while another already waits for the
buffer; the disk still has 0. -/
def storeThenRead : List (Bool × Act Nat) :=
  [(false, .bread (1, 5)), (false, .go), (false, .go), (false, .go), (false, .modify (some 0) 7),
    (true, .bread (1, 5)), (false, .logWrite (some 0)), (false, .brelse (some 0)), (true, .go),
    (false, .go), (true, .go)]

theorem read_after_log_write : ∃ s : Cache Bool Nat,
    run step (boot (fun _ => 0) fun _ => 0) storeThenRead = some s ∧
      s.disk (1, 5) = 0 ∧ s.stored (1, 5) = 7 ∧ s.pc true = .returned (some 0) (1, 5) ∧
      s.data (some 0) = s.stored (1, 5) := by
  have ends : (run step (boot (fun _ => 0) fun _ => 0) storeThenRead).map
      (fun s => (s.disk (1, 5), s.stored (1, 5), s.pc true)) =
        some (0, 7, .returned (some 0) (1, 5)) := by
    decide +kernel
  obtain ⟨s, reached, shown⟩ := Option.map_eq_some_iff.mp ends
  simp only [Prod.mk.injEq] at shown
  obtain ⟨disk, stored, here⟩ := shown
  have transparent := bcache_transparent _ _ reached
  exact ⟨s, reached, disk, stored, here, (transparent.2.2.2.2 true _ _ here).2.2⟩

end BasicOS.Bio
