/-
# BasicOS.Dev.Alone — one process at the buffer cache

What `bread`, `bwrite` and `brelse` do for a process while nobody else has a buffer or
is in a call.  `bread` then waits for nobody, and it finds a buffer if the block is in
the cache or some buffer is neither dirty nor one of the process (`Alone.bread`).  There
is such a buffer as long as the dirty ones and its own are less than all
(`exists_clean`).
-/
import BasicOS.Dev.Transparent
import Mathlib.Data.Finset.Card

namespace BasicOS.Bio

open Lib Function

set_option autoImplicit false
set_option linter.unusedSectionVars false

variable {P D : Type} [DecidableEq P] [Fintype P]
variable {s s' : Cache P D} {xs : List Buf} {p : P} {b : Buf} {k : Key} {own : List Buf}

/-! ## Dirty buffers -/

/-- Only `log_write` leaves a buffer dirty, and `bwrite` cleans one. -/
theorem step_dirty {a : Act D} (inv : Inv s xs) (moves : step s (p, a) = some s')
    (plain : ∀ c, a ≠ .logWrite c) (now : s'.dirty b = true) :
    s.dirty b = true ∧ ∀ c, a = .bwrite c → b ≠ c := by
  -- what is cleaned was dirty before, if anything
  have cleaned : ∀ {f : Buf → Bool} {c : Buf}, update f c false b = true → f b = true ∧ b ≠ c := by
    intro f c set
    by_cases same : b = c
    · rw [same, update_self] at set
      cases set
    · rw [update_of_ne same] at set
      exact ⟨set, same⟩
  cases a with
  | bread k =>
    simp only [step] at moves
    split at moves
    case isFalse => cases moves
    case isTrue =>
      obtain ⟨⟨c, t⟩, got, rfl⟩ := Option.map_eq_some_iff.mp moves
      obtain ⟨-, rfl⟩ | ⟨-, -, -, -, rfl⟩ := bget_cases inv.listed got
      · exact ⟨now, by rintro _ ⟨⟩⟩
      · exact ⟨(cleaned now).1, by rintro _ ⟨⟩⟩
  | modify c d =>
    simp only [step, Option.ite_none_right_eq_some, Option.some.injEq] at moves
    rw [← moves.2] at now
    exact ⟨now, by rintro _ ⟨⟩⟩
  | logWrite c => exact absurd rfl (plain c)
  | bwrite c =>
    simp only [step, Option.ite_none_right_eq_some, Option.some.injEq] at moves
    rw [← moves.2, iderw_eq] at now
    obtain ⟨set, other⟩ := cleaned now
    have before : update s.dirty c true b = true := set
    rw [update_of_ne other] at before
    exact ⟨before, fun d same => by cases same; exact other⟩
  | brelse c =>
    simp only [step, Option.ite_none_right_eq_some, Option.some.injEq] at moves
    rw [← moves.2] at now
    exact ⟨now, by rintro _ ⟨⟩⟩
  | go =>
    refine ⟨?_, by rintro _ ⟨⟩⟩
    cases here : s.pc p with
    | ready => simp [step, here] at moves
    | locking c k =>
      simp only [step, here, Option.ite_none_right_eq_some, Option.some.injEq] at moves
      rw [← moves.2] at now
      exact now
    | checking c k =>
      simp only [step, here, Option.some.injEq] at moves
      rw [← moves] at now
      cases valid : s.valid c with
      | true =>
        rw [valid] at now
        exact now
      | false =>
        rw [valid] at now
        simp only [Bool.false_eq_true, if_false, iderw_eq] at now
        exact (cleaned now).1
    | returned c k =>
      simp only [step, here, Option.some.injEq] at moves
      rw [← moves] at now
      exact now
    | releasing c =>
      simp only [step, here, Option.some.injEq] at moves
      rw [← moves] at now
      exact now

theorem Inv.given_of_dirty (inv : Inv s xs) (set : s.dirty b = true) : s.assigned b = true := by
  by_contra blank
  have clean := (inv.truthful.blank b (by simpa using blank)).2
  rw [set] at clean
  cases clean

/-! ## One process -/

/-- Process `p` has the buffers `own`, unchanged since they were stored; nobody else has
one, and nobody is in a call. -/
structure Alone (s : Cache P D) (p : P) (own : List Buf) : Prop where
  ready : ∀ q, s.pc q = .ready
  lock : ∀ b, s.lock b = if b ∈ own then some p else none
  calm : ∀ b, s.modified b = false

theorem Alone.refcnt (alone : Alone s p own) (inv : Inv s xs) (b : Buf) :
    s.refcnt b = if b ∈ own then 1 else 0 := by
  have idle : tally (fun q => (s.pc q).waits) b = 0 := by
    by_contra some_waits
    obtain ⟨q, waits⟩ := exists_of_tally_pos (Nat.pos_of_ne_zero some_waits)
    rw [alone.ready q] at waits
    cases waits
  rw [inv.counted b, holders, idle, alone.lock b]
  split <;> rfl

/-- `bget` finds the block, or a buffer for it. -/
theorem bget_of_free (listed : Listed s.links xs)
    (free : (∃ x ∈ xs, s.key x = k) ∨ ∃ x ∈ xs, s.refcnt x = 0 ∧ s.dirty x = false) :
    ∃ r, bget s k = some r := by
  rw [bget, listed.linked.scan_next _ listed.length, listed.linked.scan_prev _ listed.length]
  cases found : xs.find? (fun x => s.key x = k) with
  | some c => exact ⟨_, rfl⟩
  | none =>
    have absent := List.find?_eq_none.mp found
    obtain ⟨x, mem, key⟩ | ⟨x, mem, unused, clean⟩ := free
    · exact absurd (by simpa using key) (absent x mem)
    cases chosen : xs.reverse.find? (fun b => s.refcnt b = 0 && !s.dirty b) with
    | some c => exact ⟨_, rfl⟩
    | none =>
      have taken := List.find?_eq_none.mp chosen x (List.mem_reverse.mpr mem)
      simp [unused, clean] at taken

/-- What `bread` returns to a process that is alone. -/
structure Got (s : Cache P D) (p : P) (own : List Buf) (k : Key) (b : Buf) (s' : Cache P D) :
    Prop where
  inv : ∃ xs, Inv s' xs
  alone : Alone s' p (b :: own)
  fresh : b ∉ own
  key : s'.key b = k
  dirty : s'.dirty = s.dirty
  keeps : ∀ c, c ∈ own ∨ s.dirty c = true → s'.key c = s.key c

theorem Alone.bread (alone : Alone s p own) (inv : Inv s xs) (apart : ∀ b ∈ own, s.key b ≠ k)
    (free : (∃ b, s.assigned b = true ∧ s.key b = k) ∨
      ∃ b : Fin nbuf, some b ∉ own ∧ s.dirty (some b) = false) :
    ∃ b s₁ s₂ s₃ s₄, step s (p, .bread k) = some s₁ ∧ step s₁ (p, .go) = some s₂ ∧
      step s₂ (p, .go) = some s₃ ∧ s₃.pc p = .returned b k ∧ step s₃ (p, .go) = some s₄ ∧
      Got s p own k b s₄ := by
  have refs := alone.refcnt inv
  have found : ∃ r, bget s k = some r := by
    refine bget_of_free inv.listed (free.imp ?_ ?_)
    · rintro ⟨b, given, key⟩
      exact ⟨b, inv.indexed.mem given, key⟩
    · rintro ⟨b, other, clean⟩
      exact ⟨some b, inv.listed.all b, by rw [refs, if_neg other], clean⟩
  obtain ⟨⟨b, t⟩, got⟩ := found
  have first : step s (p, .bread k) = some { t with pc := update s.pc p (.locking b k) } := by
    simp only [step, if_pos (alone.ready p), got, Option.map_some]
  have chosen : t.lock = s.lock ∧ t.dirty = s.dirty ∧ t.modified = s.modified ∧ t.key b = k ∧
      b ∉ own ∧ ∀ c, c ∈ own ∨ s.dirty c = true → t.key c = s.key c := by
    obtain ⟨hit, rfl⟩ | ⟨-, -, unused, clean, rfl⟩ := bget_cases inv.listed got
    · have key : s.key b = k := by simpa using List.find?_some hit
      exact ⟨rfl, rfl, rfl, key, fun mem => apart b mem key, fun _ _ => rfl⟩
    · have other : b ∉ own := by
        intro mem
        rw [refs, if_pos mem] at unused
        cases unused
      refine ⟨rfl, ?_, rfl, update_self _ _ _, other, fun c used => update_of_ne ?_ _ _⟩
      · show update s.dirty b false = s.dirty
        rw [← clean]
        exact update_eq_self b s.dirty
      · rintro rfl
        rcases used with mem | set
        · exact other mem
        · rw [clean] at set
          cases set
  obtain ⟨lock, dirty, modified, key, other, keeps⟩ := chosen
  obtain ⟨xs₁, inv₁⟩ := step_inv inv first
  have clear : t.lock b = none := by rw [lock, alone.lock, if_neg other]
  have second : step { t with pc := update s.pc p (.locking b k) } (p, .go) =
      some { t with lock := update t.lock b (some p)
                    pc := update (update s.pc p (.locking b k)) p (.checking b k) } := by
    simp only [step, update_self, if_pos clear]
  obtain ⟨xs₂, inv₂⟩ := step_inv inv₁ second
  -- the buffer is read if it has to be; it is clean then
  obtain ⟨m, third, same⟩ : ∃ m, step { t with
        lock := update t.lock b (some p)
        pc := update (update s.pc p (.locking b k)) p (.checking b k) } (p, .go) = some m ∧
      m.lock = update t.lock b (some p) ∧ m.dirty = t.dirty ∧ m.modified = t.modified ∧
      m.key = t.key ∧ m.pc = update (update (update s.pc p (.locking b k)) p (.checking b k)) p
        (.returned b k) := by
    simp only [step, update_self]
    cases valid : t.valid b with
    | true => exact ⟨_, rfl, rfl, rfl, rfl, rfl, rfl⟩
    | false =>
      have clean : t.dirty b = false := by
        by_contra set
        have backed := inv₂.truthful.backed b (by simpa using set)
        rw [valid] at backed
        cases backed
      refine ⟨_, rfl, ?_⟩
      simp only [Bool.false_eq_true, if_false, iderw_eq]
      refine ⟨trivial, ?_, trivial, trivial, trivial⟩
      rw [← clean]
      exact update_eq_self b t.dirty
  obtain ⟨lock₃, dirty₃, modified₃, key₃, pc₃⟩ := same
  obtain ⟨xs₃, inv₃⟩ := step_inv inv₂ third
  have here : m.pc p = .returned b k := by rw [pc₃, update_self]
  have fourth : step m (p, .go) = some { m with pc := update m.pc p .ready } := by
    simp only [step, here]
  refine ⟨b, _, _, m, _, first, second, third, here, fourth, step_inv inv₃ fourth,
    ⟨fun q => ?_, fun c => ?_, fun c => ?_⟩, other, ?_, ?_, fun c used => ?_⟩
  · show update m.pc p .ready q = .ready
    by_cases self : q = p
    · rw [self, update_self]
    · rw [pc₃]
      simp only [update_of_ne self, alone.ready q]
  · show m.lock c = _
    rw [lock₃, lock]
    by_cases self : c = b
    · rw [self, update_self, if_pos List.mem_cons_self]
    · rw [update_of_ne self, alone.lock c]
      simp only [List.mem_cons, self, false_or]
  · show m.modified c = false
    rw [modified₃, modified, alone.calm]
  · show m.key b = k
    rw [key₃, key]
  · show m.dirty = s.dirty
    rw [dirty₃, dirty]
  · show m.key c = s.key c
    rw [key₃, keeps c used]

/-- The data of a buffer is changed and written to the disk. -/
theorem Alone.bwrite (alone : Alone s p own) (inv : Inv s xs) (mine : b ∈ own) (d : D) :
    ∃ s₁ s₂, step s (p, .modify b d) = some s₁ ∧ s₁.key = s.key ∧
      step s₁ (p, .bwrite b) = some s₂ ∧ (∃ xs, Inv s₂ xs) ∧ Alone s₂ p own ∧
      s₂.key = s.key ∧ s₂.dirty = update s.dirty b false := by
  have guard : s.pc p = .ready ∧ s.lock b = some p :=
    ⟨alone.ready p, by rw [alone.lock, if_pos mine]⟩
  have first : step s (p, .modify b d) =
      some { s with data := update s.data b d, modified := update s.modified b true } := by
    simp only [step, if_pos guard]
  obtain ⟨xs₁, inv₁⟩ := step_inv inv first
  obtain ⟨m, second, lock, pc, modified, key, dirty⟩ : ∃ m,
      step { s with data := update s.data b d, modified := update s.modified b true }
        (p, .bwrite b) = some m ∧ m.lock = s.lock ∧ m.pc = s.pc ∧
      m.modified = update (update s.modified b true) b false ∧ m.key = s.key ∧
      m.dirty = update (update s.dirty b true) b false := by
    simp only [step, if_pos guard]
    refine ⟨_, rfl, ?_⟩
    rw [iderw_eq]
    exact ⟨rfl, rfl, rfl, rfl, rfl⟩
  refine ⟨_, m, first, rfl, second, step_inv inv₁ second, ⟨fun q => ?_, fun c => ?_, fun c => ?_⟩,
    key, ?_⟩
  · rw [pc, alone.ready]
  · rw [lock, alone.lock]
  · rw [modified, update_idem]
    by_cases self : c = b
    · rw [self, update_self]
    · rw [update_of_ne self, alone.calm]
  · rw [dirty, update_idem]

/-- A buffer is given back. -/
theorem Alone.brelse {own' : List Buf} (alone : Alone s p own) (inv : Inv s xs) (mine : b ∈ own)
    (rest : ∀ c, c ∈ own' ↔ c ∈ own ∧ c ≠ b) :
    ∃ s₁ s₂, step s (p, .brelse b) = some s₁ ∧ step s₁ (p, .go) = some s₂ ∧
      (∃ xs, Inv s₂ xs) ∧ Alone s₂ p own' ∧ s₂.key = s.key ∧ s₂.dirty = s.dirty := by
  have guard : s.pc p = .ready ∧ s.lock b = some p ∧ s.modified b = false :=
    ⟨alone.ready p, by rw [alone.lock, if_pos mine], alone.calm b⟩
  have first : step s (p, .brelse b) =
      some { s with lock := update s.lock b none, pc := update s.pc p (.releasing b) } := by
    simp only [step, if_pos guard]
  obtain ⟨xs₁, inv₁⟩ := step_inv inv first
  obtain ⟨m, second, lock, pc, modified, key, dirty⟩ : ∃ m,
      step { s with lock := update s.lock b none, pc := update s.pc p (.releasing b) }
        (p, .go) = some m ∧ m.lock = update s.lock b none ∧
      m.pc = update (update s.pc p (.releasing b)) p .ready ∧ m.modified = s.modified ∧
      m.key = s.key ∧ m.dirty = s.dirty := by
    simp only [step, update_self]
    exact ⟨_, rfl, rfl, rfl, rfl, rfl, rfl⟩
  refine ⟨_, m, first, second, step_inv inv₁ second, ⟨fun q => ?_, fun c => ?_, fun c => ?_⟩,
    key, dirty⟩
  · rw [pc, update_idem]
    by_cases self : q = p
    · rw [self, update_self]
    · rw [update_of_ne self, alone.ready q]
  · rw [lock]
    by_cases self : c = b
    · rw [self, update_self, if_neg fun mem => ((rest b).mp mem).2 rfl]
    · rw [update_of_ne self, alone.lock c]
      simp only [rest c, ne_eq, self, not_false_eq_true, and_true]
  · rw [modified, alone.calm]

/-! ## How many buffers are dirty -/

/-- The dirty buffers are for different blocks.  With less of these blocks and own buffers
than there are buffers, one is left. -/
theorem exists_clean (inv : Inv s xs) (ks : List Key)
    (pinned : ∀ b, s.dirty b = true → s.key b ∈ ks) (few : ks.length + own.length < nbuf) :
    ∃ b : Fin nbuf, some b ∉ own ∧ s.dirty (some b) = false := by
  by_contra none_left
  have taken : ∀ b : Fin nbuf, some b ∈ own ∨ s.dirty (some b) = true := by
    intro b
    by_contra left
    rw [not_or, Bool.not_eq_true] at left
    exact none_left ⟨b, left⟩
  have dirty : ((Finset.univ : Finset (Fin nbuf)).filter fun b => s.dirty (some b)).card ≤
      ks.length := by
    refine (Finset.card_le_card_of_injOn (t := ks.toFinset) (fun b => s.key (some b)) ?_ ?_).trans
      ks.toFinset_card_le
    · intro b mem
      simpa using pinned (some b) (by simpa using mem)
    · intro b memb c memc same
      have memb : s.dirty (some b) = true := by simpa using memb
      have memc : s.dirty (some c) = true := by simpa using memc
      exact Option.some.inj
        (inv.indexed.unique (inv.given_of_dirty memb) (inv.given_of_dirty memc) same)
  have mine : ((Finset.univ : Finset (Fin nbuf)).filter fun b => some b ∈ own).card ≤
      own.length := by
    refine (Finset.card_le_card_of_injOn (t := own.toFinset) some ?_ ?_).trans
      own.toFinset_card_le
    · intro b mem
      simpa using mem
    · intro b _ c _ same
      exact Option.some.inj same
  have all : (Finset.univ : Finset (Fin nbuf)) ⊆
      Finset.univ.filter (fun b => some b ∈ own) ∪ Finset.univ.filter fun b => s.dirty (some b) := by
    intro b _
    simpa using taken b
  have total := (Finset.card_le_card all).trans (Finset.card_union_le _ _)
  rw [Finset.card_univ, Fintype.card_fin] at total
  omega

end BasicOS.Bio
