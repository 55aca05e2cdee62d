/-
# BasicOS.Lib.Chain — chains of index blocks

A chain lives in blocks of words.  An index block holds `W` items in its first
`W` words and the number of the next index block in word `W`; zero means that
there is none.  A chain is known by the number of its first index block.

Every block number a chain holds has a position: the `i`-th index block, or the
`n`-th item.  `addr` reads the number at a position, and a family of chains is
described by the map `A a p` of these numbers.  `Placed` says that the map never
uses a number twice, over all chains and positions.

`addr_link` and `addr_head` are the two ways a chain grows by a zeroed block, and
`addr_congr` is what it takes to leave a chain alone.
-/
import Mathlib.Algebra.GroupWithZero.Nat
import Mathlib.Logic.Function.Basic
import Mathlib.Tactic.Common

namespace BasicOS.Lib.Chain

open Function

set_option autoImplicit false

/-- The `i`-th index block, or the `n`-th item. -/
inductive Pos where
  | index (i : Nat)
  | item (n : Nat)
  deriving DecidableEq, Repr

section Words

variable (W : Nat) (w : Nat → Nat → Nat)

/-- The number of the `i`-th index block of the chain that starts at `h`. -/
def idx (h : Nat) : Nat → Nat
  | 0 => h
  | i + 1 => if idx h i = 0 then 0 else w (idx h i) W

/-- The block number at a position of the chain that starts at `h`. -/
def addr (h : Nat) : Pos → Nat
  | .index i => idx W w h i
  | .item n => if idx W w h (n / W) = 0 then 0 else w (idx W w h (n / W)) (n % W)

/-- Which index block holds the number at a position. -/
def Pos.parent : Pos → Option Nat
  | .index 0 => none
  | .index (i + 1) => some i
  | .item n => some (n / W)

/-- In which word it holds it. -/
def Pos.word : Pos → Nat
  | .index _ => W
  | .item n => n % W

/-- The index blocks before a position that have to be there. -/
def Pos.level : Pos → Nat
  | .index i => i
  | .item n => n / W

/-- `p` is `q`, or one of the index blocks on the way to it. -/
def OnPath (p q : Pos) : Prop :=
  p = q ∨ ∃ j ≤ q.level W, p = .index j

variable {W w}

theorem OnPath.trans {p q r : Pos} (first : OnPath W p q) (second : OnPath W q r) :
    OnPath W p r := by
  obtain rfl | ⟨j, below, rfl⟩ := second
  · exact first
  · obtain rfl | ⟨i, lower, rfl⟩ := first
    · exact .inr ⟨j, below, rfl⟩
    · exact .inr ⟨i, Nat.le_trans lower below, rfl⟩

theorem addr_parent {p : Pos} {i : Nat} (below : p.parent W = some i) (h : Nat) :
    addr W w h p = if idx W w h i = 0 then 0 else w (idx W w h i) (p.word W) := by
  cases p with
  | index j =>
    cases j with
    | zero => cases below
    | succ j =>
      obtain rfl : j = i := Option.some.inj below
      rfl
  | item n =>
    obtain rfl : n / W = i := Option.some.inj below
    rfl

theorem addr_of_parent {p : Pos} {i h : Nat} (below : p.parent W = some i)
    (some_index : idx W w h i ≠ 0) : addr W w h p = w (idx W w h i) (p.word W) := by
  rw [addr_parent below, if_neg some_index]

/-- A position is known by its index block and its word. -/
theorem pos_ext {p q : Pos} {i : Nat} (pos : 0 < W) (hp : p.parent W = some i)
    (hq : q.parent W = some i) (same : p.word W = q.word W) : p = q := by
  have item_word : ∀ n, Pos.word W (.item n) < W := fun n => Nat.mod_lt n pos
  cases p with
  | index j =>
    cases q with
    | index k =>
      cases j with
      | zero => cases hp
      | succ j =>
        cases k with
        | zero => cases hq
        | succ k =>
          rw [Option.some.inj (hp.trans hq.symm)]
    | item n => exact absurd same (Nat.ne_of_gt (item_word n))
  | item m =>
    cases q with
    | index k => exact absurd same (Nat.ne_of_lt (item_word m))
    | item n =>
      have quot : m / W = n / W := Option.some.inj (hp.trans hq.symm)
      have rem : m % W = n % W := same
      rw [← Nat.div_add_mod m W, quot, rem, Nat.div_add_mod]

/-- A chain without a first block holds nothing. -/
@[simp] theorem addr_zero (p : Pos) : addr W w 0 p = 0 := by
  have empty : ∀ i, idx W w 0 i = 0 := by
    intro i
    induction i with
    | zero => rfl
    | succ i ih => simp [idx, ih]
  cases p <;> simp [addr, empty]

/-- A chain reads only its own index blocks. -/
theorem addr_congr {w' : Nat → Nat → Nat} {h : Nat} (pos : 0 < W)
    (same : ∀ i, idx W w h i ≠ 0 → ∀ j ≤ W, w' (idx W w h i) j = w (idx W w h i) j) (p : Pos) :
    addr W w' h p = addr W w h p := by
  have index : ∀ i, idx W w' h i = idx W w h i := by
    intro i
    induction i with
    | zero => rfl
    | succ i ih =>
      simp only [idx, ih]
      split
      · rfl
      · rename_i some_index
        exact same i some_index W (Nat.le_refl W)
  cases p with
  | index i => exact index i
  | item n =>
    simp only [addr, index]
    split
    · rfl
    · rename_i some_index
      exact same _ some_index _ (Nat.le_of_lt (Nat.mod_lt n pos))

/-- Below a missing index block there is nothing. -/
theorem idx_succ_ne_zero {h i : Nat} (there : idx W w h (i + 1) ≠ 0) : idx W w h i ≠ 0 := by
  intro missing
  exact there (by simp [idx, missing])

theorem idx_ne_zero_of_le {h i j : Nat} (le : i ≤ j) (there : idx W w h j ≠ 0) :
    idx W w h i ≠ 0 := by
  induction j with
  | zero =>
    obtain rfl : i = 0 := Nat.le_zero.mp le
    exact there
  | succ j ih =>
    rcases Nat.lt_or_eq_of_le le with lt | rfl
    · exact ih (Nat.le_of_lt_succ lt) (idx_succ_ne_zero there)
    · exact there

/-- A block number that is there lies in an index block that is there. -/
theorem idx_of_parent {h i : Nat} {p : Pos} (below : p.parent W = some i)
    (there : addr W w h p ≠ 0) : idx W w h i ≠ 0 := by
  intro missing
  rw [addr_parent below, if_pos missing] at there
  exact there rfl

end Words

/-! ## Families of chains -/

section Families

variable {ι : Type}

/-- No block number is used twice, and the numbers in use meet `ok`. -/
structure Placed (A : ι → Pos → Nat) (ok : Nat → Prop) : Prop where
  inj : ∀ {a p a' p'}, A a p = A a' p' → A a p ≠ 0 → a = a' ∧ p = p'
  ok : ∀ {a p}, A a p ≠ 0 → ok (A a p)

/-- A block number that no position holds. -/
structure Fresh (A : ι → Pos → Nat) (b : Nat) : Prop where
  ne_zero : b ≠ 0
  unused : ∀ a p, A a p ≠ b

variable {A : ι → Pos → Nat} {ok : Nat → Prop}

theorem Placed.mono {ok' : Nat → Prop} (placed : Placed A ok)
    (weaken : ∀ a p, A a p ≠ 0 → ok (A a p) → ok' (A a p)) : Placed A ok' :=
  ⟨placed.inj, fun used => weaken _ _ used (placed.ok used)⟩

theorem Placed.congr {A' : ι → Pos → Nat} (placed : Placed A ok)
    (same : ∀ a p, A' a p = A a p) : Placed A' ok := by
  obtain rfl : A' = A := by
    funext a p
    exact same a p
  exact placed

/-- A fresh number may be put at a free position. -/
theorem Placed.insert [DecidableEq ι] {A' : ι → Pos → Nat} {a : ι} {p : Pos} {b : Nat}
    (placed : Placed A ok) (fresh : Fresh A b) (good : ok b)
    (new : ∀ a' p', A' a' p' = if a' = a ∧ p' = p then b else A a' p') : Placed A' ok := by
  constructor
  · intro a₁ p₁ a₂ p₂ same used
    rw [new] at same used
    rw [new] at same
    split at same <;> split at same
    · rename_i first second
      exact ⟨first.1.trans second.1.symm, first.2.trans second.2.symm⟩
    · exact absurd same.symm (fresh.unused _ _)
    · exact absurd same (fresh.unused _ _)
    · rename_i first second
      rw [if_neg first] at used
      exact placed.inj same used
  · intro a₁ p₁ used
    rw [new] at used ⊢
    split
    · exact good
    · rename_i old
      rw [if_neg old] at used
      exact placed.ok used

/-- One chain may be dropped. -/
theorem Placed.drop [DecidableEq ι] {A' : ι → Pos → Nat} {ok' : Nat → Prop} {a : ι}
    (placed : Placed A ok)
    (new : ∀ a' p', A' a' p' = if a' = a then 0 else A a' p')
    (kept : ∀ a' p', a' ≠ a → A a' p' ≠ 0 → ok' (A a' p')) : Placed A' ok' := by
  have other : ∀ {a₁ p₁}, A' a₁ p₁ ≠ 0 → a₁ ≠ a := by
    rintro a₁ p₁ used rfl
    rw [new, if_pos rfl] at used
    exact used rfl
  constructor
  · intro a₁ p₁ a₂ p₂ same used
    have first := other used
    have second := other (same ▸ used : A' a₂ p₂ ≠ 0)
    rw [new, if_neg first] at same used
    rw [new, if_neg second] at same
    exact placed.inj same used
  · intro a₁ p₁ used
    have ne := other used
    rw [new, if_neg ne] at used ⊢
    exact kept a₁ p₁ ne used

end Families

/-! ## Growing a chain -/

section Growing

variable {W : Nat} {w : Nat → Nat → Nat} {ι : Type} [DecidableEq ι] {H : ι → Nat}
  {ok : Nat → Prop}

/-- Store `b` in word `j` of block `c`. -/
def link (w : Nat → Nat → Nat) (c j b : Nat) : Nat → Nat → Nat :=
  fun x i => if x = c ∧ i = j then b else w x i

/-- A fresh zeroed block stored in an empty word of an index block appears at
that position, and nowhere else. -/
theorem addr_link (pos : 0 < W) (placed : Placed (fun a => addr W w (H a)) ok) {a : ι} {p : Pos}
    {i b : Nat} (below : p.parent W = some i) (there : idx W w (H a) i ≠ 0)
    (empty : addr W w (H a) p = 0) (fresh : Fresh (fun a => addr W w (H a)) b)
    (zeroed : ∀ j ≤ W, w b j = 0) (a' : ι) (q : Pos) :
    addr W (link w (idx W w (H a) i) (p.word W) b) (H a') q =
      if a' = a ∧ q = p then b else addr W w (H a') q := by
  have apart : b ≠ idx W w (H a) i := fun same => fresh.unused a (.index i) same.symm
  -- an index block found in both places is one index block of one chain
  have only : ∀ {a' j}, idx W w (H a') j ≠ 0 → idx W w (H a') j = idx W w (H a) i →
      a' = a ∧ j = i := by
    intro a' j used same
    have both : a' = a ∧ Pos.index j = Pos.index i := placed.inj same used
    exact ⟨both.1, Pos.index.inj both.2⟩
  have index : ∀ a' j, idx W (link w (idx W w (H a) i) (p.word W) b) (H a') j =
      if a' = a ∧ Pos.index j = p then b else idx W w (H a') j := by
    intro a' j
    induction j with
    | zero =>
      have first : Pos.index 0 ≠ p := by
        rintro rfl
        cases below
      simp [idx, first]
    | succ j ih =>
      simp only [idx, ih]
      by_cases here : a' = a ∧ Pos.index j = p
      · -- the new block is this one's predecessor, and holds nothing yet
        obtain ⟨rfl, rfl⟩ := here
        have missing : idx W w (H a') j = 0 := empty
        have later : Pos.index (j + 1) ≠ Pos.index j := by simp
        simp [fresh.ne_zero, link, apart, zeroed W (Nat.le_refl W), missing, later]
      · rw [if_neg here]
        by_cases missing : idx W w (H a') j = 0
        · have elsewhere : ¬ (a' = a ∧ Pos.index (j + 1) = p) := by
            rintro ⟨rfl, rfl⟩
            obtain rfl : j = i := Option.some.inj below
            exact there missing
          simp [missing, elsewhere]
        · simp only [if_neg missing, link]
          refine if_congr ?_ rfl rfl
          constructor
          · rintro ⟨same, word⟩
            obtain ⟨rfl, rfl⟩ := only missing same
            exact ⟨rfl, pos_ext pos rfl below word⟩
          · rintro ⟨rfl, rfl⟩
            obtain rfl : j = i := Option.some.inj below
            exact ⟨rfl, rfl⟩
  cases q with
  | index j =>
    simp only [addr, index]
  | item n =>
    simp only [addr, index]
    by_cases here : a' = a ∧ Pos.index (n / W) = p
    · obtain ⟨rfl, rfl⟩ := here
      have missing : idx W w (H a') (n / W) = 0 := empty
      have item_word : n % W ≤ W := Nat.le_of_lt (Nat.mod_lt n pos)
      simp [fresh.ne_zero, link, apart, zeroed _ item_word, missing]
    · rw [if_neg here]
      by_cases missing : idx W w (H a') (n / W) = 0
      · have elsewhere : ¬ (a' = a ∧ Pos.item n = p) := by
          rintro ⟨rfl, rfl⟩
          obtain rfl : n / W = i := Option.some.inj below
          exact there missing
        simp [missing, elsewhere]
      · simp only [if_neg missing, link]
        refine if_congr ?_ rfl rfl
        constructor
        · rintro ⟨same, word⟩
          obtain ⟨rfl, rfl⟩ := only missing same
          exact ⟨rfl, pos_ext pos rfl below word⟩
        · rintro ⟨rfl, rfl⟩
          obtain rfl : n / W = i := Option.some.inj below
          exact ⟨rfl, rfl⟩

/-- A fresh zeroed block as the first index block of an empty chain. -/
theorem addr_head (pos : 0 < W) {a : ι} {b : Nat} (empty : H a = 0) (zeroed : ∀ j ≤ W, w b j = 0)
    (a' : ι) (q : Pos) :
    addr W w (update H a b a') q = if a' = a ∧ q = .index 0 then b else addr W w (H a') q := by
  by_cases here : a' = a
  · subst here
    rw [update_self, empty, addr_zero]
    have rest : ∀ i, idx W w b (i + 1) = 0 := by
      intro i
      induction i with
      | zero => simp only [idx, zeroed W (Nat.le_refl W), ite_self]
      | succ i ih => rw [idx, if_pos ih]
    cases q with
    | index i =>
      cases i with
      | zero => simp [addr, idx]
      | succ i => simp [addr, rest]
    | item n =>
      simp only [addr, reduceCtorEq, and_false, if_false]
      cases quot : n / W with
      | zero => simp only [idx, zeroed _ (Nat.le_of_lt (Nat.mod_lt n pos)), ite_self]
      | succ i => simp [rest]
  · simp [here]

end Growing

end BasicOS.Lib.Chain
