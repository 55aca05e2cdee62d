/-
# BasicOS.Vm.Copyuvm — the address space of a child

`copyuvm` maps a copy of each page of the parent at the same address.  The child is
made of free pages, so the two address spaces have no page in common:
`Separate`.  That is kept by every store of either process (`Separate.store`), so no
store of one is ever seen by the other.
-/
import Mathlib.Data.Finset.Card
import Mathlib.Data.Finset.Range
import BasicOS.Vm.Dealloc
import BasicOS.Vm.NewImage

namespace BasicOS.Vm

open Function Lib
open Lib.Prog

set_option autoImplicit false

variable {K : Link} {m m' m₁ : Mem} {d d₀ v : Nat} {e : UInt32}

/-! ## Flags -/

theorem or_one_of_odd {n : Nat} (odd : n % 2 = 1) : n ||| 1 = n := by
  apply Nat.eq_of_testBit_eq
  intro i
  rw [Nat.testBit_or]
  cases i with
  | zero => simp [odd]
  | succ i => simp [Nat.testBit_succ]

/-- Mapping with the flags of a present entry stores those flags. -/
theorem pteFlags_entryWord {f : Nat} (page : f < 2 ^ 20) (present : Present e) :
    pteFlags (entryWord f (pteFlags e ||| pteP)) = pteFlags e := by
  have low : ∀ e : UInt32, (pteFlags e).toNat = e.toNat % 2 ^ 12 := fun e => by
    unfold pteFlags
    rw [UInt32.toNat_and]
    exact Nat.and_two_pow_sub_one_eq_mod _ 12
  have odd : pteFlags e ||| pteP = pteFlags e := by
    apply UInt32.toNat_inj.mp
    have bit : (e.toNat % 2 ^ 12) % 2 = 1 := by
      rw [present_iff] at present
      omega
    rw [UInt32.toNat_or, low]
    exact or_one_of_odd bit
  rw [odd]
  apply UInt32.toNat_inj.mp
  rw [low, toNat_entryWord page (pteFlags_lt e)]
  have := pteFlags_lt e
  simp only [pgsize] at *
  omega

/-! ## The loop -/

/-- The first `v` pages of the parent have been copied into a space that had only the
kernel's part, as it was in `m₁`. -/
structure Copied (K : Link) (m : Mem) (d₀ d : Nat) (m₁ : Mem) (v : Nat) (m' : Mem) : Prop where
  space : Space K m' d none
  changes : Changes m nothing m' (own m' d none)
  same : ∀ w < v, ∃ e e' b, m.leaf d₀ w = some e ∧ m'.upage d w = some (e', b) ∧
    pteFlags e' = pteFlags e ∧ ∀ o < pgsize, b o = m.page (pteAddr e) o
  empty : ∀ w < 2 ^ 19, v ≤ w → m'.leaf d w = none
  kernel : ∀ w < 2 ^ 20, 2 ^ 19 ≤ w → m'.leaf d w = m₁.leaf d w

theorem Copied.snoc {f : Nat} {m₂ m₃ m₄ : Mem} (copied : Copied K m d₀ d m₁ v m₂) (user : v < 2 ^ 19)
    (leaf : m.leaf d₀ v = some e) (present : Present e) (page : f < 2 ^ 20)
    (changes : Changes m₂ (own m₂ d none) m₃ (own m₃ d (some f)))
    (leaf₃ : ∀ w < 2 ^ 20, m₃.leaf d w = m₂.leaf d w)
    (upage₃ : ∀ w < 2 ^ 19, m₃.upage d w = m₂.upage d w)
    (bytes : ∀ o < pgsize, m₃.page f o = m.page (pteAddr e) o)
    (mapped : Mapped K d v f (pteFlags e) m₃ m₄) : Copied K m d₀ d m₁ (v + 1) m₄ := by
  refine ⟨mapped.space, (copied.changes.trans changes).trans mapped.changes, fun w less => ?_,
    fun w below after => ?_, fun w high low => ?_⟩
  · by_cases here : w = v
    · subst here
      exact ⟨e, _, _, leaf, mapped.here, pteFlags_entryWord page present, bytes⟩
    · obtain ⟨e', e'', b, has, copy, flags, same⟩ := copied.same w (by omega)
      exact ⟨e', e'', b, has, by rw [mapped.upage w (by omega) here, upage₃ w (by omega), copy], flags, same⟩
  · rw [Mem.leaf_of_upage (mapped.upage w below (by omega)), leaf₃ w (by omega)]
    exact copied.empty w below (by omega)
  · rw [mapped.kernel w high low, leaf₃ w high, copied.kernel w high low]

/-- The outcomes of `copyuvm` from the loop on. -/
def CopyDone (K : Link) (m : Mem) (d₀ sz d : Nat) (m₁ : Mem) (r : Option Nat) (m' : Mem) : Prop :=
  match r with
  | none => Changes m nothing m' nothing
  | some d' => d' = d ∧ Copied K m d₀ d m₁ (pages sz) m'

theorem copyuvmLoop_spec {sz fuel : Nat} {m₂ : Mem} (parent : Space K m d₀ none) (below : sz ≤ kernbase)
    (mapped : ∀ w < pages sz, m.leaf d₀ w ≠ none) (copied : Copied K m d₀ d m₁ v m₂)
    (range : v ≤ pages sz) (enough : pages sz - v < fuel) :
    wp (copyuvmLoop K d₀ sz d fuel (v * pgsize)) (CopyDone K m d₀ sz d m₁) (fun _ => False) m₂ := by
  have bound := pages_le below
  induction fuel generalizing m₂ v with
  | zero => omega
  | succ fuel ih =>
    obtain ⟨parent₂, places, pages₂⟩ := parent.beside copied.changes
    unfold copyuvmLoop
    refine wp_ite (fun more => ?_) fun done => ?_
    · have less : v < pages sz := lt_pages.mp more
      obtain ⟨e, leaf⟩ := Option.ne_none_iff_exists'.mp (mapped v less)
      have leaf₂ : m₂.leaf d₀ v = some e := (Mem.leaf_of_upage (pages₂ v (by omega))).trans leaf
      obtain ⟨t, has⟩ := table_of_leaf leaf₂
      obtain ⟨word, present⟩ := word_of_leaf has leaf₂
      rw [word] at present
      have page : m₂.page (pteAddr e) = m.page (pteAddr e) := by
        have both := pages₂ v (by omega)
        rw [upage_of_leaf leaf₂, upage_of_leaf leaf] at both
        exact congrArg Prod.snd (Option.some.inj both)
      rw [wp_bind]
      refine wp_of_run (walkpgdir_find _) ?_
      rw [pdx_page (by omega), ptx_page, has]
      dsimp only [Option.map_some]
      rw [wp_bind, wp_get, word, if_neg (not_not.mpr present), wp_bind]
      cases free : m₂.free with
      | nil =>
        refine wp_of_run (kalloc_none free) ?_
        dsimp only
        exact wp_seq (freevm_spec copied.space) fun _ m₃ freed => copied.changes.trans freed
      | cons f rest =>
        refine wp_of_run (kalloc_some free) ?_
        have others : ∀ g, g ≠ f → (({ m₂ with free := rest } : Mem).write f 0
            (m₂.page (pteAddr e)) pgsize).page g = m₂.page g := fun g other => Mem.page_write_ne other
        obtain ⟨space₃, changes₃, leaf₃, upage₃⟩ := taken_space copied.space free rfl others
        have unmapped := (leaf₃ v (by omega)).trans (copied.empty v (by omega) (Nat.le_refl v))
        dsimp only
        rw [wp_bind, wp_modify]
        refine wp_seq (mappages_user space₃ (by omega) unmapped (pteFlags_lt e))
          fun done m₄ mapped' => ?_
        cases done with
        | true =>
          rw [if_pos rfl, next_page (by omega) rfl]
          refine ih (copied.snoc (by omega) leaf present
            (space₃.small (.inr ⟨.hand, rfl⟩)) changes₃ leaf₃ upage₃ (fun o inside => ?_) mapped')
            (by omega) (by omega)
          rw [Mem.page_write_self, Bytes.copy_inside (Nat.zero_le o) (by omega), page]
          rfl
        | false =>
          obtain rfl := mapped'
          rw [if_neg (by decide)]
          refine wp_seq (returned_space space₃) fun _ m₅ returned => ?_
          obtain ⟨space₅, changes₅, -⟩ := returned
          exact wp_seq (freevm_spec space₅) fun _ m₆ freed =>
            ((copied.changes.trans changes₃).trans changes₅).trans freed
    · have last : v = pages sz := by
        have := mt lt_pages.mpr done
        omega
      exact ⟨rfl, last ▸ copied⟩

/-! ## Two address spaces -/

/-- The address spaces have no page in common. -/
structure Separate (K : Link) (m : Mem) (d d' : Nat) : Prop where
  left : Space K m d none
  right : Space K m d' none
  apart : ∀ s s' f, own m d none s = some f → own m d' none s' ≠ some f

theorem Separate.symm {d' : Nat} (separate : Separate K m d d') : Separate K m d' d :=
  ⟨separate.right, separate.left, fun s s' f has has' => separate.apart s' s f has' has⟩

/-- A process with directory `d` stores the byte `b` at `a`, if it has a page there. -/
def Mem.store (m : Mem) (d a : Nat) (b : UInt8) : Mem :=
  match m.userFrame d (a / pgsize) with
  | some f => m.write f (a % pgsize) (fun _ => b) 1
  | none => m

/-- A store of one process keeps the spaces apart, and the other does not see it. -/
theorem Separate.store {d' a : Nat} (b : UInt8) (separate : Separate K m d d') (inside : a < 2 ^ 32) :
    Separate K (m.store d a b) d d' ∧ ∀ w < 2 ^ 19, (m.store d a b).upage d' w = m.upage d' w := by
  unfold Mem.store
  cases frame : m.userFrame d (a / pgsize) with
  | none => exact ⟨separate, fun _ _ => rfl⟩
  | some f =>
    dsimp only
    have page : a / pgsize < 2 ^ 20 := by
      simp only [pgsize]
      omega
    have user := separate.left.userFrame_lt page frame
    obtain ⟨e, leaf, -, rfl⟩ := userFrame_eq_some frame
    obtain ⟨left, changes, -⟩ := write_user (a % pgsize) 1 (fun _ => b) separate.left user leaf
    have out : ∀ s f, own m d' none s = some f → ¬ Accounted m.free (own m d none) f := by
      rintro s f has (mem | ⟨s', has'⟩)
      · exact separate.right.held.taken has mem
      · exact separate.apart s' s f has' has
    obtain ⟨right, places, pages⟩ := separate.right.bystander out separate.left.managed changes
    refine ⟨⟨left, right, fun s s' f has has' => ?_⟩, pages⟩
    rw [places] at has'
    exact out s' f has' ((changes.trade.same f).mp (.inr ⟨s, has⟩))

/-- Any number of stores of the two processes. -/
inductive Stores (d d' : Nat) (m : Mem) : Mem → Prop
  | none : Stores d d' m m
  | left {m' : Mem} {a : Nat} (b : UInt8) (inside : a < 2 ^ 32) :
      Stores d d' m m' → Stores d d' m (m'.store d a b)
  | right {m' : Mem} {a : Nat} (b : UInt8) (inside : a < 2 ^ 32) :
      Stores d d' m m' → Stores d d' m (m'.store d' a b)

theorem Separate.stores {d' : Nat} (separate : Separate K m d d') (stores : Stores d d' m m') :
    Separate K m' d d' := by
  induction stores with
  | none => exact separate
  | left b inside _ ih => exact (ih.store b inside).1
  | right b inside _ ih => exact (ih.symm.store b inside).1.symm

/-! ## copyuvm -/

/-- No address space has more pages than there are. -/
theorem Space.mapped_le {n : Nat} {h : Option Nat} (space : Space K m d h) (user : n ≤ 2 ^ 19)
    (mapped : ∀ w < n, m.leaf d w ≠ none) : n ≤ phystop / pgsize := by
  have maps : ∀ w ∈ Finset.range n, ((m.leaf d w).map pteAddr).getD 0 ∈ Finset.range (phystop / pgsize) := by
    intro w mem
    have less := Finset.mem_range.mp mem
    obtain ⟨e, leaf⟩ := Option.ne_none_iff_exists'.mp (mapped w less)
    rw [leaf]
    exact Finset.mem_range.mpr (space.managed _ (.inr ⟨_, own_leaf (by omega) leaf⟩)).2
  have different : Set.InjOn (fun w => ((m.leaf d w).map pteAddr).getD 0) (Finset.range n) := by
    intro w mem w' mem' same
    have less := Finset.mem_range.mp (Finset.mem_coe.mp mem)
    have less' := Finset.mem_range.mp (Finset.mem_coe.mp mem')
    obtain ⟨e, leaf⟩ := Option.ne_none_iff_exists'.mp (mapped w less)
    obtain ⟨e', leaf'⟩ := Option.ne_none_iff_exists'.mp (mapped w' less')
    simp only [leaf, leaf'] at same
    exact space.page_unique (by omega) (by omega) leaf leaf' same
  simpa using Finset.card_le_card_of_injOn _ maps different

end BasicOS.Vm
