/-
# BasicOS.Vm.Space — an address space and the pages it is made of

`own m d h` gives the physical page in each place of the address space with
directory `d`: the directory, its page tables, the user pages, and the page `h`
that a function has taken from the allocator and not mapped yet.  `Space` says
that these pages and the free ones are in custody (`Lib.Custody`), are pages the
allocator manages, and that no kernel address is a user page.

The two writes that build an address space are followed here: a new page table
(`addTable_own`) and a new entry (`setWord_own`).
-/
import BasicOS.Lib.Custody
import BasicOS.Vm.Paging
import Mathlib.Data.Nat.Bitwise

namespace BasicOS.Vm

open Function Lib

set_option autoImplicit false

/-! ## Entries -/

theorem present_iff (e : UInt32) : Present e ↔ e.toNat % 2 = 1 := by
  have word : (e &&& pteP).toNat = e.toNat % 2 := by
    rw [UInt32.toNat_and]
    exact Nat.and_one_is_mod _
  unfold Present
  rw [ne_eq, ← UInt32.toNat_inj, word, UInt32.toNat_zero]
  omega

theorem user_iff (e : UInt32) : User e ↔ e.toNat / 4 % 2 = 1 := by
  have word : (e &&& pteU).toNat = (e.toNat.testBit 2).toNat * 4 := by
    rw [UInt32.toNat_and]
    exact Nat.and_two_pow _ 2
  unfold User
  rw [ne_eq, ← UInt32.toNat_inj, word, UInt32.toNat_zero, Nat.testBit_eq_decide_div_mod_eq]
  simp

theorem pteAddr_eq (e : UInt32) : pteAddr e = e.toNat / pgsize := by
  unfold pteAddr
  rw [UInt32.toNat_shiftRight]
  exact Nat.shiftRight_eq_div_pow _ 12

@[simp] theorem not_present_zero : ¬ Present 0 := by decide

/-- The entry that maps page `f`. -/
def entryWord (f : Nat) (flags : UInt32) : UInt32 :=
  UInt32.ofNat (f * pgsize) ||| flags

section EntryWord

variable {f : Nat} {flags : UInt32}

theorem toNat_entryWord (page : f < 2 ^ 20) (small : flags.toNat < pgsize) :
    (entryWord f flags).toNat = f * pgsize + flags.toNat := by
  have shifted : f * pgsize = f <<< 12 := (Nat.shiftLeft_eq f 12).symm
  have bound : f * pgsize < 2 ^ 32 := Nat.mul_lt_mul_of_pos_right page (by decide : 0 < pgsize)
  rw [entryWord, UInt32.toNat_or, UInt32.toNat_ofNat', Nat.mod_eq_of_lt bound, shifted,
    Nat.shiftLeft_add_eq_or_of_lt small]

theorem pteAddr_entryWord (page : f < 2 ^ 20) (small : flags.toNat < pgsize) :
    pteAddr (entryWord f flags) = f := by
  rw [pteAddr_eq, toNat_entryWord page small, Nat.add_comm,
    Nat.add_mul_div_right _ _ (by decide), Nat.div_eq_of_lt small, Nat.zero_add]

theorem present_entryWord (page : f < 2 ^ 20) (small : flags.toNat < pgsize) :
    Present (entryWord f flags) ↔ Present flags := by
  rw [present_iff, present_iff, toNat_entryWord page small]
  simp only [pgsize]
  omega

theorem user_entryWord (page : f < 2 ^ 20) (small : flags.toNat < pgsize) :
    User (entryWord f flags) ↔ User flags := by
  rw [user_iff, user_iff, toNat_entryWord page small]
  simp only [pgsize]
  omega

end EntryWord

/-- The flags that `mappages` stores for the permission `perm`. -/
theorem mapped_flags {perm : UInt32} (small : perm.toNat < pgsize) :
    (perm ||| pteP).toNat < pgsize ∧ Present (perm ||| pteP) ∧ (User (perm ||| pteP) ↔ User perm) := by
  have bits : (perm ||| pteP).toNat = perm.toNat ||| 1 := UInt32.toNat_or perm pteP
  have bound : (perm.toNat ||| 1) < 2 ^ 12 := Nat.or_lt_two_pow small (by decide)
  refine ⟨by rw [bits]; exact bound, ?_, ?_⟩
  · rw [present_iff, bits, Nat.or_mod_two_eq_one]
    exact .inr rfl
  · have same : (perm.toNat ||| 1) / 2 ^ 2 = perm.toNat / 2 ^ 2 := by
      rw [Nat.or_div_two_pow]
      exact Nat.or_zero _
    rw [user_iff, user_iff, bits]
    omega

theorem pteFlags_lt (e : UInt32) : (pteFlags e).toNat < pgsize := by
  unfold pteFlags
  rw [UInt32.toNat_and]
  exact Nat.lt_of_le_of_lt Nat.and_le_right (by decide)

/-! ## Writes to memory -/

namespace Mem

variable {m : Mem} {f g i j : Nat} {e : UInt32}

@[simp] theorem free_setWord : (m.setWord f i e).free = m.free := rfl

@[simp] theorem free_fill {b : UInt8} : (m.fill f b).free = m.free := rfl

@[simp] theorem free_write {o n : Nat} {src : Bytes} : (m.write f o src n).free = m.free := rfl

theorem page_setWord_ne (other : g ≠ f) : (m.setWord f i e).page g = m.page g :=
  update_of_ne other _ _

theorem page_fill_ne {b : UInt8} (other : g ≠ f) : (m.fill f b).page g = m.page g :=
  update_of_ne other _ _

theorem page_fill_self {b : UInt8} : (m.fill f b).page f = fun _ => b :=
  update_self _ _ _

theorem page_write_ne {o n : Nat} {src : Bytes} (other : g ≠ f) :
    (m.write f o src n).page g = m.page g :=
  update_of_ne other _ _

theorem page_write_self {o n : Nat} {src : Bytes} :
    (m.write f o src n).page f = (m.page f).copy o src n :=
  update_self _ _ _

theorem word_congr {m' : Mem} (same : m'.page f = m.page f) : m'.word f i = m.word f i :=
  congrArg (Bytes.get32 · (4 * i)) same

theorem word_setWord : (m.setWord f i e).word f i = e := by
  simp [word, setWord]

theorem word_setWord_ne (other : j ≠ i) : (m.setWord f i e).word f j = m.word f j := by
  simp only [word, setWord, update_self]
  exact Bytes.get32_put32_ne (by omega)

/-- The page table of directory entry `i`. -/
def table (m : Mem) (d i : Nat) : Option Nat :=
  if Present (m.word d i) then some (pteAddr (m.word d i)) else none

/-- The present entry of virtual page `v`. -/
def leaf (m : Mem) (d v : Nat) : Option UInt32 :=
  (m.table d (v / 1024)).bind fun t =>
    if Present (m.word t (v % 1024)) then some (m.word t (v % 1024)) else none

variable {d t v : Nat}

theorem table_eq_some (has : m.table d i = some t) :
    Present (m.word d i) ∧ pteAddr (m.word d i) = t := by
  unfold table at has
  split at has
  · exact ⟨‹_›, Option.some.inj has⟩
  · cases has

theorem leaf_of_table (has : m.table d (v / 1024) = some t) :
    m.leaf d v = if Present (m.word t (v % 1024)) then some (m.word t (v % 1024)) else none := by
  unfold leaf
  rw [has]
  rfl

theorem leaf_of_no_table (absent : m.table d (v / 1024) = none) : m.leaf d v = none := by
  unfold leaf
  rw [absent]
  rfl

theorem not_present_of_leaf (has : m.table d (v / 1024) = some t) (empty : m.leaf d v = none) :
    ¬ Present (m.word t (v % 1024)) := by
  intro present
  rw [leaf_of_table has, if_pos present] at empty
  cases empty

/-- A present entry is in a table. -/
theorem leaf_eq_some (has : m.leaf d v = some e) :
    ∃ t, m.table d (v / 1024) = some t ∧ m.word t (v % 1024) = e ∧ Present e := by
  cases table : m.table d (v / 1024) with
  | none => rw [leaf_of_no_table table] at has; cases has
  | some t =>
    rw [leaf_of_table table] at has
    split at has
    · exact ⟨t, rfl, Option.some.inj has, Option.some.inj has ▸ ‹_›⟩
    · cases has

/-- The translation depends on the directory and its tables. -/
theorem leaf_congr {m' : Mem} (dir : m'.page d = m.page d)
    (tables : ∀ t, m.table d (v / 1024) = some t → m'.page t = m.page t) :
    m'.leaf d v = m.leaf d v := by
  have same : m'.table d (v / 1024) = m.table d (v / 1024) := by
    unfold table
    rw [word_congr dir]
  cases has : m.table d (v / 1024) with
  | none => rw [leaf_of_no_table has, leaf_of_no_table (same.trans has)]
  | some t => rw [leaf_of_table has, leaf_of_table (same.trans has), word_congr (tables t has)]

/-- The entry of a user page and its bytes. -/
def upage (m : Mem) (d v : Nat) : Option (UInt32 × Bytes) :=
  (m.leaf d v).map fun e => (e, m.page (pteAddr e))

theorem upage_congr {m' : Mem} (leaf : m'.leaf d v = m.leaf d v)
    (bytes : ∀ e, m.leaf d v = some e → m'.page (pteAddr e) = m.page (pteAddr e)) :
    m'.upage d v = m.upage d v := by
  unfold upage
  rw [leaf]
  cases has : m.leaf d v with
  | none => rfl
  | some e => exact congrArg (fun b => some (e, b)) (bytes e has)

theorem leaf_of_upage_some {b : Bytes} (has : m.upage d v = some (e, b)) : m.leaf d v = some e := by
  obtain ⟨e', leaf, same⟩ := Option.map_eq_some_iff.mp has
  rw [leaf, (Prod.mk.inj same).1]

theorem leaf_of_upage {m' : Mem} (same : m'.upage d v = m.upage d v) :
    m'.leaf d v = m.leaf d v := by
  have first := congrArg (Option.map Prod.fst) same
  simpa [upage, Option.map_map, Function.comp_def] using first

end Mem

/-! ## Places -/

inductive Slot where
  | dir
  | table (i : Nat)
  | page (v : Nat)
  | hand
  deriving DecidableEq

/-- The physical page in each place. -/
def own (m : Mem) (d : Nat) (h : Option Nat) : Slot → Option Nat
  | .dir => some d
  | .table i => if i < 1024 then m.table d i else none
  | .page v => if v < 2 ^ 19 then (m.leaf d v).map pteAddr else none
  | .hand => h

/-- The pages are above the kernel and below the end of memory. -/
def Managed {P : Type} (K : Link) (free : List Nat) (o : P → Option Nat) : Prop :=
  ∀ f, Accounted free o f → K.top ≤ f ∧ f < phystop / pgsize

/-- A well-formed address space with directory `d`. -/
structure Space (K : Link) (m : Mem) (d : Nat) (h : Option Nat) : Prop where
  held : Held m.free (own m d h)
  managed : Managed K m.free (own m d h)
  kernel : ∀ v e, 2 ^ 19 ≤ v → v < 2 ^ 20 → m.leaf d v = some e → ¬ User e

/-- From `m` to `m'` the pages in the places `o` and the free ones went to `o'` or
became free, and no other page was written. -/
structure Changes {P Q : Type} (m : Mem) (o : P → Option Nat) (m' : Mem) (o' : Q → Option Nat) :
    Prop where
  trade : Trade m.free o m'.free o'
  others : ∀ f, ¬ Accounted m.free o f → m'.page f = m.page f

section Changes

variable {P Q R : Type} {m m' m'' : Mem} {o : P → Option Nat} {o' : Q → Option Nat}
  {o'' : R → Option Nat}

theorem Changes.refl (held : Held m.free o) : Changes m o m o :=
  ⟨held.refl, fun _ _ => rfl⟩

theorem Changes.trans (first : Changes m o m' o') (second : Changes m' o' m'' o'') :
    Changes m o m'' o'' := by
  refine ⟨first.trade.trans second.trade, fun f out => ?_⟩
  rw [second.others f fun counted => out ((first.trade.same f).mp counted), first.others f out]

theorem Changes.managed {K : Link} (changes : Changes m o m' o') (managed : Managed K m.free o) :
    Managed K m'.free o' :=
  fun f counted => managed f ((changes.trade.same f).mp counted)

end Changes

/-! ## What the places cannot share -/

section Places

variable {K : Link} {m : Mem} {d i v t f : Nat} {h : Option Nat} {e : UInt32}

theorem own_table (below : i < 1024) : own m d h (.table i) = m.table d i :=
  if_pos below

theorem own_page (below : v < 2 ^ 19) : own m d h (.page v) = (m.leaf d v).map pteAddr :=
  if_pos below

/-- The places depend on the directory and its tables. -/
theorem own_congr {m' : Mem} (dir : m'.page d = m.page d)
    (tables : ∀ i < 1024, ∀ t, m.table d i = some t → m'.page t = m.page t) :
    own m' d h = own m d h := by
  funext s
  cases s with
  | dir => rfl
  | hand => rfl
  | table i =>
    simp only [own, Mem.table]
    rw [Mem.word_congr dir]
  | page v =>
    simp only [own]
    split
    · rw [Mem.leaf_congr dir (tables _ (by omega))]
    · rfl

theorem own_leaf (below : v < 2 ^ 19) (has : m.leaf d v = some e) :
    own m d h (.page v) = some (pteAddr e) := by
  rw [own_page below, has]
  rfl

namespace Space

variable (space : Space K m d h)
include space

theorem small (counted : Accounted m.free (own m d h) f) : f < 2 ^ 20 :=
  Nat.lt_trans (space.managed f counted).2 (by decide)

theorem pos (counted : Accounted m.free (own m d h) f) : 0 < f := by
  have := (space.managed f counted).1
  have := K.order
  omega

/-- The directory is none of its tables. -/
theorem table_ne_dir (below : i < 1024) (has : m.table d i = some t) : t ≠ d := by
  rintro rfl
  have same := space.held.unique (p := .table i) (q := .dir) ((own_table below).trans has) rfl
  cases same

/-- No two directory entries have one table. -/
theorem table_unique {i j : Nat} (low : i < 1024) (low' : j < 1024)
    (has : m.table d i = some t) (has' : m.table d j = some t) : i = j := by
  have same := space.held.unique (p := .table i) (q := .table j) ((own_table low).trans has)
    ((own_table low').trans has')
  cases same
  rfl

/-- A user page is neither the directory nor a table. -/
theorem page_apart (below : v < 2 ^ 19) (has : m.leaf d v = some e) :
    pteAddr e ≠ d ∧ ∀ i < 1024, m.table d i ≠ some (pteAddr e) := by
  have here := own_leaf (h := h) below has
  constructor
  · intro same
    have := space.held.unique (p := .page v) (q := .dir) here (same ▸ rfl)
    cases this
  · intro i low table
    have := space.held.unique (p := .page v) (q := .table i) here ((own_table low).trans table)
    cases this

theorem page_unique {v' : Nat} {e' : UInt32} (below : v < 2 ^ 19) (below' : v' < 2 ^ 19)
    (has : m.leaf d v = some e) (has' : m.leaf d v' = some e') (same : pteAddr e = pteAddr e') :
    v = v' := by
  have := space.held.unique (p := .page v) (q := .page v') (own_leaf below has)
    (same ▸ own_leaf below' has')
  cases this
  rfl

end Space

/-- Writing a page that is neither the directory nor a table leaves the translation
as it is. -/
theorem leaf_of_apart {m' : Mem} (apart : f ≠ d ∧ ∀ i < 1024, m.table d i ≠ some f)
    (same : ∀ g, g ≠ f → m'.page g = m.page g) (inside : v < 2 ^ 20) :
    m'.leaf d v = m.leaf d v :=
  Mem.leaf_congr (same d apart.1.symm) fun t has =>
    same t fun here => apart.2 _ (by omega) (here ▸ has)

theorem own_of_apart {m' : Mem} (apart : f ≠ d ∧ ∀ i < 1024, m.table d i ≠ some f)
    (same : ∀ g, g ≠ f → m'.page g = m.page g) : own m' d h = own m d h :=
  own_congr (same d apart.1.symm) fun i low t has => same t fun here => apart.2 i low (here ▸ has)

/-- An address space whose pages are not among those that change places is left as
it is. -/
theorem Space.bystander {P Q : Type} {o : P → Option Nat} {o' : Q → Option Nat} {m' : Mem}
    (space : Space K m d h) (out : ∀ s f, own m d h s = some f → ¬ Accounted m.free o f)
    (managed : Managed K m.free o) (changes : Changes m o m' o') :
    Space K m' d h ∧ own m' d h = own m d h ∧ ∀ v < 2 ^ 19, m'.upage d v = m.upage d v := by
  have page : ∀ s f, own m d h s = some f → m'.page f = m.page f := fun s f has =>
    changes.others f (out s f has)
  have dir : m'.page d = m.page d := page .dir d rfl
  have tables : ∀ i < 1024, ∀ t, m.table d i = some t → m'.page t = m.page t := fun i low t has =>
    page (.table i) t ((own_table low).trans has)
  have leaf : ∀ v < 2 ^ 20, m'.leaf d v = m.leaf d v := fun v inside =>
    Mem.leaf_congr dir (tables _ (by omega))
  have places : own m' d h = own m d h := own_congr dir tables
  have free : ∀ {s f}, own m d h s = some f → f ∉ m'.free := fun has mem =>
    out _ _ has ((changes.trade.same _).mp (.inl mem))
  refine ⟨⟨⟨changes.trade.held.nodup, fun ha hb => ?_, fun ha => ?_⟩, fun f counted => ?_,
    fun v e low high has => ?_⟩, places, fun v user => ?_⟩
  · rw [places] at ha hb
    exact space.held.unique ha hb
  · rw [places] at ha
    exact free ha
  · rcases counted with mem | ⟨s, has⟩
    · exact managed f ((changes.trade.same f).mp (.inl mem))
    · rw [places] at has
      exact space.managed f (.inr ⟨s, has⟩)
  · rw [leaf v high] at has
    exact space.kernel v e low high has
  · exact Mem.upage_congr (leaf v (by omega)) fun e has => page (.page v) _ (own_leaf user has)

/-! ## A new page table -/

/-- Page `t`, taken from the free list, becomes the table of entry `i`. -/
def Mem.addTable (m : Mem) (d i t : Nat) (free : List Nat) : Mem :=
  (({ m with free := free } : Mem).fill t 0).setWord d i
    (UInt32.ofNat (t * pgsize) ||| pteP ||| pteW ||| pteU)

theorem addTable_word (m : Mem) (d i t : Nat) (free : List Nat) (page : t < 2 ^ 20) :
    Present ((m.addTable d i t free).word d i) ∧ pteAddr ((m.addTable d i t free).word d i) = t := by
  have flags : UInt32.ofNat (t * pgsize) ||| pteP ||| pteW ||| pteU = entryWord t 7 := by
    rw [entryWord, UInt32.or_assoc, UInt32.or_assoc]
    rfl
  have small : (7 : UInt32).toNat < pgsize := by decide
  unfold Mem.addTable
  rw [Mem.word_setWord, flags]
  exact ⟨(present_entryWord page small).mpr (by decide), pteAddr_entryWord page small⟩

section AddTable

variable {free : List Nat} (space : Space K m d h) (head : m.free = t :: free)
  (below : i < 1024) (absent : m.table d i = none)
include space head

theorem addTable_fresh : t < 2 ^ 20 ∧ t ≠ d ∧ ∀ j < 1024, m.table d j ≠ some t := by
  have mem : t ∈ m.free := head ▸ List.mem_cons_self
  refine ⟨space.small (.inl mem), ?_, fun j low has => ?_⟩
  · rintro rfl
    exact space.held.taken (p := .dir) rfl mem
  · exact space.held.taken (p := .table j) ((own_table low).trans has) mem

theorem addTable_table {j : Nat} :
    (m.addTable d i t free).table d j = if j = i then some t else m.table d j := by
  obtain ⟨page, other, -⟩ := addTable_fresh space head
  split
  · rename_i here
    obtain ⟨present, addr⟩ := addTable_word m d i t free page
    rw [here]
    unfold Mem.table
    rw [if_pos present, addr]
  · rename_i elsewhere
    have same : (m.addTable d i t free).word d j = m.word d j := by
      unfold Mem.addTable
      rw [Mem.word_setWord_ne elsewhere]
      exact Mem.word_congr (Mem.page_fill_ne other.symm)
    unfold Mem.table
    rw [same]

include absent in
theorem addTable_leaf (inside : v < 2 ^ 20) : (m.addTable d i t free).leaf d v = m.leaf d v := by
  obtain ⟨page, other, fresh⟩ := addTable_fresh space head
  have table := addTable_table (i := i) (j := v / 1024) space head
  by_cases here : v / 1024 = i
  · rw [if_pos here] at table
    have zero : (m.addTable d i t free).word t (v % 1024) = 0 := by
      unfold Mem.addTable
      rw [Mem.word_congr (Mem.page_setWord_ne other)]
      unfold Mem.word
      rw [Mem.page_fill_self]
      exact Bytes.get32_zero _
    rw [Mem.leaf_of_table table, zero, if_neg not_present_zero,
      Mem.leaf_of_no_table (here ▸ absent)]
  · rw [if_neg here] at table
    cases has : m.table d (v / 1024) with
    | none => rw [Mem.leaf_of_no_table (table.trans has), Mem.leaf_of_no_table has]
    | some t' =>
      have low : v / 1024 < 1024 := by omega
      have same : (m.addTable d i t free).page t' = m.page t' := by
        unfold Mem.addTable
        rw [Mem.page_setWord_ne (space.table_ne_dir low has),
          Mem.page_fill_ne fun same => fresh _ low (has.trans (congrArg some same))]
      rw [Mem.leaf_of_table (table.trans has), Mem.leaf_of_table has, Mem.word_congr same]

include below absent in
theorem addTable_own :
    own (m.addTable d i t free) d h = update (own m d h) (.table i) (some t) := by
  funext s
  cases s with
  | dir => rfl
  | hand => rfl
  | table j =>
    by_cases here : j = i
    · subst here
      rw [update_self, own_table below, addTable_table space head, if_pos rfl]
    · rw [update_of_ne (by simpa using here)]
      simp only [own]
      rw [addTable_table space head, if_neg here]
  | page v =>
    rw [update_of_ne (by simp)]
    simp only [own]
    split
    · rw [addTable_leaf space head absent (by omega)]
    · rfl

include below absent in
theorem addTable_changes :
    Changes m (own m d h) (m.addTable d i t free) (own (m.addTable d i t free) d h) := by
  refine ⟨?_, fun f out => ?_⟩
  · rw [addTable_own space head below absent, head]
    exact (head ▸ space.held).take ((own_table below).trans absent)
  · have other : f ≠ d := fun same => out (same ▸ .inr ⟨.dir, rfl⟩)
    have used : f ≠ t := fun same => out (.inl (by rw [head, same]; exact List.mem_cons_self))
    unfold Mem.addTable
    rw [Mem.page_setWord_ne other, Mem.page_fill_ne used]

include below absent in
theorem addTable_space : Space K (m.addTable d i t free) d h := by
  have changes := addTable_changes space head below absent
  refine ⟨changes.trade.held, changes.managed space.managed, fun v e low high has => ?_⟩
  rw [addTable_leaf space head absent high] at has
  exact space.kernel v e low high has

end AddTable

/-! ## A new entry -/

section SetWord

variable (space : Space K m d h) (inside : v < 2 ^ 20) (has : m.table d (v / 1024) = some t)
include space inside has

theorem setWord_table {j : Nat} : (m.setWord t (v % 1024) e).table d j = m.table d j := by
  have other := space.table_ne_dir (by omega) has
  unfold Mem.table
  rw [Mem.word_congr (Mem.page_setWord_ne other.symm)]

theorem setWord_leaf {v' : Nat} (inside' : v' < 2 ^ 20) : (m.setWord t (v % 1024) e).leaf d v' =
    if v' = v then (if Present e then some e else none) else m.leaf d v' := by
  have table : ∀ j, (m.setWord t (v % 1024) e).table d j = m.table d j := fun j =>
    setWord_table space inside has
  split
  · rename_i here
    subst here
    rw [Mem.leaf_of_table ((table _).trans has), Mem.word_setWord]
  · rename_i elsewhere
    cases has' : m.table d (v' / 1024) with
    | none => rw [Mem.leaf_of_no_table ((table _).trans has'), Mem.leaf_of_no_table has']
    | some t' =>
      have same : (m.setWord t (v % 1024) e).word t' (v' % 1024) = m.word t' (v' % 1024) := by
        by_cases one : t' = t
        · subst one
          have index := space.table_unique (by omega) (by omega) has' has
          exact Mem.word_setWord_ne fun same => elsewhere (by omega)
        · exact Mem.word_congr (Mem.page_setWord_ne one)
      rw [Mem.leaf_of_table ((table _).trans has'), Mem.leaf_of_table has', same]

theorem setWord_own_user {h' : Option Nat} (user : v < 2 ^ 19) :
    own (m.setWord t (v % 1024) e) d h' = update (own m d h') (.page v)
      (if Present e then some (pteAddr e) else none) := by
  funext s
  cases s with
  | dir => rfl
  | hand => rfl
  | table j =>
    rw [update_of_ne (by simp)]
    simp only [own]
    rw [setWord_table space inside has]
  | page v' =>
    by_cases here : v' = v
    · subst here
      rw [update_self, own_page user, setWord_leaf space inside has inside, if_pos rfl]
      split <;> rfl
    · rw [update_of_ne (by simpa using here)]
      simp only [own]
      split
      · rw [setWord_leaf space inside has (by omega), if_neg here]
      · rfl

theorem setWord_own_kernel (kernel : 2 ^ 19 ≤ v) :
    own (m.setWord t (v % 1024) e) d h = own m d h := by
  funext s
  cases s with
  | dir => rfl
  | hand => rfl
  | table j =>
    simp only [own]
    rw [setWord_table space inside has]
  | page v' =>
    simp only [own]
    split
    · rw [setWord_leaf space inside has (by omega), if_neg (by omega)]
    · rfl

end SetWord

end Places

end BasicOS.Vm
