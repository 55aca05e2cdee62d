/-
# BasicOS.Vm.Map — what the functions of vm.c do to an address space

One specification for each function that takes pages from the allocator or gives
them back.  Every one says that the call returns, that the pages in custody are
the same before and after (`Changes`), and what each user page is afterwards.

`mappages_user` and `mappages_kernel` are the two ways `mappages` is used,
`deallocuvm_spec`, `allocuvm_spec`, `freevm_spec` and `setupkvm_spec` follow.
-/
import BasicOS.Vm.Space

namespace BasicOS.Vm

open Function Lib
open Lib.Prog

set_option autoImplicit false

variable {K : Link} {m : Mem} {d t v f : Nat} {h : Option Nat}

/-! ## Pages and addresses -/

theorem pdx_page (inside : v < 2 ^ 20) : pdx (v * pgsize) = v / 1024 := by
  simp only [pdx, pgsize]
  omega

theorem ptx_page : ptx (v * pgsize) = v % 1024 := by
  simp only [ptx, pgsize]
  omega

theorem pgrounddown_page : pgrounddown (v * pgsize) = v * pgsize := by
  simp only [pgrounddown, pgsize]
  omega

/-- The number of pages of a size. -/
def pages (sz : Nat) : Nat :=
  (sz + (pgsize - 1)) / pgsize

theorem pgroundup_eq {sz : Nat} (below : sz ≤ kernbase) : pgroundup sz = pages sz * pgsize := by
  simp only [pgroundup, pages, pgsize, kernbase] at *
  omega

theorem lt_pages {sz : Nat} : v * pgsize < sz ↔ v < pages sz := by
  simp only [pages, pgsize]
  omega

theorem pages_le {sz : Nat} (below : sz ≤ kernbase) : pages sz ≤ 2 ^ 19 := by
  simp only [pages, pgsize, kernbase] at *
  omega

theorem next_page {a : Nat} (inside : v + 1 < 2 ^ 20) (here : a = v * pgsize) :
    (a + pgsize) % 2 ^ 32 = (v + 1) * pgsize := by
  simp only [pgsize] at *
  omega

/-! ## The allocator -/

theorem kfree_run (low : K.top ≤ f) (high : f < phystop / pgsize) :
    kfree K f m = .ok ((), { m.fill f 1 with free := f :: m.free }) := by
  have inside : ¬ (f < K.top ∨ phystop / pgsize ≤ f) := by omega
  unfold kfree
  rw [if_neg inside]
  rfl

theorem kalloc_none (empty : m.free = []) : kalloc m = .ok (none, m) := by
  unfold kalloc
  rw [run_get, empty]
  rfl

theorem kalloc_some {rest : List Nat} (head : m.free = f :: rest) :
    kalloc m = .ok (some f, { m with free := rest }) := by
  unfold kalloc
  rw [run_get, head]
  rfl

/-! ## walkpgdir -/

/-- Without `alloc`, the entry if there is a table. -/
theorem walkpgdir_find (va : Nat) : walkpgdir d va false m =
    .ok ((m.table d (pdx va)).map fun t => (t, ptx va), m) := by
  show (if Present (m.word d (pdx va)) then
      pure (some (pteAddr (m.word d (pdx va)), ptx va)) else pure none : Call _) m = _
  unfold Mem.table
  split <;> rfl

theorem walkpgdir_there {va : Nat} (has : m.table d (pdx va) = some t) (alloc : Bool) :
    walkpgdir d va alloc m = .ok (some (t, ptx va), m) := by
  obtain ⟨present, rfl⟩ := Mem.table_eq_some has
  show (if Present (m.word d (pdx va)) then
      pure (some (pteAddr (m.word d (pdx va)), ptx va)) else _ : Call _) m = _
  rw [if_pos present]
  rfl

theorem walkpgdir_empty {va : Nat} (absent : m.table d (pdx va) = none) (empty : m.free = []) :
    walkpgdir d va true m = .ok (none, m) := by
  have missing : ¬ Present (m.word d (pdx va)) := fun present => by
    simp [Mem.table, present] at absent
  unfold walkpgdir
  rw [run_bind (show (get : Call Mem) m = .ok (m, m) from rfl), if_neg missing, if_pos rfl,
    run_bind (kalloc_none empty)]
  rfl

theorem walkpgdir_new {va : Nat} {rest : List Nat} (absent : m.table d (pdx va) = none)
    (head : m.free = t :: rest) :
    walkpgdir d va true m = .ok (some (t, ptx va), m.addTable d (pdx va) t rest) := by
  have missing : ¬ Present (m.word d (pdx va)) := fun present => by
    simp [Mem.table, present] at absent
  unfold walkpgdir
  rw [run_bind (show (get : Call Mem) m = .ok (m, m) from rfl), if_neg missing, if_pos rfl,
    run_bind (kalloc_some head)]
  rfl

/-- What a walk that makes its page table leaves alone. -/
structure Walked (K : Link) (d : Nat) (h : Option Nat) (m m' : Mem) : Prop where
  space : Space K m' d h
  changes : Changes m (own m d h) m' (own m' d h)
  leaf : ∀ v < 2 ^ 20, m'.leaf d v = m.leaf d v
  upage : ∀ v < 2 ^ 19, m'.upage d v = m.upage d v
  hand : ∀ f, h = some f → m'.page f = m.page f

theorem Walked.refl (space : Space K m d h) : Walked K d h m m :=
  ⟨space, .refl space.held, fun _ _ => rfl, fun _ _ => rfl, fun _ _ => rfl⟩

theorem walked_new {i : Nat} {rest : List Nat} (space : Space K m d h) (below : i < 1024)
    (absent : m.table d i = none) (head : m.free = t :: rest) :
    Walked K d h m (m.addTable d i t rest) := by
  have kept : ∀ p f, p ≠ Slot.dir → own m d h p = some f →
      (m.addTable d i t rest).page f = m.page f := by
    intro p f place has
    have other : f ≠ d := fun same =>
      place (space.held.unique has (show own m d h .dir = some f from congrArg some same.symm))
    have used : f ≠ t := fun same =>
      space.held.taken has (by rw [head, same]; exact List.mem_cons_self)
    unfold Mem.addTable
    rw [Mem.page_setWord_ne other, Mem.page_fill_ne used]
  have leaf : ∀ v < 2 ^ 20, (m.addTable d i t rest).leaf d v = m.leaf d v := fun v inside =>
    addTable_leaf space head absent inside
  refine ⟨addTable_space space head below absent, addTable_changes space head below absent, leaf,
    fun v user => ?_, fun f hand => kept .hand f (by simp) hand⟩
  exact Mem.upage_congr (leaf v (by omega)) fun e has =>
    kept (.page v) _ (by simp) (own_leaf user has)

theorem walkpgdir_alloc (space : Space K m d h) (inside : v < 2 ^ 20) :
    wp (walkpgdir d (v * pgsize) true)
      (fun r m' => match r with
        | none => m' = m
        | some (t, i) => i = v % 1024 ∧ m'.table d (v / 1024) = some t ∧ Walked K d h m m')
      (fun _ => False) m := by
  have low : v / 1024 < 1024 := by omega
  have dir := pdx_page inside
  cases has : m.table d (v / 1024) with
  | some t =>
    refine wp_of_run (walkpgdir_there (by rw [dir, has]) true) ?_
    exact ⟨ptx_page, has, .refl space⟩
  | none =>
    cases free : m.free with
    | nil => exact wp_of_run (walkpgdir_empty (by rw [dir, has]) free) rfl
    | cons t rest =>
      refine wp_of_run (walkpgdir_new (by rw [dir, has]) free) ?_
      rw [dir]
      refine ⟨ptx_page, ?_, walked_new space low has free⟩
      rw [addTable_table space free, if_pos rfl]

/-! ## mappages -/

theorem setPte_run {i : Nat} {e : UInt32} (missing : ¬ Present (m.word t i)) :
    setPte t i e m = .ok ((), m.setWord t i e) := by
  unfold setPte
  rw [run_bind (show (get : Call Mem) m = .ok (m, m) from rfl), if_neg missing]
  rfl

/-- The page in hand is mapped at `v` and is the only new one. -/
structure Mapped (K : Link) (d v f : Nat) (perm : UInt32) (m m' : Mem) : Prop where
  space : Space K m' d none
  changes : Changes m (own m d (some f)) m' (own m' d none)
  here : m'.upage d v = some (entryWord f (perm ||| pteP), m.page f)
  upage : ∀ v' < 2 ^ 19, v' ≠ v → m'.upage d v' = m.upage d v'
  kernel : ∀ v' < 2 ^ 20, 2 ^ 19 ≤ v' → m'.leaf d v' = m.leaf d v'

theorem setWord_maps {perm : UInt32} (space : Space K m d (some f)) (user : v < 2 ^ 19)
    (has : m.table d (v / 1024) = some t) (empty : m.leaf d v = none) (small : perm.toNat < pgsize) :
    Mapped K d v f perm m (m.setWord t (v % 1024) (entryWord f (perm ||| pteP))) := by
  have inside : v < 2 ^ 20 := by omega
  obtain ⟨fits, present, -⟩ := mapped_flags small
  have counted : own m d (some f) .hand = some f := rfl
  have page : f < 2 ^ 20 := space.small (.inr ⟨.hand, counted⟩)
  have present' := (present_entryWord page fits).mpr present
  have addr := pteAddr_entryWord page fits
  have leaf : ∀ v' < 2 ^ 20, _ := fun v' below =>
    setWord_leaf (e := entryWord f (perm ||| pteP)) space inside has below
  have hand : own m d none = update (own m d (some f)) .hand none := by
    funext s
    cases s <;> rfl
  have changes : Changes m (own m d (some f)) (m.setWord t (v % 1024) (entryWord f (perm ||| pteP)))
      (own (m.setWord t (v % 1024) (entryWord f (perm ||| pteP))) d none) := by
    refine ⟨?_, fun g out => ?_⟩
    · rw [setWord_own_user space inside has user, if_pos present', addr, hand]
      refine space.held.move counted ?_
      rw [own_page user, empty]
      rfl
    · refine Mem.page_setWord_ne fun same => out (.inr ⟨.table (v / 1024), ?_⟩)
      rw [own_table (by omega), has, same]
  have apart : ∀ p g, p ≠ Slot.table (v / 1024) → own m d (some f) p = some g → g ≠ t := by
    intro p g place got same
    exact place (space.held.unique got (by rw [own_table (by omega), has, same]))
  refine ⟨⟨changes.trade.held, changes.managed space.managed, fun v' e low high got => ?_⟩, changes,
    ?_, fun v' user' other => ?_, fun v' high low => ?_⟩
  · rw [leaf v' high, if_neg (by omega)] at got
    exact space.kernel v' e low high got
  · unfold Mem.upage
    rw [leaf v inside, if_pos rfl, if_pos present']
    simp only [Option.map_some, addr]
    rw [Mem.page_setWord_ne (apart .hand f (by simp) counted)]
  · have same := leaf v' (by omega)
    rw [if_neg other] at same
    refine Mem.upage_congr same fun e got => Mem.page_setWord_ne ?_
    exact apart (.page v') _ (by simp) (own_leaf user' got)
  · rw [leaf v' high, if_neg (by omega)]

theorem mappages_user {perm : UInt32} (space : Space K m d (some f)) (user : v < 2 ^ 19)
    (empty : m.leaf d v = none) (small : perm.toNat < pgsize) :
    wp (mappages d (v * pgsize) pgsize (f * pgsize) perm)
      (fun ok m' => if ok then Mapped K d v f perm m m' else m' = m) (fun _ => False) m := by
  have last : pgrounddown ((v * pgsize + pgsize + 2 ^ 32 - 1) % 2 ^ 32) = v * pgsize := by
    simp only [pgrounddown, pgsize]
    omega
  have inside : v < 2 ^ 20 := by omega
  unfold mappages
  rw [last, pgrounddown_page, show 2 ^ 20 = 2 ^ 20 - 1 + 1 from rfl]
  unfold mappagesLoop
  refine wp_seq (walkpgdir_alloc space inside) fun r m' walk => ?_
  cases r with
  | none =>
    obtain rfl : m' = m := walk
    rfl
  | some p =>
    obtain ⟨t, i⟩ := p
    obtain ⟨rfl, has, walked⟩ := walk
    have empty' : m'.leaf d v = none := (walked.leaf v inside).trans empty
    have maps := setWord_maps walked.space user has empty' small
    dsimp only
    rw [wp_bind, UInt32.or_assoc]
    refine wp_of_run (setPte_run (Mem.not_present_of_leaf has empty')) ?_
    rw [if_pos rfl, wp_pure, if_pos rfl]
    refine ⟨maps.space, walked.changes.trans maps.changes, ?_, fun v' user' other =>
      (maps.upage v' user' other).trans (walked.upage v' user'), fun v' high low =>
      (maps.kernel v' high low).trans (walked.leaf v' high)⟩
    rw [← walked.hand f rfl]
    exact maps.here

/-- An entry for the kernel takes no page. -/
theorem setWord_kernel {e : UInt32} (space : Space K m d h) (low : 2 ^ 19 ≤ v) (high : v < 2 ^ 20)
    (has : m.table d (v / 1024) = some t) (kernel : ¬ User e) :
    Space K (m.setWord t (v % 1024) e) d h ∧
      Changes m (own m d h) (m.setWord t (v % 1024) e) (own (m.setWord t (v % 1024) e) d h) := by
  have same := setWord_own_kernel (e := e) space high has low
  have changes : Changes m (own m d h) (m.setWord t (v % 1024) e)
      (own (m.setWord t (v % 1024) e) d h) := by
    rw [same]
    refine ⟨space.held.refl, fun g out => Mem.page_setWord_ne fun here => out ?_⟩
    exact .inr ⟨.table (v / 1024), by rw [own_table (by omega), has, here]⟩
  refine ⟨⟨changes.trade.held, changes.managed space.managed, fun w e' low' high' got => ?_⟩, changes⟩
  rw [setWord_leaf space high has high'] at got
  split at got
  · split at got
    · exact Option.some.inj got ▸ kernel
    · cases got
  · exact space.kernel w e' low' high' got

/-- The kernel's pages from `v` to `v + n` are mapped, or memory ran out. -/
theorem mappagesLoop_kernel {perm : UInt32} (small : perm.toNat < pgsize) (kernel : ¬ User perm)
    {n fuel q : Nat} (space : Space K m d h) (low : 2 ^ 19 ≤ v) (high : v + n < 2 ^ 20)
    (page : q < 2 ^ 20) (enough : n < fuel) (empty : ∀ w, v ≤ w → w ≤ v + n → m.leaf d w = none) :
    wp (mappagesLoop d ((v + n) * pgsize) perm fuel (v * pgsize) (q * pgsize))
      (fun _ m' => Space K m' d h ∧ Changes m (own m d h) m' (own m' d h) ∧
        ∀ w < 2 ^ 20, w < v ∨ v + n < w → m'.leaf d w = m.leaf d w) (fun _ => False) m := by
  obtain ⟨fits, -, user⟩ := mapped_flags small
  induction fuel generalizing m v q n with
  | zero => omega
  | succ fuel ih =>
    have inside : v < 2 ^ 20 := by omega
    unfold mappagesLoop
    refine wp_seq (walkpgdir_alloc space inside) fun r m' walk => ?_
    cases r with
    | none =>
      obtain rfl : m' = m := walk
      exact ⟨space, .refl space.held, fun _ _ _ => rfl⟩
    | some p =>
      obtain ⟨t, i⟩ := p
      obtain ⟨rfl, has, walked⟩ := walk
      have empty' : m'.leaf d v = none :=
        (walked.leaf v inside).trans (empty v (by omega) (by omega))
      have entry : UInt32.ofNat (q * pgsize) ||| perm ||| pteP = entryWord q (perm ||| pteP) :=
        UInt32.or_assoc _ _ _
      have plain : ¬ User (entryWord q (perm ||| pteP)) := fun marked =>
        kernel (user.mp ((user_entryWord page fits).mp marked))
      dsimp only
      rw [wp_bind, entry]
      refine wp_of_run (setPte_run (Mem.not_present_of_leaf has empty')) ?_
      obtain ⟨space', changes'⟩ := setWord_kernel walked.space low inside has plain
      have changes := walked.changes.trans changes'
      have leaf : ∀ w < 2 ^ 20, w ≠ v →
          (m'.setWord t (v % 1024) (entryWord q (perm ||| pteP))).leaf d w = m.leaf d w := by
        intro w below other
        rw [setWord_leaf walked.space inside has below, if_neg other, walked.leaf w below]
      by_cases last : n = 0
      · subst last
        rw [if_pos (by rw [Nat.add_zero])]
        exact ⟨space', changes, fun w below out => leaf w below (by omega)⟩
      · have more : ¬ v * pgsize = (v + n) * pgsize := by
          simp only [pgsize]
          omega
        have next : (q * pgsize + pgsize) % 2 ^ 32 = (q + 1) % 2 ^ 20 * pgsize := by
          simp only [pgsize]
          omega
        rw [if_neg more, next_page (by omega) rfl, next,
          show v + n = v + 1 + (n - 1) by omega]
        refine wp_post (ih space' (by omega) (by omega) (Nat.mod_lt _ (by decide)) (by omega)
          fun w above below => ?_) fun _ m'' later => ?_
        · rw [leaf w (by omega) (by omega)]
          exact empty w (by omega) (by omega)
        · obtain ⟨space'', changes'', leaf''⟩ := later
          refine ⟨space'', changes.trans changes'', fun w below out => ?_⟩
          rw [leaf'' w below (by omega), leaf w below (by omega)]

/-! ## deallocuvm -/

/-- The user pages in `gone` are unmapped and free, the others are as before. -/
structure Freed (K : Link) (d : Nat) (h : Option Nat) (gone : Nat → Prop) (m m' : Mem) : Prop where
  space : Space K m' d h
  changes : Changes m (own m d h) m' (own m' d h)
  cleared : ∀ v < 2 ^ 19, gone v → m'.leaf d v = none
  kept : ∀ v < 2 ^ 19, ¬ gone v → m'.upage d v = m.upage d v
  hand : ∀ f, h = some f → m'.page f = m.page f

/-- Nothing has to be done for pages that are not mapped. -/
theorem Freed.refl {gone : Nat → Prop} (space : Space K m d h)
    (empty : ∀ v < 2 ^ 19, gone v → m.leaf d v = none) : Freed K d h gone m m :=
  ⟨space, .refl space.held, empty, fun _ _ _ => rfl, fun _ _ => rfl⟩

theorem Freed.trans {m' m'' : Mem} {gone gone' : Nat → Prop} (first : Freed K d h gone m m')
    (second : Freed K d h gone' m' m'') : Freed K d h (fun v => gone v ∨ gone' v) m m'' := by
  refine ⟨second.space, first.changes.trans second.changes, fun v user out => ?_,
    fun v user kept => ?_, fun f hand => (second.hand f hand).trans (first.hand f hand)⟩
  · by_cases later : gone' v
    · exact second.cleared v user later
    · rw [Mem.leaf_of_upage (second.kept v user later)]
      exact first.cleared v user (out.resolve_right later)
  · rw [second.kept v user fun later => kept (.inr later),
      first.kept v user fun earlier => kept (.inl earlier)]

/-- Pages that were not mapped count as unmapped. -/
theorem Freed.widen {m' : Mem} {gone gone' : Nat → Prop} (freed : Freed K d h gone m m')
    (wider : ∀ v, gone v → gone' v) (empty : ∀ v < 2 ^ 19, gone' v → ¬ gone v → m.leaf d v = none) :
    Freed K d h gone' m m' := by
  refine ⟨freed.space, freed.changes, fun v user out => ?_,
    fun v user kept => freed.kept v user fun out => kept (wider v out), freed.hand⟩
  by_cases already : gone v
  · exact freed.cleared v user already
  · rw [Mem.leaf_of_upage (freed.kept v user already)]
    exact empty v user out already

/-- The page can be given back before its entry is cleared or after. -/
theorem fill_setWord {i : Nat} {e : UInt32} {free : List Nat} (other : t ≠ f) :
    ({ m.fill f 1 with free := free } : Mem).setWord t i e =
      { (m.setWord t i e).fill f 1 with free := free } := by
  have same : (update m.page f fun _ => 1) t = m.page t := update_of_ne other _ _
  unfold Mem.setWord Mem.fill
  dsimp only
  rw [same, update_comm other]

theorem freed_page {e : UInt32} (space : Space K m d h) (user : v < 2 ^ 19)
    (has : m.table d (v / 1024) = some t) (leaf : m.leaf d v = some e) :
    Freed K d h (fun w => w = v) m
      { (m.setWord t (v % 1024) 0).fill (pteAddr e) 1 with free := pteAddr e :: m.free } := by
  have inside : v < 2 ^ 20 := by omega
  have here := own_leaf (h := h) user leaf
  have table : own m d h (.table (v / 1024)) = some t := (own_table (by omega)).trans has
  -- the page is given back after its entry is cleared
  have apart : pteAddr e ≠ d ∧
      ∀ i < 1024, (m.setWord t (v % 1024) 0).table d i ≠ some (pteAddr e) := by
    obtain ⟨dir, tables⟩ := space.page_apart user leaf
    refine ⟨dir, fun i low => ?_⟩
    rw [setWord_table space inside has]
    exact tables i low
  have same : ∀ g, g ≠ pteAddr e → ({ (m.setWord t (v % 1024) 0).fill (pteAddr e) 1 with
      free := pteAddr e :: m.free } : Mem).page g = (m.setWord t (v % 1024) 0).page g :=
    fun g other => Mem.page_fill_ne other
  have cleared : ∀ w < 2 ^ 20, ({ (m.setWord t (v % 1024) 0).fill (pteAddr e) 1 with
      free := pteAddr e :: m.free } : Mem).leaf d w = if w = v then none else m.leaf d w := by
    intro w below
    rw [leaf_of_apart apart same below, setWord_leaf space inside has below]
    simp only [not_present_zero, if_false]
  have changes : Changes m (own m d h) { (m.setWord t (v % 1024) 0).fill (pteAddr e) 1 with
      free := pteAddr e :: m.free } (own { (m.setWord t (v % 1024) 0).fill (pteAddr e) 1 with
      free := pteAddr e :: m.free } d h) := by
    refine ⟨?_, fun g out => ?_⟩
    · rw [own_of_apart apart same, setWord_own_user space inside has user,
        if_neg not_present_zero]
      exact space.held.give here
    · rw [same g fun eq => out (.inr ⟨_, eq ▸ here⟩),
        Mem.page_setWord_ne fun eq => out (.inr ⟨_, eq ▸ table⟩)]
  have kept : ∀ p g, p ≠ .page v → p ≠ .table (v / 1024) → own m d h p = some g →
      ({ (m.setWord t (v % 1024) 0).fill (pteAddr e) 1 with
        free := pteAddr e :: m.free } : Mem).page g = m.page g := by
    intro p g other other' got
    rw [same g fun eq => other (space.held.unique got (eq ▸ here)),
      Mem.page_setWord_ne fun eq => other' (space.held.unique got (table.trans (congrArg some eq.symm)))]
  refine ⟨⟨changes.trade.held, changes.managed space.managed, fun w e' low high got => ?_⟩, changes,
    fun w _ gone => ?_, fun w below other => ?_, fun f hand => kept .hand f (by simp) (by simp) hand⟩
  · rw [cleared w high, if_neg (by omega)] at got
    exact space.kernel w e' low high got
  · rw [cleared w (by omega), if_pos gone]
  · have leaf' := cleared w (by omega)
    rw [if_neg other] at leaf'
    exact Mem.upage_congr leaf' fun e' got =>
      kept (.page w) _ (by simpa using other) (by simp) (own_leaf below got)

theorem freePte_spec (space : Space K m d h) (user : v < 2 ^ 19)
    (has : m.table d (v / 1024) = some t) :
    wp (freePte K t (v % 1024)) (fun _ m' => Freed K d h (fun w => w = v) m m') (fun _ => False)
      m := by
  unfold freePte
  rw [wp_bind, wp_get]
  refine wp_ite (fun present => ?_) fun missing => ?_
  · have leaf : m.leaf d v = some (m.word t (v % 1024)) := by
      rw [Mem.leaf_of_table has, if_pos present]
    have here := own_leaf (h := h) user leaf
    have counted : Accounted m.free (own m d h) (pteAddr (m.word t (v % 1024))) := .inr ⟨_, here⟩
    obtain ⟨low, high⟩ := space.managed _ counted
    have other : t ≠ pteAddr (m.word t (v % 1024)) := fun same =>
      (space.page_apart user leaf).2 _ (by omega) (has.trans (congrArg some same))
    rw [if_neg (space.pos counted).ne', wp_bind]
    refine wp_of_run (kfree_run low high) ?_
    rw [wp_modify, fill_setWord other]
    exact freed_page space user has leaf
  · refine Freed.refl space fun w _ gone => ?_
    rw [gone, Mem.leaf_of_table has, if_neg missing]

theorem deallocuvmLoop_spec {oldsz fuel : Nat} (space : Space K m d h) (below : oldsz ≤ kernbase)
    (enough : pages oldsz - v < fuel) :
    wp (deallocuvmLoop K d oldsz fuel (v * pgsize))
      (fun _ m' => Freed K d h (fun w => v ≤ w ∧ w < pages oldsz) m m') (fun _ => False) m := by
  have bound := pages_le below
  induction fuel generalizing m v with
  | zero => omega
  | succ fuel ih =>
    unfold deallocuvmLoop
    refine wp_ite (fun more => ?_) fun done => ?_
    · have less : v < pages oldsz := lt_pages.mp more
      rw [wp_bind]
      refine wp_of_run (walkpgdir_find _) ?_
      rw [pdx_page (by omega), ptx_page]
      cases has : m.table d (v / 1024) with
      | none =>
        -- a missing table is skipped as a whole
        have skip : ((pgaddr (v / 1024 + 1) 0 0 + 2 ^ 32 - pgsize) % 2 ^ 32 + pgsize) % 2 ^ 32 =
            (v / 1024 + 1) * 1024 * pgsize := by
          simp only [pgaddr, pgsize]
          omega
        show wp (deallocuvmLoop K d oldsz fuel _) _ _ m
        rw [skip]
        refine wp_post (ih space (by omega)) fun _ m' later =>
          later.widen (by omega) fun w _ range out => ?_
        have same : w / 1024 = v / 1024 := by omega
        exact Mem.leaf_of_no_table (same ▸ has)
      | some t =>
        show wp (freePte K t (v % 1024) >>= fun _ => deallocuvmLoop K d oldsz fuel _) _ _ m
        rw [wp_bind, next_page (by omega) rfl]
        refine wp_post (freePte_spec space (by omega) has) fun _ m' freed => ?_
        exact wp_post (ih freed.space (by omega)) fun _ m'' later =>
          (freed.trans later).widen (by omega) (by omega)
    · exact .refl space fun w _ gone => absurd (lt_pages.mpr (by omega)) done

theorem deallocuvm_more {oldsz newsz : Nat} (more : newsz ≥ oldsz) :
    deallocuvm K d oldsz newsz m = .ok (oldsz, m) := by
  unfold deallocuvm
  rw [if_pos more]
  rfl

theorem deallocuvm_spec {oldsz newsz : Nat} (space : Space K m d h) (below : oldsz ≤ kernbase)
    (less : newsz < oldsz) :
    wp (deallocuvm K d oldsz newsz) (fun r m' => r = newsz ∧
      Freed K d h (fun w => pages newsz ≤ w ∧ w < pages oldsz) m m') (fun _ => False) m := by
  have bound := pages_le below
  unfold deallocuvm
  rw [if_neg (by omega), wp_bind, pgroundup_eq (by omega)]
  exact wp_post (deallocuvmLoop_spec space below (by omega)) fun _ m' freed => ⟨rfl, freed⟩

/-! ## freevm -/

theorem kfree_spec {P : Type} {o : P → Option Nat} [DecidableEq P] {p : P} (held : Held m.free o)
    (managed : Managed K m.free o) (has : o p = some f) :
    wp (kfree K f) (fun _ m' => Changes m o m' (update o p none) ∧
      ∀ g, g ≠ f → m'.page g = m.page g) (fun _ => False) m := by
  obtain ⟨low, high⟩ := managed f (.inr ⟨p, has⟩)
  refine wp_of_run (kfree_run low high) ⟨⟨held.give has, fun g out => ?_⟩, fun g other => ?_⟩
  · exact Mem.page_fill_ne fun same => out (same ▸ .inr ⟨p, has⟩)
  · exact Mem.page_fill_ne other

/-- The tables of the entries in `l` are given back. -/
theorem freeTables_spec {o : Slot → Option Nat} {l : List Nat} (held : Held m.free o)
    (managed : Managed K m.free o) (dir : o .dir = some d) (nodup : l.Nodup)
    (tables : ∀ i ∈ l, o (.table i) = m.table d i) :
    wp (freeTables K d l) (fun _ m' => Changes m o m'
        (fun s => if s ∈ l.map Slot.table then none else o s)) (fun _ => False) m := by
  induction l generalizing m o with
  | nil => exact .refl held
  | cons i rest ih =>
    obtain ⟨fresh, nodup'⟩ := List.nodup_cons.mp nodup
    unfold freeTables
    rw [wp_bind]
    -- one table is given back and the directory is not touched
    have first : wp (freePde K d i) (fun _ m' => Changes m o m' (update o (.table i) none) ∧
        m'.page d = m.page d) (fun _ => False) m := by
      have here := tables i List.mem_cons_self
      unfold freePde
      rw [wp_bind, wp_get]
      refine wp_ite (fun present => ?_) fun missing => ?_
      · have has : o (.table i) = some (pteAddr (m.word d i)) := by
          rw [here]
          exact if_pos present
        refine wp_post (kfree_spec held managed has) fun _ m' freed => ⟨freed.1, freed.2 d ?_⟩
        rintro same
        cases held.unique has (dir.trans (congrArg some same))
      · have has : o (.table i) = none := by
          rw [here]
          exact if_neg missing
        rw [← has, update_eq_self]
        exact ⟨.refl held, rfl⟩
    refine wp_post first fun _ m' step => ?_
    obtain ⟨changes, same⟩ := step
    have later := ih changes.trade.held (changes.managed managed)
      (by rw [update_of_ne (by simp), dir]) nodup' fun j mem => by
        have other : j ≠ i := fun eq => fresh (eq ▸ mem)
        rw [update_of_ne (by simpa using other), tables j (List.mem_cons_of_mem i mem)]
        unfold Mem.table
        rw [Mem.word_congr same]
    refine wp_post later fun _ m'' rest' => ?_
    have all := changes.trans rest'
    convert all using 2 with s
    by_cases here : s = .table i
    · simp [here]
    · simp [here]

/-- No place holds a page. -/
def nothing : Slot → Option Nat :=
  fun _ => none

/-- Every page of the address space is given back. -/
theorem freevm_spec (space : Space K m d none) :
    wp (freevm K (some d)) (fun _ m' => Changes m (own m d none) m' nothing) (fun _ => False) m := by
  have nodup : (List.range npdentries).Nodup := List.nodup_range
  have range : ∀ i, i ∈ List.range npdentries ↔ i < 1024 := fun i => List.mem_range
  unfold freevm
  generalize List.range npdentries = entries at nodup range ⊢
  rw [wp_bind]
  have some_pages : 0 < kernbase := by decide
  refine wp_post (deallocuvm_spec space (Nat.le_refl kernbase) some_pages) fun _ m₁ freed => ?_
  obtain ⟨-, freed⟩ := freed
  have empty : ∀ v, own m₁ d none (.page v) = none := by
    intro v
    simp only [own]
    split
    · rename_i user
      rw [freed.cleared v user ⟨Nat.zero_le _, user⟩]
      rfl
    · rfl
  refine wp_seq (freeTables_spec freed.space.held freed.space.managed rfl nodup
    fun i mem => own_table ((range i).mp mem)) fun _ m₂ tables => ?_
  have changes := freed.changes.trans tables
  have dir : (fun s => if s ∈ entries.map Slot.table then none else own m₁ d none s) .dir =
      some d := by
    simp [own]
  refine wp_post (kfree_spec changes.trade.held (changes.managed space.managed) dir)
    fun _ m₃ last => ?_
  have all := changes.trans last.1
  convert all using 1
  funext s
  cases s with
  | dir => simp [nothing]
  | hand => simp [nothing, own]
  | table i => by_cases low : i < 1024 <;> simp [nothing, own, range, low]
  | page v => simpa [nothing] using (empty v).symm

/-! ## setupkvm -/

/-- A zeroed page is a directory without entries. -/
theorem zeroed_leaf (zero : m.page d = fun _ => 0) : (∀ i, m.table d i = none) ∧
    ∀ v, m.leaf d v = none := by
  have table : ∀ i, m.table d i = none := by
    intro i
    unfold Mem.table Mem.word
    rw [zero, Bytes.get32_zero, if_neg not_present_zero]
  exact ⟨table, fun v => Mem.leaf_of_no_table (table _)⟩

theorem zeroed_space {rest : List Nat} (held : Held m.free nothing) (managed : Managed K m.free nothing)
    (head : m.free = d :: rest) :
    Space K (({ m with free := rest } : Mem).fill d 0) d none ∧
      Changes m nothing (({ m with free := rest } : Mem).fill d 0)
        (own (({ m with free := rest } : Mem).fill d 0) d none) := by
  obtain ⟨table, leaf⟩ := zeroed_leaf (m := ({ m with free := rest } : Mem).fill d 0) (d := d)
    Mem.page_fill_self
  have places : own (({ m with free := rest } : Mem).fill d 0) d none =
      update nothing .dir (some d) := by
    funext s
    cases s <;> simp [own, nothing, table, leaf]
  have changes : Changes m nothing (({ m with free := rest } : Mem).fill d 0)
      (own (({ m with free := rest } : Mem).fill d 0) d none) := by
    refine ⟨?_, fun g out => Mem.page_fill_ne fun same => out (.inl ?_)⟩
    · rw [places, head]
      exact (head ▸ held).take rfl
    · rw [head, same]
      exact List.mem_cons_self
  refine ⟨⟨changes.trade.held, changes.managed managed, fun v e _ _ has => ?_⟩, changes⟩
  rw [leaf v] at has
  cases has

/-- The mappings are of whole kernel pages from `lo` on, in ascending order. -/
def Ascending : Nat → List Kmap → Prop
  | _, [] => True
  | lo, k :: rest => ∃ v n q, k.virt = v * pgsize ∧ k.physStart = q * pgsize ∧
      (k.physEnd + 2 ^ 32 - k.physStart) % 2 ^ 32 = (n + 1) * pgsize ∧ lo ≤ v ∧ v + n < 2 ^ 20 ∧
      q < 2 ^ 20 ∧ k.perm.toNat < pgsize ∧ ¬ User k.perm ∧ Ascending (v + n + 1) rest

theorem kmap_ascending (K : Link) : Ascending (2 ^ 19) (kmap K) := by
  have text := K.text
  have order := K.order
  have fits := K.fits
  simp only [extmem, phystop, pgsize] at text fits
  have writable : pteW.toNat < pgsize ∧ ¬ User pteW := by decide
  have readable : (0 : UInt32).toNat < pgsize ∧ ¬ User 0 := by decide
  refine ⟨2 ^ 19, 255, 0, rfl, rfl, rfl, Nat.le_refl _, by omega, by omega, writable.1, writable.2, ?_⟩
  refine ⟨2 ^ 19 + 256, K.data - 257, 256, rfl, rfl, ?_, by omega, by omega, by omega, readable.1,
    readable.2, ?_⟩
  · simp only [extmem, pgsize]
    omega
  refine ⟨2 ^ 19 + K.data, 57344 - K.data - 1, K.data, ?_, rfl, ?_, by omega, by omega, by omega,
    writable.1, writable.2, ?_⟩
  · simp only [kernbase, pgsize]
    omega
  · simp only [phystop, pgsize]
    omega
  exact ⟨0xFE000, 8191, 0xFE000, rfl, rfl, rfl, by omega, by omega, by omega, writable.1, writable.2,
    trivial⟩

theorem mappages_kernel {n q : Nat} {perm : UInt32} (small : perm.toNat < pgsize)
    (kernel : ¬ User perm) (space : Space K m d h) (low : 2 ^ 19 ≤ v) (high : v + n < 2 ^ 20)
    (page : q < 2 ^ 20) (empty : ∀ w, v ≤ w → w ≤ v + n → m.leaf d w = none) :
    wp (mappages d (v * pgsize) ((n + 1) * pgsize) (q * pgsize) perm)
      (fun _ m' => Space K m' d h ∧ Changes m (own m d h) m' (own m' d h) ∧
        ∀ w < 2 ^ 20, w < v ∨ v + n < w → m'.leaf d w = m.leaf d w) (fun _ => False) m := by
  have last : pgrounddown ((v * pgsize + (n + 1) * pgsize + 2 ^ 32 - 1) % 2 ^ 32) =
      (v + n) * pgsize := by
    simp only [pgrounddown, pgsize]
    omega
  unfold mappages
  rw [last, pgrounddown_page]
  exact mappagesLoop_kernel small kernel space low high page (by omega) empty

/-- A directory with the kernel's mappings, or everything is given back. -/
theorem setupkvmLoop_spec {lo : Nat} {ks : List Kmap} (space : Space K m d none)
    (kernel : 2 ^ 19 ≤ lo) (ascending : Ascending lo ks) (above : ∀ w < 2 ^ 20, lo ≤ w → m.leaf d w = none)
    (user : ∀ w < 2 ^ 19, m.leaf d w = none) :
    wp (setupkvmLoop K d ks) (fun r m' => match r with
        | none => Changes m (own m d none) m' nothing
        | some d' => d' = d ∧ Space K m' d none ∧ Changes m (own m d none) m' (own m' d none) ∧
            ∀ w < 2 ^ 19, m'.leaf d w = none) (fun _ => False) m := by
  induction ks generalizing m lo with
  | nil => exact ⟨rfl, space, .refl space.held, user⟩
  | cons k rest ih =>
    obtain ⟨v, n, q, virt, phys, size, low, high, page, small, plain, later⟩ := ascending
    unfold setupkvmLoop
    rw [wp_bind, virt, size, phys]
    refine wp_post (mappages_kernel small plain space (by omega) high page
      fun w le below => above w (by omega) (by omega)) fun done m' mapped => ?_
    obtain ⟨space', changes, leaf⟩ := mapped
    cases done with
    | true =>
      rw [if_pos rfl]
      have above' : ∀ w < 2 ^ 20, v + n + 1 ≤ w → m'.leaf d w = none := by
        intro w below le
        rw [leaf w below (by omega)]
        exact above w below (by omega)
      refine wp_post (ih space' (by omega) later above' fun w below => ?_) fun r m'' rest' => ?_
      · rw [leaf w (by omega) (by omega)]
        exact user w below
      · cases r with
        | none => exact changes.trans rest'
        | some d' =>
          obtain ⟨same, space'', changes'', user''⟩ := rest'
          exact ⟨same, space'', changes.trans changes'', user''⟩
    | false =>
      rw [if_neg (by decide)]
      exact wp_seq (freevm_spec space') fun _ m'' freed => changes.trans freed

theorem setupkvm_spec (held : Held m.free nothing) (managed : Managed K m.free nothing) :
    wp (setupkvm K) (fun r m' => match r with
        | none => Changes m nothing m' nothing
        | some d => Space K m' d none ∧ Changes m nothing m' (own m' d none) ∧
            ∀ w < 2 ^ 19, m'.leaf d w = none) (fun _ => False) m := by
  unfold setupkvm
  rw [wp_bind]
  cases free : m.free with
  | nil => exact wp_of_run (kalloc_none free) (.refl held)
  | cons d rest =>
    refine wp_of_run (kalloc_some free) ?_
    obtain ⟨space, changes⟩ := zeroed_space held managed free
    have leaf := (zeroed_leaf (m := ({ m with free := rest } : Mem).fill d 0) (d := d)
      Mem.page_fill_self).2
    dsimp only
    rw [wp_bind, wp_modify]
    refine wp_post (setupkvmLoop_spec space (Nat.le_refl _) (kmap_ascending K)
      (fun w _ _ => leaf w) fun w _ => leaf w) fun r m' done => ?_
    cases r with
    | none => exact changes.trans done
    | some d' =>
      obtain ⟨rfl, space', changes', user⟩ := done
      exact ⟨space', changes.trans changes', user⟩

/-! ## allocuvm -/

/-- A page is taken into the hand and written. -/
theorem taken_space {rest : List Nat} {m' : Mem} (space : Space K m d none) (head : m.free = f :: rest)
    (free : m'.free = rest) (same : ∀ g, g ≠ f → m'.page g = m.page g) :
    Space K m' d (some f) ∧ Changes m (own m d none) m' (own m' d (some f)) ∧
      (∀ v < 2 ^ 20, m'.leaf d v = m.leaf d v) ∧ ∀ v < 2 ^ 19, m'.upage d v = m.upage d v := by
  obtain ⟨-, other, fresh⟩ := addTable_fresh space head
  have mem : f ∈ m.free := head ▸ List.mem_cons_self
  have leaf : ∀ v < 2 ^ 20, m'.leaf d v = m.leaf d v := fun v inside =>
    leaf_of_apart ⟨other, fresh⟩ same inside
  have places : own m' d (some f) = update (own m d none) .hand (some f) := by
    rw [own_of_apart ⟨other, fresh⟩ same]
    funext s
    cases s <;> rfl
  have changes : Changes m (own m d none) m' (own m' d (some f)) := by
    refine ⟨?_, fun g out => same g fun here => out (.inl (here ▸ mem))⟩
    rw [places, free, head]
    exact (head ▸ space.held).take rfl
  refine ⟨⟨changes.trade.held, changes.managed space.managed, fun v e low high has => ?_⟩, changes,
    leaf, fun v user => ?_⟩
  · rw [leaf v high] at has
    exact space.kernel v e low high has
  · exact Mem.upage_congr (leaf v (by omega)) fun e has =>
      same _ fun here => space.held.taken (own_leaf user has) (here ▸ mem)

/-- The page in hand is given back. -/
theorem returned_space (space : Space K m d (some f)) :
    wp (kfree K f) (fun _ m' => Space K m' d none ∧ Changes m (own m d (some f)) m' (own m' d none) ∧
      ∀ v < 2 ^ 19, m'.upage d v = m.upage d v) (fun _ => False) m := by
  have hand : own m d (some f) .hand = some f := rfl
  refine wp_post (kfree_spec space.held space.managed hand) fun _ m' freed => ?_
  obtain ⟨changes, same⟩ := freed
  have apart : f ≠ d ∧ ∀ i < 1024, m.table d i ≠ some f := by
    refine ⟨fun here => ?_, fun i low has => ?_⟩
    · cases space.held.unique hand (show own m d (some f) .dir = some f from congrArg some here.symm)
    · cases space.held.unique hand ((own_table low).trans has)
  have places : own m' d none = update (own m d (some f)) .hand none := by
    rw [own_of_apart apart same]
    funext s
    cases s <;> rfl
  rw [← places] at changes
  have leaf : ∀ v < 2 ^ 20, m'.leaf d v = m.leaf d v := fun v inside => leaf_of_apart apart same inside
  refine ⟨⟨changes.trade.held, changes.managed space.managed, fun v e low high has => ?_⟩, changes,
    fun v user => ?_⟩
  · rw [leaf v high] at has
    exact space.kernel v e low high has
  · refine Mem.upage_congr (leaf v (by omega)) fun e has => same _ fun here => ?_
    cases space.held.unique hand (here ▸ own_leaf user has)

/-- No user page has changed. -/
structure Unchanged (K : Link) (d : Nat) (m m' : Mem) : Prop where
  space : Space K m' d none
  changes : Changes m (own m d none) m' (own m' d none)
  upage : ∀ v < 2 ^ 19, m'.upage d v = m.upage d v

/-- The user pages from `lo` to `hi` are new, writable and zero; the others have not
changed. -/
structure Grown (K : Link) (d lo hi : Nat) (m m' : Mem) : Prop where
  space : Space K m' d none
  changes : Changes m (own m d none) m' (own m' d none)
  fresh : ∀ v, lo ≤ v → v < hi → ∃ e, m'.upage d v = some (e, fun _ => 0) ∧ User e
  kept : ∀ v < 2 ^ 19, v < lo ∨ hi ≤ v → m'.upage d v = m.upage d v

theorem Grown.refl (space : Space K m d none) : Grown K d v v m m :=
  ⟨space, .refl space.held, fun w low high => absurd low (by omega), fun _ _ _ => rfl⟩

/-- One more page. -/
theorem Grown.snoc {lo : Nat} {m₁ m₂ m₃ : Mem} (grown : Grown K d lo v m m₁) (above : lo ≤ v)
    (user : v < 2 ^ 19) (changes : Changes m₁ (own m₁ d none) m₂ (own m₂ d (some f)))
    (upage : ∀ w < 2 ^ 19, m₂.upage d w = m₁.upage d w) (zero : m₂.page f = fun _ => 0)
    (page : f < 2 ^ 20) (mapped : Mapped K d v f (pteW ||| pteU) m₂ m₃) :
    Grown K d lo (v + 1) m m₃ := by
  refine ⟨mapped.space, (grown.changes.trans changes).trans mapped.changes, fun w low high => ?_,
    fun w below out => ?_⟩
  · by_cases here : w = v
    · refine ⟨_, here ▸ zero ▸ mapped.here, ?_⟩
      exact (user_entryWord page (by decide)).mpr (by decide)
    · obtain ⟨e, has, marked⟩ := grown.fresh w low (by omega)
      exact ⟨e, by rw [mapped.upage w (by omega) here, upage w (by omega), has], marked⟩
  · rw [mapped.upage w below (by omega), upage w below, grown.kept w below (by omega)]

/-- Taking new pages away again. -/
theorem Grown.undo {lo hi : Nat} {m₁ m₂ m₃ : Mem} (grown : Grown K d lo v m m₁)
    (empty : ∀ w, lo ≤ w → w < hi → m.leaf d w = none) (above : v ≤ hi)
    (upage : ∀ w < 2 ^ 19, m₂.upage d w = m₁.upage d w)
    (freed : Freed K d h (fun w => lo ≤ w ∧ w < hi) m₂ m₃) :
    ∀ w < 2 ^ 19, m₃.upage d w = m.upage d w := by
  intro w user
  by_cases range : lo ≤ w ∧ w < hi
  · unfold Mem.upage
    rw [freed.cleared w user range, empty w range.1 range.2]
    rfl
  · rw [freed.kept w user range, upage w user, grown.kept w user (by omega)]

theorem allocuvmLoop_spec {oldsz newsz fuel : Nat} {m₁ : Mem} (below : newsz ≤ kernbase)
    (empty : ∀ w, pages oldsz ≤ w → w < pages newsz → m.leaf d w = none)
    (grown : Grown K d (pages oldsz) v m m₁) (low : pages oldsz ≤ v) (high : v ≤ pages newsz)
    (enough : pages newsz - v < fuel) :
    wp (allocuvmLoop K d oldsz newsz fuel (v * pgsize)) (fun r m' =>
      (r = newsz ∧ Grown K d (pages oldsz) (pages newsz) m m') ∨ (r = 0 ∧ Unchanged K d m m'))
      (fun _ => False) m₁ := by
  have bound := pages_le below
  induction fuel generalizing m₁ v with
  | zero => omega
  | succ fuel ih =>
    unfold allocuvmLoop
    refine wp_ite (fun more => ?_) fun done => ?_
    · have less : v < pages newsz := lt_pages.mp more
      have smaller : oldsz < newsz := by
        have := lt_pages.mpr (show pages oldsz < pages newsz by omega)
        simp only [pages, pgsize] at *
        omega
      rw [wp_bind]
      cases free : m₁.free with
      | nil =>
        refine wp_of_run (kalloc_none free) ?_
        dsimp only
        refine wp_seq (deallocuvm_spec grown.space below smaller) fun _ m₂ freed => ?_
        exact .inr ⟨rfl, freed.2.space, grown.changes.trans freed.2.changes,
          grown.undo empty high (fun _ _ => rfl) freed.2⟩
      | cons f rest =>
        refine wp_of_run (kalloc_some free) ?_
        have others : ∀ g, g ≠ f → (({ m₁ with free := rest } : Mem).fill f 0).page g = m₁.page g :=
          fun g other => Mem.page_fill_ne other
        obtain ⟨space₂, changes₂, leaf₂, upage₂⟩ := taken_space grown.space free rfl others
        have unmapped : (({ m₁ with free := rest } : Mem).fill f 0).leaf d v = none := by
          rw [leaf₂ v (by omega), Mem.leaf_of_upage (grown.kept v (by omega) (by omega))]
          exact empty v low less
        dsimp only
        rw [wp_bind, wp_modify]
        refine wp_seq (mappages_user space₂ (by omega) unmapped (by decide))
          fun done m₃ mapped => ?_
        cases done with
        | true =>
          rw [if_pos rfl, next_page (by omega) rfl]
          exact ih (grown.snoc low (by omega) changes₂ upage₂ Mem.page_fill_self
            (space₂.small (.inr ⟨.hand, rfl⟩)) mapped) (by omega) (by omega) (by omega)
        | false =>
          obtain rfl : m₃ = _ := mapped
          rw [if_neg (by decide)]
          refine wp_seq (deallocuvm_spec space₂ below smaller) fun _ m₄ freed => ?_
          refine wp_seq (returned_space freed.2.space) fun _ m₅ returned => ?_
          obtain ⟨space₅, changes₅, upage₅⟩ := returned
          refine .inr ⟨rfl, space₅, ((grown.changes.trans changes₂).trans
            freed.2.changes).trans changes₅, fun w user => ?_⟩
          rw [upage₅ w user]
          exact grown.undo empty high upage₂ freed.2 w user
    · have reached : ¬ v < pages newsz := fun less => done (lt_pages.mpr less)
      have last : v = pages newsz := by omega
      exact .inl ⟨rfl, last ▸ grown⟩

theorem allocuvm_high {oldsz newsz : Nat} (high : newsz ≥ kernbase) :
    allocuvm K d oldsz newsz m = .ok (0, m) := by
  unfold allocuvm
  rw [if_pos high]
  rfl

theorem allocuvm_less {oldsz newsz : Nat} (below : newsz < kernbase) (less : newsz < oldsz) :
    allocuvm K d oldsz newsz m = .ok (oldsz, m) := by
  unfold allocuvm
  rw [if_neg (Nat.not_le.mpr below), if_pos less]
  rfl

theorem allocuvm_spec {oldsz newsz : Nat} (space : Space K m d none) (less : oldsz ≤ newsz)
    (below : newsz < kernbase) (empty : ∀ w, pages oldsz ≤ w → w < pages newsz → m.leaf d w = none) :
    wp (allocuvm K d oldsz newsz) (fun r m' =>
      (r = newsz ∧ Grown K d (pages oldsz) (pages newsz) m m') ∨ (r = 0 ∧ Unchanged K d m m'))
      (fun _ => False) m := by
  have bound := pages_le (Nat.le_of_lt below)
  have ordered : pages oldsz ≤ pages newsz := by
    simp only [pages, pgsize]
    omega
  unfold allocuvm
  rw [if_neg (by omega), if_neg (by omega), pgroundup_eq (by omega)]
  exact allocuvmLoop_spec (Nat.le_of_lt below) empty (.refl space) (Nat.le_refl _) ordered (by omega)

end BasicOS.Vm
