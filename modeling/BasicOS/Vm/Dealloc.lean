/-
# BasicOS.Vm.Dealloc — deallocuvm without its short cut

When a page table is missing, the loop of `deallocuvm` jumps to the end of the four
megabytes it would map.  `deallocuvmLoop_plain`: in every memory the loop does the
same as one that visits the pages one by one, also where the walk itself destroys
page tables.  `visitPages_unmap` says what that is for an address space.
-/
import BasicOS.Vm.Grow

namespace BasicOS.Vm

open Function Lib
open Lib.Prog

set_option autoImplicit false

variable {K : Link} {m m' : Mem} {d v t : Nat} {h : Option Nat} {e : UInt32}

/-! ## The plain loop -/

/-- The body of the loop for virtual page `v`, without the jump. -/
def visitPage (K : Link) (pgdir v : Nat) : Call Unit := do
  match ← walkpgdir pgdir (v * pgsize) false with
  | none => return ()
  | some (pgtab, i) => freePte K pgtab i

def visitPages (K : Link) (pgdir : Nat) : List Nat → Call Unit
  | [] => return ()
  | v :: vs => do
      visitPage K pgdir v
      visitPages K pgdir vs

theorem visitPage_absent (inside : v < 2 ^ 20) (absent : m.table d (v / 1024) = none) :
    visitPage K d v m = .ok ((), m) := by
  unfold visitPage
  rw [run_bind (walkpgdir_find _), pdx_page inside, absent]
  rfl

theorem visitPage_table (inside : v < 2 ^ 20) (has : m.table d (v / 1024) = some t) :
    visitPage K d v m = freePte K t (v % 1024) m := by
  unfold visitPage
  rw [run_bind (walkpgdir_find _), pdx_page inside, ptx_page, has]
  rfl

/-- The pages of missing tables can be left out. -/
theorem visitPages_absent {vs ws : List Nat} (absent : ∀ v ∈ vs, v < 2 ^ 20 ∧ m.table d (v / 1024) = none) :
    visitPages K d (vs ++ ws) m = visitPages K d ws m := by
  induction vs with
  | nil => rfl
  | cons v vs ih =>
    obtain ⟨inside, missing⟩ := absent v List.mem_cons_self
    show (visitPage K d v >>= fun _ => visitPages K d (vs ++ ws)) m = _
    rw [run_bind (visitPage_absent inside missing)]
    exact ih fun w mem => absent w (List.mem_cons_of_mem v mem)

theorem deallocuvmLoop_plain {oldsz fuel : Nat} (below : oldsz ≤ kernbase)
    (enough : pages oldsz - v < fuel) : deallocuvmLoop K d oldsz fuel (v * pgsize) m =
      visitPages K d (List.range' v (pages oldsz - v)) m := by
  have bound := pages_le below
  induction fuel generalizing m v with
  | zero => omega
  | succ fuel ih =>
    unfold deallocuvmLoop
    by_cases more : v * pgsize < oldsz
    · have less : v < pages oldsz := lt_pages.mp more
      rw [if_pos more, run_bind (walkpgdir_find _), pdx_page (by omega), ptx_page]
      cases has : m.table d (v / 1024) with
      | none =>
        have skip : ((pgaddr (v / 1024 + 1) 0 0 + 2 ^ 32 - pgsize) % 2 ^ 32 + pgsize) % 2 ^ 32 =
            (v / 1024 + 1) * 1024 * pgsize := by
          simp only [pgaddr, pgsize]
          omega
        show deallocuvmLoop K d oldsz fuel _ m = _
        rw [skip, ih (by omega)]
        -- the pages up to the jump, and those after it
        obtain ⟨k, split, here⟩ : ∃ k, pages oldsz - v = k + (pages oldsz - (v / 1024 + 1) * 1024) ∧
            v + k = min ((v / 1024 + 1) * 1024) (pages oldsz) :=
          ⟨min ((v / 1024 + 1) * 1024) (pages oldsz) - v, by omega, by omega⟩
        rw [split, ← List.range'_append_1, visitPages_absent fun w mem => ?_]
        · by_cases last : (v / 1024 + 1) * 1024 ≤ pages oldsz
          · rw [here, Nat.min_eq_left last]
          · rw [show pages oldsz - (v / 1024 + 1) * 1024 = 0 by omega]
            rfl
        · obtain ⟨low, high⟩ := List.mem_range'_1.mp mem
          refine ⟨by omega, ?_⟩
          rw [show w / 1024 = v / 1024 by omega, has]
      | some t =>
        rw [show pages oldsz - v = (pages oldsz - (v + 1)) + 1 by omega, List.range'_succ]
        show (freePte K t (v % 1024) >>= fun _ => deallocuvmLoop K d oldsz fuel _) m =
          (visitPage K d v >>= fun _ => visitPages K d _) m
        rw [next_page (by omega) rfl]
        have same := visitPage_table (K := K) (show v < 2 ^ 20 by omega) has
        cases ran : freePte K t (v % 1024) m with
        | error e => rw [run_bind_error ran, run_bind_error (same.trans ran)]
        | ok r =>
          rw [run_bind ran, run_bind (same.trans ran)]
          exact ih (by omega)
    · have last : pages oldsz - v = 0 := by
        have := mt lt_pages.mpr more
        omega
      rw [if_neg more, last]
      rfl

/-! ## What it does to an address space -/

/-- The pages from `lo` to `hi` are gone: their frames are on the free list, filled
with ones, their entries are zero, and nothing else has changed. -/
structure Unmapped (d lo hi : Nat) (m m' : Mem) : Prop where
  free : m'.free =
    ((List.range' lo (hi - lo)).filterMap fun v => (m.leaf d v).map pteAddr).reverse ++ m.free
  filled : ∀ v e, lo ≤ v → v < hi → m.leaf d v = some e → m'.page (pteAddr e) = fun _ => 1
  dir : m'.page d = m.page d
  entries : ∀ i < 1024, ∀ t, m.table d i = some t → ∀ j < 1024, m'.word t j =
    if lo ≤ i * 1024 + j ∧ i * 1024 + j < hi ∧ Present (m.word t j) then 0 else m.word t j
  others : ∀ f, (∀ v e, lo ≤ v → v < hi → m.leaf d v = some e → pteAddr e ≠ f) →
    (∀ i < 1024, m.table d i ≠ some f) → m'.page f = m.page f

/-- The memory after the page has been freed. -/
def Mem.unmap (m : Mem) (t v : Nat) (e : UInt32) : Mem :=
  { (m.setWord t (v % 1024) 0).fill (pteAddr e) 1 with free := pteAddr e :: m.free }

theorem word_of_leaf (has : m.table d (v / 1024) = some t) (leaf : m.leaf d v = some e) :
    m.word t (v % 1024) = e ∧ Present (m.word t (v % 1024)) := by
  rw [Mem.leaf_of_table has] at leaf
  split at leaf
  · next present => exact ⟨Option.some.inj leaf, present⟩
  · cases leaf

theorem visitPage_run (space : Space K m d h) (user : v < 2 ^ 19)
    (has : m.table d (v / 1024) = some t) (leaf : m.leaf d v = some e) :
    visitPage K d v m = .ok ((), m.unmap t v e) := by
  obtain ⟨low, high⟩ := space.managed _ (.inr ⟨_, own_leaf user leaf⟩)
  have pos := space.pos (.inr ⟨_, own_leaf user leaf⟩)
  have other : t ≠ pteAddr e := fun same =>
    (space.page_apart user leaf).2 _ (by omega) (has.trans (congrArg some same))
  obtain ⟨word, present⟩ := word_of_leaf has leaf
  rw [word] at present
  rw [visitPage_table (by omega) has]
  unfold freePte
  rw [run_bind (show (get : Call Mem) m = .ok (m, m) from rfl), word, if_pos present,
    if_neg pos.ne', run_bind (kfree_run low high)]
  exact congrArg (fun m' => Except.ok ((), m')) (fill_setWord other)

theorem visitPage_none (user : v < 2 ^ 19) (empty : m.leaf d v = none) :
    visitPage K d v m = .ok ((), m) := by
  cases has : m.table d (v / 1024) with
  | none => exact visitPage_absent (by omega) has
  | some t =>
    rw [visitPage_table (by omega) has]
    unfold freePte
    rw [run_bind (show (get : Call Mem) m = .ok (m, m) from rfl),
      if_neg (Mem.not_present_of_leaf has empty)]
    rfl

/-- One page more at the lower end. -/
theorem Unmapped.cons {hi : Nat} (space : Space K m d h) (user : v < 2 ^ 19) (less : v < hi)
    (has : m.table d (v / 1024) = some t) (leaf : m.leaf d v = some e) (limit : hi ≤ 2 ^ 19)
    (rest : Unmapped d (v + 1) hi (m.unmap t v e) m') : Unmapped d v hi m m' := by
  have freed : Freed K d h (fun w => w = v) m (m.unmap t v e) := freed_page space user has leaf
  obtain ⟨not_dir, not_table⟩ := space.page_apart user leaf
  have dir : (m.unmap t v e).page d = m.page d := by
    refine (Mem.page_fill_ne not_dir.symm).trans (Mem.page_setWord_ne ?_)
    exact (space.table_ne_dir (by omega) has).symm
  have table : ∀ i, (m.unmap t v e).table d i = m.table d i := fun i => by
    unfold Mem.table Mem.word
    rw [dir]
  have later : ∀ w, v + 1 ≤ w → w < hi → (m.unmap t v e).leaf d w = m.leaf d w := fun w low high =>
    Mem.leaf_of_upage (freed.kept w (by omega) (by omega))
  refine ⟨?_, ?_, rest.dir.trans dir, ?_, ?_⟩
  · rw [rest.free, show hi - v = hi - (v + 1) + 1 by omega, List.range'_succ, List.filterMap_cons, leaf]
    simp only [Option.map_some, List.reverse_cons, List.append_assoc, List.singleton_append]
    congr 2
    refine List.filterMap_congr fun w mem => ?_
    obtain ⟨low, high⟩ := List.mem_range'_1.mp mem
    rw [later w low (by omega)]
  · intro w e' low high got
    by_cases here : w = v
    · subst here
      obtain rfl := Option.some.inj (leaf.symm.trans got)
      rw [rest.others _ (fun w' e' low' high' got' same => ?_) fun i below => ?_]
      · exact Mem.page_fill_self
      · rw [later w' low' high'] at got'
        have := space.page_unique user (by omega) leaf got' same.symm
        omega
      · rw [table]
        exact not_table i below
    · exact rest.filled w e' (by omega) high (by rw [later w (by omega) high, got])
  · intro i below t' has' j small
    have word : (m.unmap t v e).word t' j = if i * 1024 + j = v then 0 else m.word t' j := by
      have plain : t' ≠ pteAddr e := fun same => not_table i below (has'.trans (congrArg some same))
      have page : (m.unmap t v e).page t' = (m.setWord t (v % 1024) 0).page t' := Mem.page_fill_ne plain
      rw [Mem.word_congr page]
      by_cases here : i * 1024 + j = v
      · obtain ⟨rfl, rfl⟩ : i = v / 1024 ∧ j = v % 1024 := by omega
        obtain rfl := Option.some.inj (has.symm.trans has')
        rw [Mem.word_setWord, if_pos here]
      · rw [if_neg here]
        by_cases same : t' = t
        · subst same
          have index := space.table_unique below (by omega) has' has
          exact Mem.word_setWord_ne (by omega)
        · exact Mem.word_congr (Mem.page_setWord_ne same)
    rw [rest.entries i below t' ((table i).trans has') j small, word]
    by_cases here : i * 1024 + j = v
    · obtain ⟨rfl, rfl⟩ : i = v / 1024 ∧ j = v % 1024 := by omega
      obtain rfl := Option.some.inj (has.symm.trans has')
      obtain ⟨-, present⟩ := word_of_leaf has leaf
      rw [if_pos here, ite_self, if_pos ⟨by omega, by omega, present⟩]
    · simp only [if_neg here]
      refine if_congr (and_congr_left' ?_) rfl rfl
      omega
  · intro f not_freed no_table
    rw [rest.others f (fun w e' low high got => ?_) fun i below => ?_]
    · refine (Mem.page_fill_ne ?_).trans (Mem.page_setWord_ne ?_)
      · exact (not_freed v e (Nat.le_refl v) less leaf).symm
      · exact fun same => no_table (v / 1024) (by omega) (has.trans (congrArg some same.symm))
    · rw [later w low high] at got
      exact not_freed w e' (by omega) high got
    · rw [table]
      exact no_table i below

/-- A page that was not mapped. -/
theorem Unmapped.skip {hi : Nat} (rest : Unmapped d (v + 1) hi m m') (less : v < hi)
    (empty : m.leaf d v = none) : Unmapped d v hi m m' := by
  refine ⟨?_, fun w e low high got => ?_, rest.dir, fun i below t has j small => ?_,
    fun f not_freed => rest.others f fun w e low => not_freed w e (by omega)⟩
  · rw [rest.free, show hi - v = hi - (v + 1) + 1 by omega, List.range'_succ, List.filterMap_cons, empty]
    rfl
  · by_cases here : w = v
    · rw [here, empty] at got
      cases got
    · exact rest.filled w e (by omega) high got
  · rw [rest.entries i below t has j small]
    by_cases here : i * 1024 + j = v
    · obtain ⟨rfl, rfl⟩ : i = v / 1024 ∧ j = v % 1024 := by omega
      have missing := Mem.not_present_of_leaf has empty
      simp [missing]
    · refine if_congr (Iff.and ?_ Iff.rfl) rfl rfl
      omega

theorem Unmapped.nil {hi : Nat} (empty : hi ≤ v) : Unmapped d v hi m m := by
  have none_left : hi - v = 0 := by omega
  refine ⟨?_, by omega, rfl, fun _ _ _ _ _ _ => (if_neg (by omega)).symm, fun _ _ _ => rfl⟩
  rw [none_left]
  rfl

theorem table_of_leaf (leaf : m.leaf d v = some e) : ∃ t, m.table d (v / 1024) = some t :=
  Option.ne_none_iff_exists'.mp fun absent => by
    rw [Mem.leaf_of_no_table absent] at leaf
    cases leaf

theorem visitPages_unmap {n : Nat} (space : Space K m d h) (limit : v + n ≤ 2 ^ 19) :
    ∃ m', visitPages K d (List.range' v n) m = .ok ((), m') ∧ Unmapped d v (v + n) m m' := by
  induction n generalizing m v with
  | zero => exact ⟨m, rfl, .nil (Nat.le_refl v)⟩
  | succ n ih =>
    rw [List.range'_succ]
    show ∃ m', (visitPage K d v >>= fun _ => visitPages K d _) m = _ ∧ _
    have next : v + 1 + n = v + (n + 1) := by omega
    cases leaf : m.leaf d v with
    | none =>
      rw [run_bind (visitPage_none (by omega) leaf)]
      obtain ⟨m', ran, rest⟩ := ih (v := v + 1) space (by omega)
      rw [next] at rest
      exact ⟨m', ran, rest.skip (by omega) leaf⟩
    | some e =>
      obtain ⟨t, has⟩ := table_of_leaf leaf
      rw [run_bind (visitPage_run space (by omega) has leaf)]
      obtain ⟨m', ran, rest⟩ := ih (v := v + 1) (freed_page space (by omega) has leaf).space (by omega)
      rw [next] at rest
      exact ⟨m', ran, .cons space (by omega) (by omega) has leaf limit rest⟩

/-- `deallocuvm` does what visiting the pages one by one does, in every memory.  In an
address space it frees the frames of the mapped pages, each once, clears their
entries and changes nothing else. -/
theorem deallocuvm_plain {oldsz newsz : Nat} (below : oldsz ≤ kernbase) :
    deallocuvm K d oldsz newsz m = (do
      visitPages K d (List.range' (pages newsz) (pages oldsz - pages newsz))
      return min newsz oldsz) m ∧
    (Space K m d h → ∃ m', deallocuvm K d oldsz newsz m = .ok (min newsz oldsz, m') ∧
      Unmapped d (pages newsz) (pages oldsz) m m' ∧ m'.free.Nodup) := by
  have bound := pages_le below
  by_cases more : newsz ≥ oldsz
  · have empty : pages oldsz - pages newsz = 0 := by
      simp only [pages, pgsize]
      omega
    rw [deallocuvm_more more, Nat.min_eq_right more, empty]
    refine ⟨rfl, fun space => ⟨m, rfl, .nil (by omega), space.held.nodup⟩⟩
  · have less : newsz < oldsz := Nat.lt_of_not_le more
    have ordered : pages newsz ≤ pages oldsz := by
      simp only [pages, pgsize]
      omega
    have plain : deallocuvm K d oldsz newsz m = (do
        visitPages K d (List.range' (pages newsz) (pages oldsz - pages newsz))
        return newsz) m := by
      unfold deallocuvm
      rw [if_neg more, pgroundup_eq (by omega)]
      have enough : pages oldsz - pages newsz < 2 ^ 20 + 1 := by omega
      have same := deallocuvmLoop_plain (K := K) (d := d) (m := m) below enough
      exact congrArg (fun r => r >>= fun p => (pure newsz : Call Nat) p.2) same
    rw [Nat.min_eq_left (Nat.le_of_lt less)]
    refine ⟨plain, fun space => ?_⟩
    obtain ⟨m', ran, unmapped⟩ := visitPages_unmap (v := pages newsz) (n := pages oldsz - pages newsz)
      space (by omega)
    rw [show pages newsz + (pages oldsz - pages newsz) = pages oldsz by omega] at unmapped
    have done := plain.trans (Prog.run_bind ran)
    exact ⟨m', done, unmapped, (Prog.wp_ok (deallocuvm_spec space below less) done).2.space.held.nodup⟩

/-- The one page of a process. -/
theorem deallocuvm_onePage : ∃ m', deallocuvm smallLink 400 4096 0 onePage = .ok (0, m') ∧
    Unmapped 400 0 1 onePage m' ∧ m'.free.Nodup :=
  (deallocuvm_plain (by decide)).2 onePage_space

end BasicOS.Vm
