/-
# BasicOS.Vm.Grow — growproc on the pages of a process

`sz + n` is computed modulo `2 ^ 32`, and 0 is the value with which `allocuvm`
says that it failed and also the size that is left when a process gives back all
its memory.  `growproc_exact` says what `growproc` does when neither matters; the
cases in between are `growproc_all` (the pages are gone and the call fails) and
`growproc_beyond` (nothing happens and the call succeeds).
-/
import BasicOS.Vm.Map

namespace BasicOS.Vm

open Function Lib
open Lib.Prog

set_option autoImplicit false

/-- `growproc` for a process that is not a thread.  What it does to the size of
other processes is in `Proc.Size`. -/
def growproc (K : Link) (p : Image) (n : Int) : Call (Int × Image) :=
  match p.pgdir with
  | none => throw .null
  | some pgdir => do
      if n > 0 then do
        let sz ← allocuvm K pgdir p.sz ((p.sz + n) % 2 ^ 32).toNat
        if sz = 0 then return (-1, p) else return (p.sz, { p with sz := sz })
      else if n < 0 then do
        let sz ← deallocuvm K pgdir p.sz ((p.sz + n) % 2 ^ 32).toNat
        if sz = 0 then return (-1, p) else return (p.sz, { p with sz := sz })
      else return (p.sz, p)

theorem growproc_eq {K : Link} {p : Image} {d : Nat} (dir : p.pgdir = some d) (n : Int) :
    growproc K p n = (if n > 0 then do
      let sz ← allocuvm K d p.sz ((p.sz + n) % 2 ^ 32).toNat
      if sz = 0 then return (-1, p) else return (p.sz, { p with sz := sz })
    else if n < 0 then do
      let sz ← deallocuvm K d p.sz ((p.sz + n) % 2 ^ 32).toNat
      if sz = 0 then return (-1, p) else return (p.sz, { p with sz := sz })
    else return (p.sz, p)) := by
  obtain ⟨sz, pgdir, eip, esp, name⟩ := p
  cases dir
  rfl

/-- The mapped user pages are those below `PGROUNDUP(sz)`. -/
def Exact (m : Mem) (d sz : Nat) : Prop :=
  ∀ v < 2 ^ 19, (m.leaf d v).isSome ↔ v < pages sz

theorem Exact.empty {m : Mem} {d sz v : Nat} (exact : Exact m d sz) (user : v < 2 ^ 19)
    (above : pages sz ≤ v) : m.leaf d v = none := by
  rw [← Option.not_isSome_iff_eq_none, exact v user]
  omega

section Grow

variable {K : Link} {m m' : Mem} {p : Image} {d : Nat} {n : Int}

theorem Exact.grown {sz sz' : Nat} (exact : Exact m d sz) (less : sz ≤ sz')
    (grown : Grown K d (pages sz) (pages sz') m m') : Exact m' d sz' := by
  have ordered : pages sz ≤ pages sz' := by
    simp only [pages, pgsize]
    omega
  intro v user
  by_cases new : pages sz ≤ v ∧ v < pages sz'
  · obtain ⟨e, has, -⟩ := grown.fresh v new.1 new.2
    simp [Mem.leaf_of_upage_some has, new.2]
  · rw [Mem.leaf_of_upage (grown.kept v user (by omega)), exact v user]
    omega

theorem Exact.freed {sz sz' : Nat} (exact : Exact m d sz) (less : sz' ≤ sz)
    (freed : Freed K d none (fun v => pages sz' ≤ v ∧ v < pages sz) m m') : Exact m' d sz' := by
  have ordered : pages sz' ≤ pages sz := by
    simp only [pages, pgsize]
    omega
  intro v user
  by_cases gone : pages sz' ≤ v ∧ v < pages sz
  · rw [freed.cleared v user gone]
    simp only [Option.isSome_none, Bool.false_eq_true, false_iff]
    omega
  · rw [Mem.leaf_of_upage (freed.kept v user gone), exact v user]
    omega

/-- The call did what it was asked for: `r` is the old size, the new one is exact
and exactly its pages are mapped, those that are new being zero. -/
def Resized (d : Nat) (p : Image) (n : Int) (m : Mem) (r : Int) (p' : Image) (m' : Mem) : Prop :=
  r = p.sz ∧ p' = { p with sz := p'.sz } ∧ (p'.sz : Int) = p.sz + n ∧ p'.sz < kernbase ∧
    Exact m' d p'.sz ∧
    (∀ v, pages p.sz ≤ v → v < pages p'.sz → ∃ e, m'.upage d v = some (e, fun _ => 0)) ∧
    ∀ v, v < pages p.sz → v < pages p'.sz → m'.upage d v = m.upage d v

/-- The call failed and the process and its pages are as before. -/
def Refused (d : Nat) (p : Image) (m : Mem) (r : Int) (p' : Image) (m' : Mem) : Prop :=
  r = -1 ∧ p' = p ∧ ∀ v < 2 ^ 19, m'.upage d v = m.upage d v

theorem growproc_more (space : Space K m d none) (dir : p.pgdir = some d) (exact : Exact m d p.sz)
    (below : p.sz < kernbase) (more : 0 < n) (width : n < 2 ^ 31) :
    wp (growproc K p n) (fun r m' => Space K m' d none ∧
      Changes m (own m d none) m' (own m' d none) ∧
      (Resized d p n m r.1 r.2 m' ∨ Refused d p m r.1 r.2 m') ∧
      (kernbase ≤ p.sz + n → r.1 = -1)) (fun _ => False) m := by
  obtain ⟨k, rfl⟩ := Int.eq_ofNat_of_zero_le (Int.le_of_lt more)
  have sum : ((p.sz + (k : Int)) % 2 ^ 32).toNat = p.sz + k := by
    simp only [kernbase] at below
    omega
  rw [growproc_eq dir, if_pos more, wp_bind, sum]
  by_cases high : kernbase ≤ p.sz + k
  · refine wp_of_run (allocuvm_high high) ?_
    rw [if_pos rfl]
    exact ⟨space, .refl space.held, .inr ⟨rfl, rfl, fun _ _ => rfl⟩, fun _ => rfl⟩
  · have inside : p.sz + k < kernbase := by omega
    have bound := pages_le (Nat.le_of_lt inside)
    refine wp_post (allocuvm_spec space (Nat.le_add_right _ _) inside fun w low high =>
      exact.empty (by omega) low) fun r m' done => ?_
    rcases done with ⟨rfl, grown⟩ | ⟨rfl, same⟩
    · rw [if_neg (by omega)]
      refine ⟨grown.space, grown.changes, .inl ⟨rfl, rfl, by simp, inside,
        exact.grown (Nat.le_add_right _ _) grown, fun v low high => ?_, fun v low _ => ?_⟩,
        fun high => absurd high (by omega)⟩
      · obtain ⟨e, has, -⟩ := grown.fresh v low high
        exact ⟨e, has⟩
      · exact grown.kept v (by have := pages_le (Nat.le_of_lt below); omega) (.inl low)
    · rw [if_pos rfl]
      exact ⟨same.space, same.changes, .inr ⟨rfl, rfl, same.upage⟩, fun _ => rfl⟩

theorem growproc_less (space : Space K m d none) (dir : p.pgdir = some d) (exact : Exact m d p.sz)
    (below : p.sz < kernbase) (less : n < 0) (left : 0 < p.sz + n) :
    wp (growproc K p n) (fun r m' => Space K m' d none ∧
      Changes m (own m d none) m' (own m' d none) ∧ Resized d p n m r.1 r.2 m') (fun _ => False)
      m := by
  obtain ⟨k, sum⟩ := Int.eq_ofNat_of_zero_le (Int.le_of_lt left)
  have word : ((p.sz + n) % 2 ^ 32).toNat = k := by
    simp only [kernbase] at below
    omega
  rw [growproc_eq dir, if_neg (by omega), if_pos less, wp_bind, word]
  have smaller : k < p.sz := by omega
  refine wp_post (deallocuvm_spec space (Nat.le_of_lt below) smaller) fun r m' done => ?_
  obtain ⟨rfl, freed⟩ := done
  have bound := pages_le (Nat.le_of_lt below)
  rw [if_neg (by omega)]
  refine ⟨freed.space, freed.changes, rfl, rfl, sum.symm, Nat.lt_trans smaller below,
    exact.freed (Nat.le_of_lt smaller) freed, fun v low high => ?_, fun v low high => ?_⟩
  · exfalso
    simp only [pages, pgsize] at low high
    omega
  · exact freed.kept v (by omega) fun gone => absurd high (by simpa using gone.1)

/-- A process that gives back exactly what it has loses its pages, is told that the
call failed, and keeps its size. -/
theorem growproc_all (space : Space K m d none) (dir : p.pgdir = some d) (below : p.sz < kernbase)
    (some_pages : 0 < p.sz) :
    wp (growproc K p (-p.sz)) (fun r m' => r = (-1, p) ∧ ∀ v < pages p.sz, m'.leaf d v = none)
      (fun _ => False) m := by
  have word : ((p.sz + -(p.sz : Int)) % 2 ^ 32).toNat = 0 := by
    rw [Int.add_right_neg]
    rfl
  have bound := pages_le (Nat.le_of_lt below)
  rw [growproc_eq dir, if_neg (by omega), if_pos (by omega), wp_bind, word]
  refine wp_post (deallocuvm_spec space (Nat.le_of_lt below) some_pages) fun r m' done => ?_
  obtain ⟨rfl, freed⟩ := done
  rw [if_pos rfl]
  exact ⟨rfl, fun v low => freed.cleared v (by omega) ⟨Nat.zero_le _, low⟩⟩

/-- A process that gives back more than it has is told that it worked. -/
theorem growproc_beyond (dir : p.pgdir = some d) (below : p.sz < kernbase) (some_pages : 0 < p.sz)
    (width : -2 ^ 31 ≤ n) (beyond : p.sz + n < 0) : growproc K p n m = .ok ((p.sz, p), m) := by
  have wrapped : ((p.sz + n) % 2 ^ 32).toNat ≥ p.sz := by
    simp only [kernbase] at below
    omega
  rw [growproc_eq dir, if_neg (by omega), if_pos (by omega)]
  refine (run_bind (deallocuvm_more wrapped)).trans ?_
  rw [if_neg (by omega)]
  rfl

/-- `growproc` is exact or has no effect, unless the process gives back exactly what
it has or more. -/
theorem growproc_exact (space : Space K m d none) (dir : p.pgdir = some d) (exact : Exact m d p.sz)
    (below : p.sz < kernbase) (width : -2 ^ 31 ≤ n ∧ n < 2 ^ 31)
    (sensible : 0 ≤ n ∨ 0 < p.sz + n ∨ p.sz = 0) :
    ∃ r p' m', growproc K p n m = .ok ((r, p'), m') ∧ Space K m' d none ∧
      (Resized d p n m r p' m' ∨ Refused d p m r p' m') ∧
      (p.sz + n < 0 ∨ kernbase ≤ p.sz + n → r = -1) := by
  by_cases more : 0 < n
  · obtain ⟨⟨r, p'⟩, m', ran, space', -, outcome, high⟩ :=
      Prog.wp_returns (growproc_more space dir exact below more width.2)
    exact ⟨r, p', m', ran, space', outcome, fun out => high (out.resolve_left (by omega))⟩
  by_cases none_asked : n = 0
  · subst none_asked
    refine ⟨p.sz, p, m, ?_, space, .inl ⟨rfl, rfl, by simp, below, exact, fun v low high => ?_,
      fun _ _ _ => rfl⟩, fun out => ?_⟩
    · rw [growproc_eq dir]
      rfl
    · omega
    · omega
  by_cases left : 0 < p.sz + n
  · obtain ⟨⟨r, p'⟩, m', ran, space', -, resized⟩ :=
      Prog.wp_returns (growproc_less space dir exact below (by omega) left)
    exact ⟨r, p', m', ran, space', .inl resized, fun out => absurd left (by omega)⟩
  · -- the process has no memory and gives some back
    have empty : p.sz = 0 := by omega
    refine ⟨-1, p, m, ?_, space, .inr ⟨rfl, rfl, fun _ _ => rfl⟩, fun _ => rfl⟩
    rw [growproc_eq dir, empty, if_neg more, if_pos (by omega)]
    refine (Prog.run_bind (deallocuvm_more (Nat.zero_le _))).trans ?_
    rw [if_pos rfl]
    rfl

end Grow

/-! ## A process with one page -/

/-- A small kernel. -/
def smallLink : Link where
  data := 300
  top := 310
  text := by decide
  order := by decide
  fits := by decide

/-- Directory in page 400, page table in 401, user page 0 in 402. -/
def onePage : Mem where
  page := fun f =>
    if f = 400 then Bytes.put32 (fun _ => 0) 0 (entryWord 401 7)
    else if f = 401 then Bytes.put32 (fun _ => 0) 0 (entryWord 402 7)
    else fun _ => 0
  free := []

def onePageProc : Image where
  sz := 4096
  pgdir := some 400
  eip := 0
  esp := 4096
  name := []

theorem put32_word (e : UInt32) (i : Nat) :
    (Bytes.put32 (fun _ => 0) 0 e).get32 (4 * i) = if i = 0 then e else 0 := by
  split
  · subst i
    exact Bytes.get32_put32 _ _ _
  · rw [Bytes.get32_put32_ne (by omega), Bytes.get32_zero]

theorem onePage_table (i : Nat) : onePage.table 400 i = if i = 0 then some 401 else none := by
  have word : onePage.word 400 i = if i = 0 then entryWord 401 7 else 0 := put32_word _ i
  unfold Mem.table
  rw [word]
  split
  · rw [if_pos (by decide)]
    exact congrArg some (by decide)
  · rw [if_neg not_present_zero]

theorem onePage_leaf (v : Nat) : onePage.leaf 400 v = if v = 0 then some (entryWord 402 7) else none := by
  have word : onePage.word 401 (v % 1024) = if v % 1024 = 0 then entryWord 402 7 else 0 :=
    put32_word _ _
  by_cases first : v / 1024 = 0
  · have table := onePage_table (v / 1024)
    rw [if_pos first] at table
    rw [Mem.leaf_of_table table, word]
    by_cases zero : v = 0
    · subst zero
      rw [if_pos rfl, if_pos rfl, if_pos (by decide)]
    · have offset : v % 1024 ≠ 0 := by omega
      rw [if_neg offset, if_neg zero, if_neg not_present_zero]
  · have table := onePage_table (v / 1024)
    rw [if_neg first] at table
    rw [Mem.leaf_of_no_table table, if_neg (by omega)]

theorem onePage_own (s : Slot) : own onePage 400 none s =
    match s with
    | .dir => some 400
    | .table i => if i = 0 then some 401 else none
    | .page v => if v = 0 then some 402 else none
    | .hand => none := by
  cases s with
  | dir => rfl
  | hand => rfl
  | table i =>
    simp only [own, onePage_table]
    by_cases zero : i = 0 <;> simp [zero]
  | page v =>
    simp only [own, onePage_leaf]
    by_cases zero : v = 0
    · simp only [zero, if_true, Option.map_some]
      rw [if_pos (by decide)]
      exact congrArg some (by decide)
    · simp [zero]

theorem onePage_space : Space smallLink onePage 400 none := by
  have cases_own : ∀ s f, own onePage 400 none s = some f →
      (s = .dir ∧ f = 400) ∨ (s = .table 0 ∧ f = 401) ∨ (s = .page 0 ∧ f = 402) := by
    intro s f has
    rw [onePage_own] at has
    cases s with
    | dir => exact .inl ⟨rfl, (Option.some.inj has).symm⟩
    | hand => cases has
    | table i =>
      dsimp only at has
      split at has
      · rename_i zero
        exact .inr (.inl ⟨congrArg _ zero, (Option.some.inj has).symm⟩)
      · cases has
    | page v =>
      dsimp only at has
      split at has
      · rename_i zero
        exact .inr (.inr ⟨congrArg _ zero, (Option.some.inj has).symm⟩)
      · cases has
  refine ⟨⟨List.nodup_nil, fun {a b f} ha hb => ?_, fun _ => List.not_mem_nil⟩, fun f counted => ?_,
    fun v e low _ has => ?_⟩
  · rcases cases_own a f ha with ⟨rfl, rfl⟩ | ⟨rfl, rfl⟩ | ⟨rfl, rfl⟩ <;>
      rcases cases_own b _ hb with ⟨rfl, same⟩ | ⟨rfl, same⟩ | ⟨rfl, same⟩ <;>
      first
      | rfl
      | omega
  · rcases counted with mem | ⟨s, has⟩
    · cases mem
    · rcases cases_own s f has with ⟨-, rfl⟩ | ⟨-, rfl⟩ | ⟨-, rfl⟩ <;> decide
  · rw [onePage_leaf, if_neg (by omega)] at has
    cases has

theorem onePage_exact : Exact onePage 400 4096 := by
  intro v _
  have one : pages 4096 = 1 := rfl
  rw [onePage_leaf, one]
  split
  · simp only [Option.isSome_some, true_iff]
    omega
  · simp only [Option.isSome_none, Bool.false_eq_true, false_iff]
    omega

/-- Giving back half of the page. -/
theorem onePage_halved : ∃ r p' m', growproc smallLink onePageProc (-2048) onePage = .ok ((r, p'), m') ∧
    Space smallLink m' 400 none ∧
    (Resized 400 onePageProc (-2048) onePage r p' m' ∨ Refused 400 onePageProc onePage r p' m') ∧
    ((onePageProc.sz : Int) + -2048 < 0 ∨ (kernbase : Int) ≤ onePageProc.sz + -2048 → r = -1) :=
  growproc_exact onePage_space rfl onePage_exact (by decide) (by decide) (by decide)

/-- Giving back the whole page: the call fails and the page is gone.  Giving back
more: the call succeeds and nothing has happened. -/
theorem onePage_given_back :
    (∃ m', growproc smallLink onePageProc (-4096) onePage = .ok ((-1, onePageProc), m') ∧
      onePage.leaf 400 0 ≠ none ∧ m'.leaf 400 0 = none) ∧
    growproc smallLink onePageProc (-4097) onePage = .ok ((4096, onePageProc), onePage) := by
  constructor
  · obtain ⟨r, m', ran, rfl, gone⟩ := Prog.wp_returns
      (growproc_all (p := onePageProc) onePage_space rfl (by decide) (by decide))
    refine ⟨m', ran, ?_, gone 0 (by decide)⟩
    rw [onePage_leaf]
    exact Option.some_ne_none _
  · exact growproc_beyond (d := 400) rfl (by decide) (by decide) (by decide) (by decide)

end BasicOS.Vm
