/-
# BasicOS.Vm.Copyout — writing to user pages of another address space

`copyout` writes page by page to the user pages of a range and stops at the first
page that is not one.  `copyout_reaches` says for how many bytes it does so, and
`copyout_exact` that it reports correctly whether these are all.

Both ask that the page tables it comes to are there: `uva2ka` uses the null
pointer that `walkpgdir` returns when one is not (`copyout_null`).  They also ask
that the pages written are different from each other and from the directory and
its tables, as they are in every well-formed address space (`Space.apart`).
-/
import BasicOS.Vm.Grow

namespace BasicOS.Vm

open Function Lib
open Lib.Prog

set_option autoImplicit false

/-- The physical page of a virtual page that is mapped with `PTE_P` and `PTE_U`. -/
def Mem.userFrame (m : Mem) (d v : Nat) : Option Nat :=
  (m.leaf d v).bind fun e => if User e then some (pteAddr e) else none

/-- The virtual page of byte `i` of the range that begins at `va`. -/
def pageAt (va i : Nat) : Nat :=
  (va + i) % 2 ^ 32 / pgsize

/-- The physical page and the offset of byte `i`. -/
def Mem.target (m : Mem) (d va i : Nat) : Option (Nat × Nat) :=
  (m.userFrame d (pageAt va i)).map fun f => (f, (va + i) % pgsize)

/-- Until the first page that is not a user page, the page tables are there. -/
def Tabled (m : Mem) (d va len : Nat) : Prop :=
  ∀ i < len, (∀ j < i, m.userFrame d (pageAt va j) ≠ none) → m.table d (pageAt va i / 1024) ≠ none

/-- The user pages of the range are different physical pages, and none of them is
the directory or a page table. -/
def Apart (m : Mem) (d va len : Nat) : Prop :=
  ∀ i < len, ∀ f, m.userFrame d (pageAt va i) = some f →
    (f ≠ d ∧ ∀ j < 1024, m.table d j ≠ some f) ∧
    ∀ j < len, m.userFrame d (pageAt va j) = some f → pageAt va i = pageAt va j

/-- The first `k` bytes of `p` have been written to the range at `va`, and nothing
else has. -/
structure Written (m : Mem) (d va : Nat) (p : Bytes) (k : Nat) (m' : Mem) : Prop where
  free : m'.free = m.free
  bytes : ∀ i < k, ∀ f o, m.target d va i = some (f, o) → m'.page f o = p i
  others : ∀ f o, (∀ i < k, m.target d va i ≠ some (f, o)) → m'.page f o = m.page f o

section Copy

variable {m m' : Mem} {d va len n : Nat} {p : Bytes}

theorem pageAt_lt (va i : Nat) : pageAt va i < 2 ^ 20 := by
  simp only [pageAt, pgsize]
  omega

theorem uva2ka_run (inside : va < 2 ^ 32) (has : m.table d (va / pgsize / 1024) ≠ none) :
    uva2ka d (pgrounddown va) m = .ok (m.userFrame d (va / pgsize), m) := by
  obtain ⟨t, table⟩ := Option.ne_none_iff_exists'.mp has
  have dir : pdx (pgrounddown va) = va / pgsize / 1024 := by
    rw [pgrounddown, pdx_page]
    simp only [pgsize]
    omega
  have index : ptx (pgrounddown va) = va / pgsize % 1024 := ptx_page
  unfold uva2ka
  rw [run_bind (walkpgdir_there (dir ▸ table) false), index]
  unfold Mem.userFrame
  rw [Mem.leaf_of_table table]
  show (if ¬ Present (m.word t (va / pgsize % 1024)) then pure none
    else if ¬ User (m.word t (va / pgsize % 1024)) then pure none
    else pure (some (pteAddr (m.word t (va / pgsize % 1024)))) : Call _) m = _
  by_cases present : Present (m.word t (va / pgsize % 1024)) <;>
    by_cases user : User (m.word t (va / pgsize % 1024)) <;>
    simp [present, user] <;> rfl

theorem uva2ka_null (inside : va < 2 ^ 32) (absent : m.table d (va / pgsize / 1024) = none) :
    uva2ka d (pgrounddown va) m = .error .null := by
  have dir : pdx (pgrounddown va) = va / pgsize / 1024 := by
    rw [pgrounddown, pdx_page]
    simp only [pgsize]
    omega
  unfold uva2ka
  rw [run_bind (walkpgdir_find _), dir, absent]
  rfl

/-- Bytes written to one user page, from byte 0 of the range on. -/
theorem written_page {f : Nat} (inside : va < 2 ^ 32) (has : m.userFrame d (va / pgsize) = some f)
    (fits : n ≤ pgsize - va % pgsize) : Written m d va p n (m.write f (va % pgsize) p n) := by
  have here : ∀ i < n, m.target d va i = some (f, va % pgsize + i) := by
    intro i less
    have page : pageAt va i = va / pgsize := by
      simp only [pageAt, pgsize] at *
      omega
    have offset : (va + i) % pgsize = va % pgsize + i := by
      simp only [pgsize] at *
      omega
    unfold Mem.target
    rw [page, has, offset]
    rfl
  refine ⟨rfl, fun i less g o target => ?_, fun g o other => ?_⟩
  · rw [here i less] at target
    obtain ⟨rfl, rfl⟩ := Prod.mk.inj (Option.some.inj target)
    rw [Mem.page_write_self, Bytes.copy_inside (by omega) (by omega), Nat.add_sub_cancel_left]
  · by_cases same : g = f
    · subst same
      rw [Mem.page_write_self]
      refine Bytes.copy_outside ?_
      by_contra within
      refine other (o - va % pgsize) (by omega) ?_
      rw [here _ (by omega)]
      congr 2
      omega
    · rw [Mem.page_write_ne same]

/-- The rest of the range, after the first `n` bytes. -/
theorem pageAt_rest {va' : Nat} (next : va' % 2 ^ 32 = (va + n) % 2 ^ 32) (i : Nat) :
    pageAt va' i = pageAt va (n + i) ∧ (va' + i) % pgsize = (va + (n + i)) % pgsize := by
  simp only [pageAt, pgsize]
  omega

theorem written_rest {va' k : Nat} {m₁ : Mem} (first : Written m d va p n m₁)
    (next : va' % 2 ^ 32 = (va + n) % 2 ^ 32) (same : ∀ v < 2 ^ 20, m₁.userFrame d v = m.userFrame d v)
    (distinct : ∀ i < n, ∀ j < k, ∀ x, m.target d va i = some x → m.target d va (n + j) ≠ some x)
    (rest : Written m₁ d va' (p.drop n) k m') : Written m d va p (n + k) m' := by
  have target : ∀ i, m₁.target d va' i = m.target d va (n + i) := by
    intro i
    obtain ⟨page, offset⟩ := pageAt_rest next i
    unfold Mem.target
    rw [page, offset, same _ (pageAt_lt _ _)]
  refine ⟨rest.free.trans first.free, fun i less f o at_i => ?_, fun f o out => ?_⟩
  · by_cases early : i < n
    · rw [rest.others f o fun j less' => ?_, first.bytes i early f o at_i]
      rw [target]
      exact distinct i early j less' _ at_i
    · obtain ⟨j, rfl⟩ := Nat.exists_eq_add_of_le (Nat.le_of_not_lt early)
      exact rest.bytes j (by omega) f o (by rw [target, at_i])
  · rw [rest.others f o fun j less => ?_, first.others f o fun i less => out i (by omega)]
    rw [target]
    exact out (n + j) (by omega)

/-- Different bytes of the range have different places. -/
theorem Apart.target_unique {i j : Nat} {x : Nat × Nat} (apart : Apart m d va len)
    (short : len ≤ 2 ^ 32) (less : i < len) (less' : j < len) (has : m.target d va i = some x)
    (has' : m.target d va j = some x) : i = j := by
  obtain ⟨f, at_i, rfl⟩ := Option.map_eq_some_iff.mp has
  obtain ⟨g, at_j, same⟩ := Option.map_eq_some_iff.mp has'
  obtain ⟨rfl, offset⟩ := Prod.mk.inj same
  have page := (apart i less g at_i).2 j less' at_j
  simp only [pageAt, pgsize] at page offset
  omega

/-- How far `copyout` comes. -/
structure Reached (m : Mem) (d va : Nat) (p : Bytes) (len k : Nat) (m' : Mem) : Prop where
  le : k ≤ len
  user : ∀ i < k, m.userFrame d (pageAt va i) ≠ none
  stop : k < len → m.userFrame d (pageAt va k) = none ∧ (k = 0 ∨ (va + k) % pgsize = 0)
  written : Written m d va p k m'

theorem Written.nil : Written m d va p 0 m :=
  ⟨rfl, fun i less => absurd less (by omega), fun _ _ _ => rfl⟩

theorem Reached.nil : Reached m d va p 0 0 m :=
  ⟨Nat.le_refl _, by omega, by omega, .nil⟩

theorem copyoutLoop_none {fuel : Nat} : copyoutLoop d fuel va p 0 = pure true := by
  cases fuel <;> rfl

/-- Writing a page that is not part of the translation. -/
theorem userFrame_write {f o v : Nat} (apart : f ≠ d ∧ ∀ j < 1024, m.table d j ≠ some f)
    (inside : v < 2 ^ 20) : (m.write f o p n).userFrame d v = m.userFrame d v := by
  unfold Mem.userFrame
  rw [leaf_of_apart apart (fun g other => Mem.page_write_ne other) inside]

theorem table_write {f o i : Nat} (other : f ≠ d) : (m.write f o p n).table d i = m.table d i := by
  unfold Mem.table
  rw [Mem.word_congr (Mem.page_write_ne other.symm)]

/-- The first `n` bytes are written, up to the end of a page, and the range goes on
at `va'`. -/
structure Turned (m : Mem) (d va : Nat) (p : Bytes) (n va' : Nat) (m₁ : Mem) : Prop where
  written : Written m d va p n m₁
  user : ∀ i < n, m.userFrame d (pageAt va i) ≠ none
  next : va' % 2 ^ 32 = (va + n) % 2 ^ 32
  edge : (va + n) % pgsize = 0
  same : ∀ v < 2 ^ 20, m₁.userFrame d v = m.userFrame d v
  table : ∀ i, m₁.table d i = m.table d i

namespace Turned

variable {va' k : Nat} {m₁ : Mem} (turned : Turned m d va p n va' m₁)
include turned

theorem userFrame (i : Nat) :
    m₁.userFrame d (pageAt va' i) = m.userFrame d (pageAt va (n + i)) := by
  rw [turned.same _ (pageAt_lt _ _), (pageAt_rest turned.next i).1]

/-- The bytes of both parts are those of the range. -/
theorem user_all (rest : ∀ i < k, m₁.userFrame d (pageAt va' i) ≠ none) :
    ∀ i < n + k, m.userFrame d (pageAt va i) ≠ none := by
  intro i less
  by_cases early : i < n
  · exact turned.user i early
  · have found := rest (i - n) (by omega)
    rwa [turned.userFrame, Nat.add_sub_cancel' (by omega)] at found

theorem tabled (whole : Tabled m d va (n + k)) : Tabled m₁ d va' k := by
  intro i less before
  rw [turned.table, (pageAt_rest turned.next i).1]
  exact whole (n + i) (by omega) (turned.user_all before)

theorem apart (whole : Apart m d va (n + k)) : Apart m₁ d va' k := by
  intro i less f found
  rw [turned.userFrame] at found
  obtain ⟨clear, alone⟩ := whole (n + i) (by omega) f found
  refine ⟨⟨clear.1, fun j low => by rw [turned.table]; exact clear.2 j low⟩, fun j less' found' => ?_⟩
  rw [turned.userFrame] at found'
  rw [(pageAt_rest turned.next i).1, (pageAt_rest turned.next j).1]
  exact alone (n + j) (by omega) found'

theorem reached {len : Nat} (short : n + len ≤ 2 ^ 32) (whole : Apart m d va (n + len))
    (rest : Reached m₁ d va' (p.drop n) len k m') : Reached m d va p (n + len) (n + k) m' := by
  have le := rest.le
  refine ⟨by omega, turned.user_all rest.user, fun less => ?_, ?_⟩
  · obtain ⟨missing, edge⟩ := rest.stop (by omega)
    rw [turned.userFrame] at missing
    rw [(pageAt_rest turned.next k).2] at edge
    refine ⟨missing, .inr ?_⟩
    rcases edge with rfl | edge
    · exact turned.edge
    · exact edge
  · refine written_rest turned.written turned.next turned.same (fun i less j less' x has has' => ?_)
      rest.written
    have := whole.target_unique short (by omega) (by omega) has has'
    omega

end Turned

/-- The bytes of one page, which does not hold the whole range. -/
theorem turned_page {f : Nat} (inside : va < 2 ^ 32) (has : m.userFrame d (va / pgsize) = some f)
    (clear : f ≠ d ∧ ∀ j < 1024, m.table d j ≠ some f) (full : n = pgsize - va % pgsize) :
    Turned m d va p n ((pgrounddown va + pgsize) % 2 ^ 32) (m.write f (va % pgsize) p n) := by
  refine ⟨written_page inside has (by omega), fun i less => ?_, ?_, ?_,
    fun v below => userFrame_write clear below, fun i => table_write clear.1⟩
  · have page : pageAt va i = va / pgsize := by
      simp only [pageAt, pgsize] at *
      omega
    rw [page, has]
    exact Option.some_ne_none f
  · simp only [pgrounddown, pgsize] at *
    omega
  · simp only [pgsize] at *
    omega

theorem copyoutLoop_spec {fuel : Nat} (inside : va < 2 ^ 32) (short : len ≤ 2 ^ 32)
    (enough : len ≤ fuel) (apart : Apart m d va len) :
    wp (copyoutLoop d fuel va p len) (fun ok m' => ∃ k, Reached m d va p len k m' ∧
      (ok = true ↔ k = len)) (fun e => e = .null ∧ ¬ Tabled m d va len) m := by
  induction fuel generalizing m va p len with
  | zero =>
    obtain rfl : len = 0 := by omega
    exact ⟨0, .nil, by simp⟩
  | succ fuel ih =>
    unfold copyoutLoop
    refine wp_ite (fun more => ?_) fun done => ?_
    · have page : pageAt va 0 = va / pgsize := by
        unfold pageAt
        rw [Nat.add_zero, Nat.mod_eq_of_lt inside]
      rw [wp_bind]
      by_cases table : m.table d (va / pgsize / 1024) = none
      · unfold wp
        rw [uva2ka_null inside table]
        exact ⟨rfl, fun tabled => tabled 0 more (by omega) (page ▸ table)⟩
      refine wp_of_run (uva2ka_run inside table) ?_
      cases has : m.userFrame d (va / pgsize) with
      | none =>
        have nothing_read : Reached m d va p len 0 m :=
          ⟨Nat.zero_le _, by omega, fun _ => ⟨page ▸ has, .inl rfl⟩, .nil⟩
        exact ⟨0, nothing_read, by simp; omega⟩
      | some f =>
        obtain ⟨clear, -⟩ := apart 0 more f (page ▸ has)
        have offset : va - pgrounddown va = va % pgsize := by
          simp only [pgrounddown, pgsize]
          omega
        have some_room := Nat.mod_lt va (by decide : 0 < pgsize)
        dsimp only
        rw [wp_bind, wp_modify, offset]
        by_cases last : len ≤ pgsize - va % pgsize
        · rw [Nat.min_eq_right last, Nat.sub_self, copyoutLoop_none]
          refine ⟨len, ⟨Nat.le_refl _, fun i less => ?_, by omega, written_page inside has last⟩,
            by simp⟩
          have same : pageAt va i = va / pgsize := by
            simp only [pageAt, pgsize] at *
            omega
          rw [same, has]
          exact Option.some_ne_none f
        · generalize full : pgsize - va % pgsize = n at last
          obtain ⟨rest, rfl⟩ := Nat.exists_eq_add_of_le (Nat.le_of_not_le last)
          have turned := turned_page (p := p) inside has clear full.symm
          rw [Nat.min_eq_left (Nat.le_add_right n rest), Nat.add_sub_cancel_left]
          refine wp_mono (ih (Nat.mod_lt _ (by decide)) (by omega) (by omega)
            (turned.apart apart)) (fun ok m' done => ?_) fun e stopped =>
              ⟨stopped.1, fun tabled => stopped.2 (turned.tabled tabled)⟩
          obtain ⟨k, reached, all⟩ := done
          exact ⟨n + k, turned.reached short apart reached, all.trans (by omega)⟩
    · obtain rfl : len = 0 := by omega
      exact ⟨0, .nil, by simp⟩

/-- `copyout` writes the bytes before the first page that is not a user page, if it
finds the page tables. -/
theorem copyout_reaches (inside : va < 2 ^ 32) (short : len ≤ 2 ^ 32) (apart : Apart m d va len) :
    wp (copyout d va p len) (fun ok m' => ∃ k, Reached m d va p len k m' ∧ (ok = true ↔ k = len))
      (fun e => e = .null ∧ ¬ Tabled m d va len) m :=
  copyoutLoop_spec inside short (Nat.le_refl _) apart

/-- Without a page table `copyout` reads an entry through the null pointer. -/
theorem copyout_null (inside : va < 2 ^ 32) (some_bytes : 0 < len)
    (absent : m.table d (va / pgsize / 1024) = none) : copyout d va p len m = .error .null := by
  obtain ⟨fuel, rfl⟩ := Nat.exists_eq_succ_of_ne_zero some_bytes.ne'
  unfold copyout copyoutLoop
  rw [if_pos (Nat.succ_pos fuel)]
  exact run_bind_error (uva2ka_null inside absent)

end Copy

/-! ## Address spaces -/

section Spaces

variable {K : Link} {m : Mem} {d v f : Nat} {h : Option Nat}

theorem userFrame_eq_some (has : m.userFrame d v = some f) :
    ∃ e, m.leaf d v = some e ∧ User e ∧ pteAddr e = f := by
  obtain ⟨e, leaf, marked⟩ := Option.bind_eq_some_iff.mp has
  split at marked
  · exact ⟨e, leaf, ‹_›, Option.some.inj marked⟩
  · cases marked

/-- Only the user part has user pages. -/
theorem Space.userFrame_lt (space : Space K m d h) (inside : v < 2 ^ 20)
    (has : m.userFrame d v = some f) : v < 2 ^ 19 := by
  obtain ⟨e, leaf, user, -⟩ := userFrame_eq_some has
  by_contra high
  exact space.kernel v e (by omega) inside leaf user

/-- In a well-formed address space user pages are different physical pages. -/
theorem Space.apart (space : Space K m d h) (va len : Nat) : Apart m d va len := by
  intro i _ f has
  have low := space.userFrame_lt (pageAt_lt va i) has
  obtain ⟨e, leaf, -, rfl⟩ := userFrame_eq_some has
  refine ⟨space.page_apart low leaf, fun j _ has' => ?_⟩
  have low' := space.userFrame_lt (pageAt_lt va j) has'
  obtain ⟨e', leaf', -, same⟩ := userFrame_eq_some has'
  exact space.page_unique low low' leaf leaf' same.symm

end Spaces

end BasicOS.Vm
