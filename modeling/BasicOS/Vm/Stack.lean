/-
# BasicOS.Vm.Stack — the arguments of a new program

`exec` maps a guard page and a stack page above the program and pushes the
argument strings and the array `ustack` with `copyout`.  Each push subtracts a
length that the caller chose, modulo `2 ^ 32`.  `push_spec` says why that is safe:
a range that ends at the stack pointer and is not inside the stack page has a byte
in the guard page or, if the subtraction wrapped, in the kernel's part, and
`copyout` fails.

`ArgStack` is what the new program finds at its stack pointer.
-/
import BasicOS.Vm.Copyout
import BasicOS.Vm.Load

namespace BasicOS.Vm

open Function Lib
open Lib.Prog

set_option autoImplicit false

variable {K : Link} {m m' : Mem} {d v q : Nat} {e : UInt32} {img : Bytes}

/-! ## The guard page -/

theorem cleared_entry (e : UInt32) : pteAddr (e &&& ~~~pteU) = pteAddr e ∧
    (Present (e &&& ~~~pteU) ↔ Present e) ∧ ¬ User (e &&& ~~~pteU) := by
  have bound := e.toNat_lt
  have bits : (e &&& ~~~pteU).toNat = e.toNat &&& 4294967291 := by
    rw [UInt32.toNat_and]
    rfl
  refine ⟨?_, ?_, ?_⟩
  · have high : (e.toNat &&& 4294967291) / 2 ^ 12 = e.toNat / 2 ^ 12 := by
      rw [Nat.and_div_two_pow, show 4294967291 / 2 ^ 12 = 2 ^ 20 - 1 from rfl,
        Nat.and_two_pow_sub_one_eq_mod, Nat.mod_eq_of_lt (by omega)]
    rw [pteAddr_eq, pteAddr_eq, bits]
    exact high
  · rw [present_iff, present_iff, bits, Nat.and_mod_two_eq_one]
    exact ⟨fun both => both.1, fun one => ⟨one, rfl⟩⟩
  · rw [user_iff, bits]
    intro one
    have low : (e.toNat &&& 4294967291) / 2 ^ 2 % 2 = 1 := one
    rw [Nat.and_div_two_pow, Nat.and_mod_two_eq_one] at low
    exact absurd low.2 (by decide)

theorem userFrame_of_leaf (has : m.leaf d v = some e) :
    m.userFrame d v = if User e then some (pteAddr e) else none := by
  unfold Mem.userFrame
  rw [has]
  rfl

theorem userFrame_congr (same : m'.leaf d v = m.leaf d v) : m'.userFrame d v = m.userFrame d v := by
  unfold Mem.userFrame
  rw [same]

/-- `clearpteu` changes nothing but that the page is no user page. -/
theorem clearpteu_spec (space : Space K m d none) (user : v < 2 ^ 19) (has : m.leaf d v = some e) :
    wp (clearpteu d (v * pgsize)) (fun _ m' => Space K m' d none ∧
      Changes m (own m d none) m' (own m' d none) ∧ m'.userFrame d v = none ∧
      (∀ w < 2 ^ 19, (m'.leaf d w).isSome = (m.leaf d w).isSome) ∧
      (∀ w < 2 ^ 20, w ≠ v → m'.leaf d w = m.leaf d w) ∧
      ∀ a < kernbase, m'.ubyte d a = m.ubyte d a) (fun _ => False) m := by
  have inside : v < 2 ^ 20 := by omega
  obtain ⟨t, table, word, present⟩ := Mem.leaf_eq_some has
  obtain ⟨addr, still, plain⟩ := cleared_entry e
  have present' := still.mpr present
  unfold clearpteu
  rw [wp_bind]
  refine wp_of_run (walkpgdir_there (t := t) (by rw [pdx_page inside, table]) false) ?_
  rw [ptx_page]
  dsimp only
  rw [wp_modify, word]
  have leaf : ∀ w < 2 ^ 20, (m.setWord t (v % 1024) (e &&& ~~~pteU)).leaf d w =
      if w = v then some (e &&& ~~~pteU) else m.leaf d w := by
    intro w below
    rw [setWord_leaf space inside table below, if_pos present']
  have places : own (m.setWord t (v % 1024) (e &&& ~~~pteU)) d none = own m d none := by
    rw [setWord_own_user space inside table user, if_pos present', addr,
      ← own_leaf (h := none) user has, update_eq_self]
  have changes : Changes m (own m d none) (m.setWord t (v % 1024) (e &&& ~~~pteU))
      (own (m.setWord t (v % 1024) (e &&& ~~~pteU)) d none) := by
    rw [places]
    refine ⟨space.held.refl, fun g out => Mem.page_setWord_ne fun here => out ?_⟩
    exact .inr ⟨.table (v / 1024), by rw [own_table (by omega), table, here]⟩
  refine ⟨⟨changes.trade.held, changes.managed space.managed, fun w e' low high got => ?_⟩, changes,
    ?_, fun w below => ?_, fun w below other => ?_, fun a below => ?_⟩
  · rw [leaf w high, if_neg (by omega)] at got
    exact space.kernel w e' low high got
  · rw [userFrame_of_leaf ((leaf v inside).trans (if_pos rfl)), if_neg plain]
  · rw [leaf w (by omega)]
    by_cases here : w = v
    · rw [if_pos here, here, has]
      rfl
    · rw [if_neg here]
  · rw [leaf w below, if_neg other]
  · have page : a / pgsize < 2 ^ 19 := by
      simp only [pgsize, kernbase] at *
      omega
    have bytes : ∀ e', m.leaf d (a / pgsize) = some e' →
        (m.setWord t (v % 1024) (e &&& ~~~pteU)).page (pteAddr e') = m.page (pteAddr e') := by
      intro e' got
      refine Mem.page_setWord_ne fun same => (space.page_apart page got).2 (v / 1024) (by omega) ?_
      rw [table, same]
    unfold Mem.ubyte
    by_cases here : a / pgsize = v
    · rw [upage_of_leaf ((leaf _ (by omega)).trans (if_pos here)), upage_of_leaf (here ▸ has), addr,
        bytes e (here ▸ has)]
      rfl
    · rw [Mem.upage_congr ((leaf _ (by omega)).trans (if_neg here)) bytes]

/-- The program, the guard page and the stack page, `q` pages in all. -/
structure Stacked (K : Link) (d q : Nat) (img : Bytes) (m : Mem) : Prop where
  two : 2 ≤ q
  below : q < 2 ^ 19
  space : Space K m d none
  exact : Exact m d (q * pgsize)
  bytes : ∀ a < q * pgsize, m.ubyte d a = some (img a)
  zero : ∀ a, (q - 2) * pgsize ≤ a → img a = 0
  stack : m.userFrame d (q - 1) ≠ none
  guard : m.userFrame d (q - 2) = none

theorem pages_mul (n : Nat) : pages (n * pgsize) = n := by
  simp only [pages, pgsize]
  omega

/-- The size is rounded up to whole pages. -/
theorem Loaded.round {sz : Nat} (loaded : Loaded K d sz img m) (room : pages sz < 2 ^ 19) :
    Loaded K d (pages sz * pgsize) img m := by
  refine ⟨loaded.space, fun v user => ?_, Nat.mul_lt_mul_of_pos_right room (by decide : 0 < pgsize), ?_,
    ?_⟩
  · rw [pages_mul]
    exact loaded.exact v user
  · rw [pages_mul]
    exact loaded.bytes
  · rw [pages_mul]
    exact loaded.zero

theorem allocStack_spec {sz : Nat} (loaded : Loaded K d sz img m) :
    wp (allocStack K d sz) (fun r m' => Space K m' d none ∧
      Changes m (own m d none) m' (own m' d none) ∧
      ∀ sz', r = some sz' → sz' = (pages sz + 2) * pgsize ∧ Stacked K d (pages sz + 2) img m')
      (fun _ => False) m := by
  have bound := pages_le (Nat.le_of_lt loaded.below)
  have sum : (pages sz * pgsize + 2 * pgsize) % 2 ^ 32 = (pages sz + 2) * pgsize := by
    simp only [pgsize]
    omega
  unfold allocStack
  rw [pgroundup_eq (Nat.le_of_lt loaded.below)]
  dsimp only
  rw [wp_bind, sum]
  by_cases room : pages sz < 2 ^ 19
  · refine wp_post (loaded.round room).alloc fun r m₁ alloc => ?_
    obtain ⟨space₁, changes₁, grown⟩ := alloc
    refine wp_ite (fun _ => ⟨space₁, changes₁, fun _ no => nomatch no⟩) fun some_pages => ?_
    obtain ⟨size, loaded₁, fresh⟩ := grown some_pages
    rw [Nat.max_eq_right (Nat.mul_le_mul_right _ (by omega))] at size
    subst size
    rw [pages_mul, pages_mul] at fresh
    have below : pages sz + 2 < 2 ^ 19 := by
      have := loaded₁.below
      simp only [pgsize, kernbase] at this
      omega
    have guard : ((pages sz + 2) * pgsize + 2 ^ 32 - 2 * pgsize) % 2 ^ 32 = pages sz * pgsize := by
      simp only [pgsize]
      omega
    obtain ⟨e, has, -⟩ := fresh (pages sz) (Nat.le_refl _) (by omega)
    obtain ⟨e', has', user'⟩ := fresh (pages sz + 1) (by omega) (by omega)
    rw [wp_bind, guard]
    refine wp_post (clearpteu_spec space₁ (by omega) has) fun _ m₂ cleared => ?_
    obtain ⟨space₂, changes₂, plain, mapped, leaf, bytes⟩ := cleared
    refine ⟨space₂, changes₁.trans changes₂, fun sz' done => ?_⟩
    obtain rfl := Option.some.inj done
    refine ⟨rfl, by omega, below, space₂, fun v user => ?_, fun a inside => ?_, fun a above => ?_, ?_,
      plain⟩
    · rw [mapped v user]
      exact loaded₁.exact v user
    · rw [bytes a (by simp only [pgsize, kernbase] at *; omega)]
      exact loaded₁.bytes a (by rw [pages_mul]; exact inside)
    · exact loaded.zero a above
    · show m₂.userFrame d (pages sz + 1) ≠ none
      rw [userFrame_congr (leaf (pages sz + 1) (by omega) (by omega)),
        userFrame_of_leaf has', if_pos user']
      exact Option.some_ne_none _
  · -- the program reaches up to the kernel
    have high : (pages sz + 2) * pgsize ≥ kernbase := by
      simp only [pgsize, kernbase]
      omega
    refine wp_of_run (allocuvm_high high) ?_
    rw [if_pos rfl]
    exact ⟨loaded.space, .refl loaded.space.held, fun _ no => nomatch no⟩

/-! ## One push -/

/-- Bytes that `copyout` has written are in user pages. -/
theorem Written.touched {va k : Nat} {p : Bytes} (space : Space K m d none)
    (written : Written m d va p k m') : Touched K d m m' := by
  -- a page that is no user page is not written
  have page : ∀ g, (∀ w < 2 ^ 20, m.userFrame d w ≠ some g) → m'.page g = m.page g := by
    intro g out
    funext o
    refine written.others g o fun i _ target => ?_
    obtain ⟨f, has, same⟩ := Option.map_eq_some_iff.mp target
    exact out _ (pageAt_lt va i) (has.trans (congrArg some (Prod.mk.inj same).1))
  have apart : ∀ s g, (∀ w, s ≠ .page w) → own m d none s = some g →
      ∀ w < 2 ^ 20, m.userFrame d w ≠ some g := by
    intro s g place has w inside frame
    have low := space.userFrame_lt inside frame
    obtain ⟨e, leaf, -, rfl⟩ := userFrame_eq_some frame
    exact place w (space.held.unique has (own_leaf low leaf))
  have dir : m'.page d = m.page d := page d (apart .dir d (by simp) rfl)
  have tables : ∀ i < 1024, ∀ t, m.table d i = some t → m'.page t = m.page t := fun i low t has =>
    page t (apart (.table i) t (by simp) ((own_table low).trans has))
  have leaf : ∀ w < 2 ^ 20, m'.leaf d w = m.leaf d w := fun w inside =>
    Mem.leaf_congr dir (tables _ (by omega))
  have changes : Changes m (own m d none) m' (own m' d none) := by
    rw [own_congr dir tables]
    refine ⟨by rw [written.free]; exact space.held.refl, fun g out => page g fun w inside frame => out ?_⟩
    have low := space.userFrame_lt inside frame
    obtain ⟨e, leaf, -, rfl⟩ := userFrame_eq_some frame
    exact .inr ⟨_, own_leaf low leaf⟩
  refine ⟨⟨changes.trade.held, changes.managed space.managed, fun w e low high has => ?_⟩, changes, leaf⟩
  rw [leaf w high] at has
  exact space.kernel w e low high has

/-- What `copyout` has written is what the user sees. -/
theorem Written.ubyte {va k a : Nat} {p : Bytes} (space : Space K m d none)
    (written : Written m d va p k m') (user : ∀ i < k, m.userFrame d (pageAt va i) ≠ none)
    (fits : va + k ≤ kernbase) (below : a < kernbase) :
    m'.ubyte d a = if va ≤ a ∧ a < va + k then some (p (a - va)) else m.ubyte d a := by
  have touched := written.touched space
  have page : a / pgsize < 2 ^ 19 := by
    simp only [pgsize, kernbase] at *
    omega
  have at_page : ∀ i < k, pageAt va i = (va + i) / pgsize := by
    intro i less
    simp only [pageAt, pgsize, kernbase] at *
    omega
  unfold Mem.ubyte
  cases has : m.leaf d (a / pgsize) with
  | none =>
    have outside : ¬ (va ≤ a ∧ a < va + k) := fun range => by
      have found := user (a - va) (by omega)
      rw [at_page _ (by omega), Nat.add_sub_cancel' range.1] at found
      simp [Mem.userFrame, has] at found
    rw [if_neg outside]
    simp [Mem.upage, has, (touched.leaf _ (by omega)).trans has]
  | some e =>
    rw [upage_of_leaf ((touched.leaf _ (by omega)).trans has), upage_of_leaf has]
    simp only [Option.map_some]
    by_cases range : va ≤ a ∧ a < va + k
    · rw [if_pos range]
      have found := user (a - va) (by omega)
      have page_a : pageAt va (a - va) = a / pgsize := by
        rw [at_page _ (by omega), Nat.add_sub_cancel' range.1]
      refine congrArg some (written.bytes (a - va) (by omega) _ _ ?_)
      rw [page_a, userFrame_of_leaf has] at found
      have marked : User e := by
        by_contra plain
        exact found (if_neg plain)
      unfold Mem.target
      rw [page_a, userFrame_of_leaf has, if_pos marked, Nat.add_sub_cancel' range.1]
      rfl
    · rw [if_neg range]
      refine congrArg some (written.others _ _ fun i less target => range ?_)
      obtain ⟨f, frame, same⟩ := Option.map_eq_some_iff.mp target
      obtain ⟨rfl, offset⟩ := Prod.mk.inj same
      have low := space.userFrame_lt (pageAt_lt va i) frame
      obtain ⟨e', leaf', -, addr⟩ := userFrame_eq_some frame
      have same_page := space.page_unique low page leaf' has addr
      rw [at_page i less] at same_page
      simp only [pgsize] at *
      omega

/-- The address of `n` bytes below `sp`. -/
def below (sp n : Nat) : Nat :=
  (sp + 2 ^ 32 - n) % 2 ^ 32 / 4 * 4

theorem below_eq {sp n : Nat} (fits : n ≤ sp) (width : sp < 2 ^ 32) : below sp n = (sp - n) / 4 * 4 := by
  have same : (sp + 2 ^ 32 - n) % 2 ^ 32 = sp - n := by omega
  unfold below
  rw [same]

/-- A subtraction that wraps ends in the kernel's part. -/
theorem below_wrapped {sp n : Nat} (wraps : sp < n) (small : n ≤ 2 ^ 31) :
    2 ^ 19 ≤ pageAt (below sp n) 0 := by
  have same : (sp + 2 ^ 32 - n) % 2 ^ 32 = sp + 2 ^ 32 - n := by omega
  have high : 2 ^ 31 ≤ below sp n := by
    unfold below
    rw [same]
    omega
  have width : below sp n < 2 ^ 32 := by
    unfold below
    omega
  simp only [pageAt, pgsize]
  omega

/-- A range that begins below the stack page and reaches into or over the guard page
has a byte there. -/
theorem guard_hit {x n g : Nat} (some_bytes : 0 < n) (low : x < (g + 1) * pgsize)
    (high : g * pgsize < x + n) (limit : g < 2 ^ 19) : ∃ i < n, pageAt x i = g := by
  simp only [pgsize] at low high
  by_cases after : g * 4096 ≤ x
  · refine ⟨0, some_bytes, ?_⟩
    simp only [pageAt, pgsize]
    omega
  · refine ⟨g * 4096 - x, by omega, ?_⟩
    simp only [pageAt, pgsize]
    omega

/-- All of the `q` pages are mapped, and the second of them from above is a guard
page. -/
structure Fenced (K : Link) (d q : Nat) (m : Mem) : Prop where
  two : 2 ≤ q
  below : q < 2 ^ 19
  space : Space K m d none
  mapped : ∀ v < q, m.leaf d v ≠ none
  guard : m.userFrame d (q - 2) = none

theorem Stacked.fenced (stacked : Stacked K d q img m) : Fenced K d q m := by
  have below := stacked.below
  refine ⟨stacked.two, below, stacked.space, fun v less => ?_, stacked.guard⟩
  have mapped := stacked.exact v (by omega)
  rw [pages_mul] at mapped
  exact Option.isSome_iff_ne_none.mp (mapped.mpr less)

theorem Fenced.touched (fenced : Fenced K d q m) (touched : Touched K d m m') : Fenced K d q m' := by
  have below := fenced.below
  refine ⟨fenced.two, below, touched.space, fun v less => ?_, ?_⟩
  · rw [touched.leaf v (by omega)]
    exact fenced.mapped v less
  · rw [userFrame_congr (touched.leaf _ (by omega)), fenced.guard]

/-- A range below the stack pointer has its page tables. -/
theorem Fenced.tabled {x n : Nat} (fenced : Fenced K d q m) (inside : x + n ≤ q * pgsize) :
    Tabled m d x n := by
  intro i less _ absent
  have limit := fenced.below
  have page : pageAt x i < q := by
    simp only [pageAt, pgsize] at *
    omega
  exact fenced.mapped _ page (Mem.leaf_of_no_table absent)

theorem push_spec {sp n : Nat} {p : Bytes} (fenced : Fenced K d q m)
    (low : (q - 1) * pgsize ≤ sp) (high : sp ≤ q * pgsize) (some_bytes : 0 < n) (small : n ≤ kernbase) :
    wp (copyout d (below sp n) p n) (fun ok m' => Touched K d m m' ∧ (ok = true →
      (q - 1) * pgsize ≤ below sp n ∧ below sp n + n ≤ sp ∧ ∀ a < kernbase, m'.ubyte d a =
        if below sp n ≤ a ∧ a < below sp n + n then some (p (a - below sp n)) else m.ubyte d a))
      (fun e => e = .null ∧ sp < n) m := by
  have two := fenced.two
  have limit := fenced.below
  have top : sp < kernbase := Nat.lt_of_le_of_lt high
    (Nat.mul_lt_mul_of_pos_right limit (by decide : 0 < pgsize))
  have address : n ≤ sp → below sp n = (sp - n) / 4 * 4 := fun nowrap =>
    below_eq nowrap (Nat.lt_trans top (by decide))
  have width : below sp n < 2 ^ 32 := by
    unfold below
    omega
  have short : n ≤ 2 ^ 32 := Nat.le_trans small (by decide)
  refine wp_mono (copyout_reaches width short (fenced.space.apart _ _)) (fun ok m' done => ?_)
    fun e stopped => ⟨stopped.1, Nat.lt_of_not_le fun nowrap => stopped.2 (fenced.tabled ?_)⟩
  swap
  · have := address nowrap
    omega
  obtain ⟨k, reached, full⟩ := done
  refine ⟨reached.written.touched fenced.space, fun success => ?_⟩
  obtain rfl := full.mp success
  have user := reached.user
  -- the first byte is in the user part, so the subtraction has not wrapped
  have nowrap : k ≤ sp := by
    by_contra wrapped
    obtain ⟨f, frame⟩ := Option.ne_none_iff_exists'.mp (user 0 some_bytes)
    have kernel := fenced.space.userFrame_lt (pageAt_lt _ _) frame
    exact absurd (below_wrapped (Nat.lt_of_not_le wrapped) small) (Nat.not_le.mpr kernel)
  have fits : below sp k + k ≤ sp := by
    have := address nowrap
    omega
  -- no byte is in the guard page, so all of them are above it
  have above : (q - 1) * pgsize ≤ below sp k := by
    by_contra lower
    have next : q - 2 + 1 = q - 1 := by omega
    have reaches : (q - 2) * pgsize < below sp k + k := by
      simp only [pgsize] at low ⊢
      omega
    obtain ⟨i, less, page⟩ := guard_hit some_bytes (by rw [next]; exact Nat.lt_of_not_le lower)
      reaches (show q - 2 < 2 ^ 19 by omega)
    exact user i less (by rw [page, fenced.guard])
  exact ⟨above, fits, fun a inside =>
    reached.written.ubyte fenced.space user (Nat.le_of_lt (Nat.lt_of_le_of_lt fits top)) inside⟩

/-! ## The strings -/

/-- The strings are at these addresses, each with its terminator and each below the
one before. -/
def Placed (m : Mem) (d : Nat) : Nat → List (List UInt8) → List Nat → Prop
  | _, [], [] => True
  | top, s :: strs, x :: xs => x + s.length + 1 ≤ top ∧
      (∀ j ≤ s.length, m.ubyte d (x + j) = some (Bytes.ofList s j)) ∧ Placed m d x strs xs
  | _, _, _ => False

theorem Placed.le {strs : List (List UInt8)} {xs : List Nat} {top : Nat}
    (placed : Placed m d top strs xs) : xs.getLastD top ≤ top ∧ xs.length = strs.length := by
  induction strs generalizing xs top with
  | nil =>
    cases xs with
    | nil => exact ⟨Nat.le_refl _, rfl⟩
    | cons x xs => exact placed.elim
  | cons s strs ih =>
    cases xs with
    | nil => exact placed.elim
    | cons x xs =>
      obtain ⟨fits, -, rest⟩ := placed
      obtain ⟨le, length⟩ := ih rest
      rw [List.getLastD_cons]
      exact ⟨by omega, by rw [List.length_cons, List.length_cons, length]⟩

/-- Only the bytes from the lowest string up count. -/
theorem Placed.congr {strs : List (List UInt8)} {xs : List Nat} {top : Nat}
    (placed : Placed m d top strs xs)
    (same : ∀ a, xs.getLastD top ≤ a → a < top → m'.ubyte d a = m.ubyte d a) :
    Placed m' d top strs xs := by
  induction strs generalizing xs top with
  | nil =>
    cases xs with
    | nil => exact trivial
    | cons x xs => exact placed.elim
  | cons s strs ih =>
    cases xs with
    | nil => exact placed.elim
    | cons x xs =>
      obtain ⟨fits, bytes, rest⟩ := placed
      have le := rest.le.1
      rw [List.getLastD_cons] at same
      refine ⟨fits, fun j inside => ?_, ih rest fun a low high => same a low (by omega)⟩
      rw [same _ (by omega) (by omega), bytes j inside]

theorem setUstack_run {ustack : Nat → UInt32} {i : Nat} {w : UInt32} (inside : i < 3 + maxarg + 1) :
    setUstack ustack i w m = .ok (update ustack i w, m) := by
  unfold setUstack
  rw [if_pos inside]
  rfl

/-- What `pushArgs` returns when it has pushed the strings. -/
structure Strings (m : Mem) (d argc sp : Nat) (strs : List (List UInt8)) (ustack : Nat → UInt32)
    (m' : Mem) (argc' sp' : Nat) (ustack' : Nat → UInt32) (xs : List Nat) : Prop where
  placed : Placed m' d sp strs xs
  lowest : sp' = xs.getLastD sp
  count : argc' = argc + strs.length
  words : ∀ i, ustack' i = if 3 + argc ≤ i ∧ i < 3 + argc' then UInt32.ofNat (xs.getD (i - (3 + argc)) 0)
    else ustack i
  others : ∀ a < kernbase, a < sp' ∨ sp ≤ a → m'.ubyte d a = m.ubyte d a

/-- One string before the others. -/
theorem Strings.cons {m₁ : Mem} {argc sp x argc' sp' : Nat} {s : List UInt8} {strs : List (List UInt8)}
    {ustack ustack' : Nat → UInt32} {xs : List Nat} (top : sp ≤ kernbase)
    (fits : x + (s.length + 1) ≤ sp)
    (bytes : ∀ a < kernbase, m₁.ubyte d a =
      if x ≤ a ∧ a < x + (s.length + 1) then some (Bytes.ofList s (a - x)) else m.ubyte d a)
    (rest : Strings m₁ d (argc + 1) x strs (update ustack (3 + argc) (UInt32.ofNat x)) m' argc' sp'
      ustack' xs) :
    Strings m d argc sp (s :: strs) ustack m' argc' sp' ustack' (x :: xs) := by
  have le := rest.placed.le.1
  have lowest := rest.lowest
  refine ⟨⟨by omega, fun j inside => ?_, rest.placed⟩, ?_, ?_, fun i => ?_, fun a below out => ?_⟩
  · rw [rest.others _ (by omega) (by omega), bytes _ (by omega), if_pos (by omega),
      Nat.add_sub_cancel_left]
  · rw [lowest, List.getLastD_cons]
  · rw [rest.count, List.length_cons]
    omega
  · have count := rest.count
    rw [rest.words]
    by_cases later : 3 + (argc + 1) ≤ i ∧ i < 3 + argc'
    · rw [if_pos later, if_pos (by omega), show i - (3 + argc) = i - (3 + (argc + 1)) + 1 by omega,
        List.getD_cons_succ]
    · rw [if_neg later]
      by_cases here : i = 3 + argc
      · rw [here, update_self, if_pos (by omega), Nat.sub_self, List.getD_cons_zero]
      · rw [update_of_ne here, if_neg (by omega)]
  · rw [rest.others a below (by omega), bytes a below, if_neg (by omega)]

theorem pushArgs_spec {strs : List (List UInt8)} {sp : Nat} (argc : Nat) (ustack : Nat → UInt32)
    (fenced : Fenced K d q m) (low : (q - 1) * pgsize ≤ sp) (high : sp ≤ q * pgsize) (four : sp % 4 = 0)
    (room : argc ≤ maxarg) (short : ∀ s ∈ strs, s.length < kernbase) :
    wp (pushArgs d strs argc sp ustack) (fun r m' => Touched K d m m' ∧
      ∀ sp' argc' ustack', r = some (sp', argc', ustack') → (q - 1) * pgsize ≤ sp' ∧ sp' % 4 = 0 ∧
        argc' ≤ maxarg ∧ ∃ xs, Strings m d argc sp strs ustack m' argc' sp' ustack' xs)
      (fun e => e = .null ∧ ∃ s ∈ strs, pgsize ≤ s.length) m := by
  have two := fenced.two
  induction strs generalizing m argc sp ustack with
  | nil =>
    refine ⟨.refl fenced.space, fun sp' argc' ustack' done => ?_⟩
    obtain ⟨rfl, rfl, rfl⟩ : sp = sp' ∧ argc = argc' ∧ ustack = ustack' := by simpa using done
    exact ⟨low, four, room, [], trivial, rfl, rfl, fun i => (if_neg (by omega)).symm,
      fun _ _ _ => rfl⟩
  | cons s strs ih =>
    unfold pushArgs
    refine wp_ite (fun _ => ⟨.refl fenced.space, fun _ _ _ no => nomatch no⟩) fun more => ?_
    have small : s.length + 1 ≤ kernbase := short s List.mem_cons_self
    have push := push_spec (p := Bytes.ofList s) fenced low high (Nat.succ_pos s.length) small
    rw [wp_bind]
    refine wp_mono push (fun ok m₁ pushed => ?_) fun e stopped =>
      ⟨stopped.1, s, List.mem_cons_self, ?_⟩
    swap
    · have := stopped.2
      simp only [pgsize] at low ⊢
      omega
    obtain ⟨touched, written⟩ := pushed
    cases ok with
    | false => exact ⟨touched, fun _ _ _ no => nomatch no⟩
    | true =>
      obtain ⟨low₁, fits, bytes⟩ := written rfl
      have inside : 3 + argc < 3 + maxarg + 1 := by omega
      rw [if_pos rfl, wp_bind]
      refine wp_of_run (setUstack_run inside) ?_
      have below_four : below sp (s.length + 1) % 4 = 0 := Nat.mul_mod_left _ 4
      have top : sp ≤ kernbase := Nat.le_trans high
        (Nat.mul_le_mul_right pgsize (Nat.le_of_lt fenced.below))
      refine wp_mono (ih _ _ (fenced.touched touched) low₁ (by omega) below_four (by omega)
        fun s' mem => short s' (List.mem_cons_of_mem s mem)) (fun r m₂ rest => ?_)
        fun e stopped => ⟨stopped.1, stopped.2.imp fun _ long => ⟨List.mem_cons_of_mem s long.1, long.2⟩⟩
      obtain ⟨touched', pushed⟩ := rest
      refine ⟨touched.trans touched', fun sp' argc' ustack' done => ?_⟩
      obtain ⟨low', four', room', xs, strings⟩ := pushed sp' argc' ustack' done
      exact ⟨low', four', room', _, strings.cons top fits bytes⟩

/-! ## The whole stack -/

/-- The word `w` is at the user address `a`. -/
def WordAt (m : Mem) (d a : Nat) (w : UInt32) : Prop :=
  ∀ c < 4, m.ubyte d (a + c) = some (Bytes.le32 w c)

/-- What `main` is called with: a return address, the number of arguments, and the
array of their addresses, all in the last page below `sz`. -/
structure ArgStack (m : Mem) (d sz esp : Nat) (argv : List (List UInt8)) : Prop where
  low : sz - pgsize ≤ esp
  pc : WordAt m d esp 0xffffffff
  argc : WordAt m d (esp + 4) (UInt32.ofNat argv.length)
  array : WordAt m d (esp + 8) (UInt32.ofNat (esp + 12))
  strings : ∃ xs, Placed m d sz argv xs ∧ esp + 4 * (4 + argv.length) ≤ xs.getLastD sz ∧
    (∀ i < argv.length, WordAt m d (esp + 12 + 4 * i) (UInt32.ofNat (xs.getD i 0))) ∧
    WordAt m d (esp + 12 + 4 * argv.length) 0

theorem ArgStack.congr {sz esp : Nat} {argv : List (List UInt8)} (args : ArgStack m d sz esp argv)
    (below : sz ≤ kernbase) (same : ∀ a < kernbase, m'.ubyte d a = m.ubyte d a) :
    ArgStack m' d sz esp argv := by
  obtain ⟨low, pc, argc, array, xs, placed, above, pointers, last⟩ := args
  have le := placed.le.1
  have word : ∀ {a w}, a + 4 ≤ sz → WordAt m d a w → WordAt m' d a w := by
    intro a w inside has c less
    rw [same _ (by omega), has c less]
  refine ⟨low, word (by omega) pc, word (by omega) argc, word (by omega) array, xs,
    placed.congr fun a _ high => same a (by omega), above, fun i less => word (by omega) (pointers i less),
    word (by omega) last⟩

/-- The words of `ustack` where they have been copied to. -/
theorem ustack_words {x n : Nat} {ustack : Nat → UInt32} (top : x + 4 * n ≤ kernbase)
    (bytes : ∀ a < kernbase, m'.ubyte d a =
      if x ≤ a ∧ a < x + 4 * n then some (ustackBytes ustack (a - x)) else m.ubyte d a) :
    ∀ i < n, WordAt m' d (x + 4 * i) (ustack i) := by
  intro i less c small
  rw [bytes _ (by omega), if_pos (by omega)]
  unfold ustackBytes
  rw [show x + 4 * i + c - x = 4 * i + c by omega, show (4 * i + c) / 4 = i by omega,
    show (4 * i + c) % 4 = c by omega]

/-- The strings and, below them, the array. -/
theorem argStack_of_words {sz sp argc x : Nat} {argv : List (List UInt8)} {ustack u : Nat → UInt32}
    {xs : List Nat} {m₁ : Mem} (strings : Strings m d 0 sz argv (fun _ => 0) m₁ argc sp ustack xs)
    (room : 0 < argc + 1) (limit : sz ≤ kernbase) (count : argc = argv.length)
    (words : update (update (update (update ustack (3 + argc) 0) 0 0xffffffff) 1
      (UInt32.ofNat argc)) 2 (UInt32.ofNat (sp + 2 ^ 32 - (argc + 1) * 4)) = u)
    (address : x = sp - 4 * (4 + argc)) (below_sp : 4 * (4 + argc) ≤ sp) (low : sz - pgsize ≤ x)
    (bytes : ∀ a < kernbase, m'.ubyte d a =
      if x ≤ a ∧ a < x + 4 * (4 + argc) then some (ustackBytes u (a - x)) else m₁.ubyte d a) :
    ArgStack m' d sz x argv := by
  subst count words
  have le := strings.placed.le.1
  rw [← strings.lowest] at le
  have at_word := ustack_words (by omega) bytes
  have array : UInt32.ofNat (sp + 2 ^ 32 - (argv.length + 1) * 4) = UInt32.ofNat (x + 12) := by
    apply UInt32.toNat_inj.mp
    rw [UInt32.toNat_ofNat', UInt32.toNat_ofNat']
    omega
  have ne : ∀ {i j : Nat}, i < 3 → 3 + j ≠ i := by omega
  refine ⟨low, ?_, ?_, ?_, xs, strings.placed.congr fun a above below => ?_, ?_, fun i less => ?_, ?_⟩
  · simpa using at_word 0 (by omega)
  · simpa using at_word 1 (by omega)
  · rw [← array]
    simpa using at_word 2 (by omega)
  · rw [← strings.lowest] at above
    rw [bytes a (by omega), if_neg (by omega)]
  · rw [← strings.lowest]
    omega
  · have word := at_word (3 + i) (by omega)
    rw [update_of_ne (ne (by decide)), update_of_ne (ne (by decide)), update_of_ne (ne (by decide)),
      update_of_ne (by omega), strings.words, if_pos (by omega)] at word
    rw [show x + 12 + 4 * i = x + 4 * (3 + i) by omega]
    simpa using word
  · have word := at_word (3 + argv.length) (by omega)
    rw [update_of_ne (ne (by decide)), update_of_ne (ne (by decide)), update_of_ne (ne (by decide)),
      update_self] at word
    rw [show x + 12 + 4 * argv.length = x + 4 * (3 + argv.length) by omega]
    exact word

theorem pushStack_spec {argv : List (List UInt8)} (fenced : Fenced K d q m)
    (short : ∀ s ∈ argv, s.length < kernbase) :
    wp (pushStack d (q * pgsize) argv) (fun r m' => Touched K d m m' ∧ ∀ sp, r = some sp →
      ArgStack m' d (q * pgsize) sp argv ∧
        ∀ a < (q - 1) * pgsize, m'.ubyte d a = m.ubyte d a)
      (fun e => e = .null ∧ ∃ s ∈ argv, pgsize ≤ s.length) m := by
  have two := fenced.two
  have limit : q * pgsize ≤ kernbase := Nat.mul_le_mul_right pgsize (Nat.le_of_lt fenced.below)
  have page : (q - 1) * pgsize + pgsize = q * pgsize := by
    rw [← Nat.succ_mul]
    congr 1
    omega
  unfold pushStack
  rw [wp_bind]
  have start : (q - 1) * pgsize ≤ q * pgsize := Nat.mul_le_mul_right pgsize (Nat.sub_le q 1)
  have aligned : q * pgsize % 4 = 0 := by
    simp only [pgsize]
    omega
  refine wp_post (pushArgs_spec 0 (fun _ => 0) fenced start (Nat.le_refl _) aligned
    (Nat.zero_le _) short) fun r m₁ pushed => ?_
  obtain ⟨touched, strings⟩ := pushed
  cases r with
  | none => exact ⟨touched, fun _ no => nomatch no⟩
  | some result =>
    obtain ⟨sp, argc, ustack⟩ := result
    obtain ⟨low, four, room, xs, strings⟩ := strings sp argc ustack rfl
    have le := strings.placed.le.1
    rw [← strings.lowest] at le
    dsimp only
    rw [wp_bind]
    refine wp_of_run (setUstack_run (by omega)) ?_
    rw [wp_bind]
    refine wp_of_run (setUstack_run (by decide)) ?_
    rw [wp_bind]
    refine wp_of_run (setUstack_run (by decide)) ?_
    rw [wp_bind]
    refine wp_of_run (setUstack_run (by decide)) ?_
    generalize words : update (update (update (update ustack (3 + argc) 0) 0 0xffffffff) 1
      (UInt32.ofNat argc)) 2 (UInt32.ofNat (sp + 2 ^ 32 - (argc + 1) * 4)) = u
    have room' : argc ≤ 32 := room
    have below_sp : 4 * (4 + argc) ≤ sp := by
      simp only [pgsize] at low
      omega
    have top : sp < 2 ^ 32 := Nat.lt_of_le_of_lt (Nat.le_trans le limit) (by decide)
    have size : (3 + argc + 1) * 4 = 4 * (4 + argc) := by omega
    have exactly : below sp (4 * (4 + argc)) = sp - 4 * (4 + argc) := by
      rw [below_eq below_sp top]
      omega
    have address : (sp + 2 ^ 32 - 4 * (4 + argc)) % 2 ^ 32 = below sp (4 * (4 + argc)) := by
      rw [exactly]
      omega
    have small : 4 * (4 + argc) ≤ kernbase := Nat.le_trans below_sp (Nat.le_trans le limit)
    rw [size, address, wp_bind]
    refine wp_mono (push_spec (fenced.touched touched) low le (by omega) small)
      (fun ok m₂ pushed => ?_) fun e stopped => absurd stopped.2 (Nat.not_lt.mpr below_sp)
    obtain ⟨touched₂, written⟩ := pushed
    cases ok with
    | false => exact ⟨touched.trans touched₂, fun _ no => nomatch no⟩
    | true =>
      obtain ⟨low₂, -, bytes⟩ := written rfl
      refine ⟨touched.trans touched₂, fun sp' done => ?_⟩
      obtain rfl := Option.some.inj done
      have count : argc = argv.length := by rw [strings.count, Nat.zero_add]
      refine ⟨argStack_of_words strings (by omega) limit count words exactly below_sp (by omega)
        bytes, fun a low' => ?_⟩
      rw [bytes a (by omega), if_neg (by omega), strings.others a (by omega) (.inl (by omega))]

end BasicOS.Vm
