/-
# BasicOS.User.Malloc — what malloc returns

`morecore` puts new memory on the free list, and the loop of `malloc` ends at a block that
is large enough.  The blocks that are live are apart from each other and from the list, and
no call writes into them.

* `malloc_contract` — all of this, as long as no request is for more than `2^31 - 16`
  bytes.
* `largest_request_gets_nothing` — `malloc(0xffffffff)` returns a block without any
  bytes: the unit computation wraps around.
-/
import BasicOS.User.Heap

namespace BasicOS.Umalloc

open Lib Function

set_option autoImplicit false

variable {L : Layout} {s s' t : Heap} {nodes : Finset Nat}

/-! ## morecore -/

/-- A request below 2 GiB is carried out or fails. -/
theorem sbrk_cases {brk n : Nat} (below : brk < kernbase) (pos : n ≠ 0) (small : n < 2 ^ 31)
    (ok : Bool) :
    sbrk brk n ok = none ∨ (sbrk brk n ok = some (brk + n) ∧ brk + n < kernbase) := by
  have below' : brk < 2 ^ 31 := below
  have exact_sum : (brk + n) % 2 ^ 32 = brk + n := Nat.mod_eq_of_lt (by omega)
  simp only [sbrk, exact_sum, if_neg pos, if_pos small]
  split
  · exact .inl rfl
  · rw [if_neg (by omega)]
    cases ok with
    | true => exact .inr ⟨rfl, by omega⟩
    | false => exact .inl rfl

theorem Ring.morecore (ring : Ring L s nodes) {n : Nat} (small : 8 * n < 2 ^ 31) (ok : Bool) :
    morecore s n ok = some none ∨ ∃ s' nodes', morecore s n ok = some (some s') ∧
      Ring L s' nodes' ∧ Shift L s s' nodes nodes' ∧ s'.live = s.live ∧
      ∃ q ∈ nodes', n ≤ s'.size q := by
  generalize rounded : (if n < 4096 then 4096 else n) = nu
  have large : 4096 ≤ nu ∧ n ≤ nu ∧ 8 * nu < 2 ^ 31 := by
    split at rounded <;> omega
  have bytes : nu * 8 % 2 ^ 32 = 8 * nu := by
    rw [Nat.mod_eq_of_lt (by omega), Nat.mul_comm]
  simp only [Umalloc.morecore, rounded, bytes]
  obtain fails | ⟨grows, below⟩ := sbrk_cases ring.below (n := 8 * nu) (by omega) (by omega) ok
  · rw [fails]
    exact .inl rfl
  · right
    obtain ⟨ring', block, size, shift, clear⟩ := ring.grow (n := nu) (by omega) below rfl
    obtain ⟨s', nodes', result, ring'', shift', live, q, mem, enough⟩ := ring'.free block clear
    have below' : s.brk + 8 * nu < 2 ^ 31 := below
    have next : plus s.brk 1 = s.brk + 8 := plus_eq (by omega)
    rw [size] at enough
    refine ⟨s', nodes', ?_, ring'', shift.trans shift', live, q, mem, by omega⟩
    simp only [grows, next, result, Option.map_some]

/-! ## The loop of malloc -/

/-- The loop passes the nodes that are too small. -/
theorem fit_walk (n : Nat) (ok : Bool) (fuel : Nat) {m prevp : Nat}
    (pass : ∀ j < m, ¬n ≤ s.size ((s.ptr)^[j] (s.ptr prevp)) ∧
      (s.ptr)^[j] (s.ptr prevp) ≠ s.freep) :
    fit n ok (fuel + m) s prevp (s.ptr prevp) =
      fit n ok fuel s ((s.ptr)^[m] prevp) ((s.ptr)^[m] (s.ptr prevp)) := by
  induction m generalizing prevp with
  | zero => rfl
  | succ m ih =>
    obtain ⟨small, other⟩ : ¬n ≤ s.size (s.ptr prevp) ∧ s.ptr prevp ≠ s.freep :=
      pass 0 (Nat.succ_pos m)
    rw [← Nat.add_assoc, fit, if_neg small, if_neg other, iterate_succ_apply, iterate_succ_apply]
    exact ih fun j early => pass (j + 1) (Nat.succ_lt_succ early)

/-- Around the list from `freep` on, the loop takes a block that is large enough, or asks
for more memory where there is none. -/
theorem Ring.fit_cases (ring : Ring L s nodes) (n : Nat) (ok : Bool) {fuel : Nat}
    (enough : 2 ^ 31 ≤ fuel) :
    (∃ prevp ∈ nodes, n ≤ s.size (s.ptr prevp) ∧
      fit n ok fuel s s.freep (s.ptr s.freep) = some (Umalloc.take s n prevp (s.ptr prevp))) ∨
    (∀ q ∈ nodes, ¬n ≤ s.size q) ∧
      ∃ more, fuel ≤ more + 2 ^ 31 ∧ fit n ok fuel s s.freep (s.ptr s.freep) =
        match Umalloc.morecore s n ok with
        | none => none
        | some none => some (s, 0)
        | some (some s) => fit n ok more s s.freep (s.ptr s.freep) := by
  have low : ∀ x ∈ nodes, x ≤ 2 ^ 31 - 1 := fun x mem =>
    Nat.le_sub_one_of_lt ((ring.inside mem).1.trans ring.below)
  obtain ⟨m, short, pass, ends⟩ :=
    ring.list.cyclic.find_around ring.freep low fun x => n ≤ s.size x
  obtain ⟨more, rfl⟩ : ∃ more, fuel = more + 1 + m := ⟨fuel - 1 - m, by omega⟩
  rw [fit_walk n ok (more + 1) pass, fit]
  rcases ends with large | ⟨back, missing⟩
  · have next : s.ptr ((s.ptr)^[m] s.freep) = (s.ptr)^[m] (s.ptr s.freep) :=
      (iterate_succ_apply' _ _ _).symm
    refine .inl ⟨_, ring.list.cyclic.iterate_mem ring.freep m, ?_, ?_⟩
    · rw [next]
      exact large
    · rw [if_pos large, next]
  · refine .inr ⟨missing, more, by omega, ?_⟩
    rw [back, if_neg (missing _ ring.freep)]
    refine (if_pos rfl).trans ?_
    cases Umalloc.morecore s n ok with
    | none => rfl
    | some core =>
      cases core with
      | none => rfl
      | some t => rfl

/-! ## The blocks that are live -/

/-- The blocks of `live` are where they should be, apart from the blocks `xs` and from each
other. -/
structure Live (L : Layout) (s : Heap) (live : Nat → Option Nat) (xs : Finset Nat) : Prop where
  fits : ∀ ap n, live ap = some n → ∃ h, ap = h + 8 ∧ Block L s h ∧ n + 8 ≤ 8 * s.size h ∧
    ∀ w, h ≤ w → w < h + 8 * s.size h → ¬Covers s xs w
  apart : ∀ h h' n n', live (h + 8) = some n → live (h' + 8) = some n' → h ≠ h' →
    ∀ w, h ≤ w → w < h + 8 * s.size h → ¬Covers s {h'} w

section Live

variable {live : Nat → Option Nat} {xs ys : Finset Nat} {n h : Nat}

section

variable (lives : Live L s live xs)

include lives

theorem Live.at (here : live (h + 8) = some n) :
    Block L s h ∧ n + 8 ≤ 8 * s.size h ∧
      ∀ w, h ≤ w → w < h + 8 * s.size h → ¬Covers s xs w := by
  obtain ⟨h', same, block, room, clear⟩ := lives.fits (h + 8) n here
  obtain rfl : h = h' := by omega
  exact ⟨block, room, clear⟩

/-- What is written for the list does not concern a live block. -/
theorem Live.untouched (shift : Shift L s s' xs ys)
    (here : live (h + 8) = some n) {w : Nat} (low : h ≤ w) (high : w < h + 8 * s.size h) :
    s'.mem w = s.mem w := by
  obtain ⟨block, -, clear⟩ := lives.at here
  have start := block.start
  have inside := block.inside
  exact shift.mem w (by omega) (by omega) (clear w low high)

theorem Live.shift (shift : Shift L s s' xs ys) :
    Live L s' live ys := by
  have size : ∀ h n, live (h + 8) = some n → s'.size h = s.size h := by
    intro h n here
    have pos := (lives.at here).1.pos
    exact lives.untouched shift here (by omega) (by omega)
  constructor
  · intro ap n here
    obtain ⟨h, rfl, block, room, clear⟩ := lives.fits ap n here
    have inside := block.inside
    refine ⟨h, rfl, block.congr (size h n here) shift.brk, by rw [size h n here]; exact room, ?_⟩
    intro w low high owned
    rw [size h n here] at high
    exact clear w low high (shift.owns w (by omega) owned)
  · intro h h' n n' here here' other w low high owned
    rw [size h n here] at high
    simp only [Covers, Finset.mem_singleton, exists_eq_left, size h' n' here'] at owned
    exact lives.apart h h' n n' here here' other w low high ⟨h', by simp, owned⟩

/-- Live blocks are where their headers and those of the list are. -/
theorem Live.congr
    (size : ∀ h n, live (h + 8) = some n → s'.size h = s.size h)
    (same : ∀ x ∈ xs, s'.size x = s.size x) (brk : s'.brk = s.brk) : Live L s' live xs := by
  constructor
  · intro ap n here
    obtain ⟨h, rfl, block, room, clear⟩ := lives.fits ap n here
    refine ⟨h, rfl, block.congr (size h n here) brk.ge, by rw [size h n here]; exact room, ?_⟩
    intro w low high ⟨x, mem, region⟩
    rw [size h n here] at high
    rw [same x mem] at region
    exact clear w low high ⟨x, mem, region⟩
  · intro h h' n n' here here' other w low high owned
    rw [size h n here] at high
    simp only [Covers, Finset.mem_singleton, exists_eq_left, size h' n' here'] at owned
    exact lives.apart h h' n n' here here' other w low high ⟨h', by simp, owned⟩

/-- A live block is about to be put on the list. -/
theorem Live.drop (here : live (h + 8) = some n) :
    Live L s (update live (h + 8) none) (insert h xs) := by
  have kept : ∀ ap m, update live (h + 8) none ap = some m → ap ≠ h + 8 ∧ live ap = some m := by
    intro ap m there
    by_cases same : ap = h + 8
    · simp [same] at there
    · exact ⟨same, by simpa [same] using there⟩
  constructor
  · intro ap m there
    obtain ⟨other, old⟩ := kept ap m there
    obtain ⟨h', rfl, block, room, clear⟩ := lives.fits ap m old
    refine ⟨h', rfl, block, room, fun w low high owned => ?_⟩
    obtain ⟨x, mem, region⟩ := owned
    rcases Finset.mem_insert.mp mem with rfl | mem
    · exact lives.apart h' x m n old here (by omega) w low high ⟨x, by simp, region⟩
    · exact clear w low high ⟨x, mem, region⟩
  · intro a b m m' ha hb
    exact lives.apart a b m m' (kept _ m ha).2 (kept _ m' hb).2

end

/-- A block is taken off the list. -/
theorem Live.add (lives : Live L s live (insert h xs)) (block : Block L s h)
    (room : n + 8 ≤ 8 * s.size h)
    (clear : ∀ w, h ≤ w → w < h + 8 * s.size h → ¬Covers s xs w) :
    live (h + 8) = none ∧ Live L s (update live (h + 8) (some n)) xs := by
  have pos := block.pos
  have fresh : live (h + 8) = none := by
    by_contra used
    obtain ⟨m, here⟩ := Option.ne_none_iff_exists'.mp used
    exact (lives.at here).2.2 h (by omega) (by omega) ⟨h, by simp, by omega, by omega⟩
  refine ⟨fresh, ?_, ?_⟩
  · intro ap m there
    by_cases same : ap = h + 8
    · subst same
      obtain rfl : n = m := by simpa using there
      exact ⟨h, rfl, block, room, clear⟩
    · rw [update_of_ne same] at there
      obtain ⟨h', rfl, block', room', clear'⟩ := lives.fits ap m there
      exact ⟨h', rfl, block', room', fun w low high owned =>
        clear' w low high (covers_insert.mpr (.inl owned))⟩
  · intro a b m m' ha hb other w low high owned
    by_cases first : a = h
    · subst first
      rw [update_of_ne (by omega)] at hb
      obtain ⟨x, mem, region⟩ := owned
      obtain rfl : x = b := by simpa using mem
      exact (lives.at hb).2.2 w region.1 region.2 ⟨a, by simp, low, high⟩
    · rw [update_of_ne (by omega)] at ha
      by_cases second : b = h
      · subst second
        obtain ⟨x, mem, region⟩ := owned
        obtain rfl : x = b := by simpa using mem
        exact (lives.at ha).2.2 w low high ⟨x, by simp, region⟩
      · rw [update_of_ne (by omega)] at hb
        exact lives.apart a b m m' ha hb other w low high owned

end Live

/-! ## Calls -/

/-- The state between calls. -/
def Inv (L : Layout) (s : Heap) : Prop :=
  (s.freep = 0 ∧ s.brk = L.start ∧ ∀ ap, s.live ap = none) ∨
    ∃ nodes, Ring L s nodes ∧ Live L s s.live nodes

/-- Words of live blocks that a call leaves alone. -/
def Leaves (s s' : Heap) (ap : Nat) : Prop :=
  ∀ n i, s.live ap = some n → 4 * i < n → s'.mem (ap + 4 * i) = s.mem (ap + 4 * i)

theorem Live.leaves {xs ys : Finset Nat} {ap : Nat} {live : Nat → Option Nat}
    (lives : Live L s live xs) (shift : Shift L s s' xs ys) (same : live ap = s.live ap) :
    Leaves s s' ap := by
  intro n i here inside
  obtain ⟨h, rfl, -, room, -⟩ := lives.fits ap n (same.trans here)
  exact lives.untouched shift (same.trans here) (by omega) (by omega)

theorem Heap.begin_ring (s : Heap) (brk : s.brk = L.start) : Ring L (s.begin L) {L.base} := by
  have below : L.start < 0x80000000 := L.below
  have base := L.base_below
  have back : (s.begin L).ptr L.base = L.base :=
    (update_of_ne (by omega) _ _).trans (update_self _ _ _)
  have zero : (s.begin L).size L.base = 0 := update_self _ _ _
  have small : (s.begin L).extent L.base = 8 := by rw [Heap.extent, zero]; rfl
  refine ⟨⟨Finset.mem_singleton_self _, zero, fun x mem heap => ?_, brk ▸ L.aligned, brk.ge,
    brk.le.trans_lt below⟩, ⟨?_, ?_, ?_⟩, ?_, Finset.mem_singleton_self _⟩
  · exact absurd (Finset.mem_singleton.mp mem) heap
  · simp [Cyclic, back]
  · simp
  · simp only [Finset.mem_singleton, forall_eq, small]
    change L.base + 8 ≤ 0x80000000
    omega
  · simp [Coalesced]

theorem units_eq {nbytes : UInt32} (small : nbytes.toNat ≤ 2 ^ 31 - 16) :
    units nbytes = (nbytes.toNat + 7) / 8 + 1 := by
  simp only [units, UInt32.toNat_add, UInt32.toNat_div, UInt32.toNat_sub, UInt32.toNat_ofNat,
    Nat.reducePow, Nat.reduceMod, Nat.reduceSub]
  omega

/-- `malloc` returns 0, or a block that it has taken off the list. -/
theorem Ring.fit (ring : Ring L s nodes) {n : Nat} (pos : 0 < n) (small : 8 * n < 2 ^ 31)
    (ok : Bool) :
    fit n ok limit s s.freep (s.ptr s.freep) = some (s, 0) ∨
      ∃ s' nodes' h, fit n ok limit s s.freep (s.ptr s.freep) = some (s', h + 8) ∧
        Taken L s s' nodes nodes' n h := by
  obtain ⟨prevp, mem, large, result⟩ | ⟨-, more, left, result⟩ :=
    ring.fit_cases n ok (by decide : 2 ^ 31 ≤ limit)
  · obtain ⟨s', nodes', h, took, taken⟩ := ring.take mem pos large
    exact .inr ⟨s', nodes', h, by rw [result, took], taken⟩
  · obtain fails | ⟨t, nodes₁, grown, ring₁, shift, live, q, mem, large⟩ := ring.morecore small ok
    · rw [fails] at result
      exact .inl result
    · right
      rw [grown] at result
      have left' : 2 ^ 32 ≤ more + 2 ^ 31 := left
      have enough : 2 ^ 31 ≤ more := by omega
      obtain ⟨prevp, mem, large, result₁⟩ | ⟨missing, -⟩ := ring₁.fit_cases n ok enough
      · obtain ⟨s', nodes', h, took, taken⟩ := ring₁.take mem pos large
        refine ⟨s', nodes', h, ?_, ?_⟩
        · exact result.trans (result₁.trans (congrArg some took))
        · exact ⟨taken.ring, taken.block, taken.size, shift.trans taken.shift, taken.apart,
            taken.live.trans live⟩
      · exact absurd large (missing q mem)

/-- At the first call the list is made. -/
theorem Inv.ready (inv : Inv L s) : ∃ t nodes, (if s.freep = 0 then s.begin L else s) = t ∧
    Ring L t nodes ∧ Live L t t.live nodes ∧ t.live = s.live ∧ ∀ ap, Leaves s t ap := by
  obtain ⟨null, brk, nothing⟩ | ⟨nodes, ring, lives⟩ := inv
  · refine ⟨s.begin L, {L.base}, if_pos null, s.begin_ring brk, ?_, rfl, ?_⟩
    · constructor
      · intro ap n here
        simp [Heap.begin, Heap.setPtr, Heap.setSize, nothing] at here
      · intro h h' n n' here
        simp [Heap.begin, Heap.setPtr, Heap.setSize, nothing] at here
    · intro ap n i here
      simp [nothing] at here
  · have used : s.freep ≠ 0 := by
      have lowest := ring.base_le ring.freep
      have pos := L.base_pos
      omega
    exact ⟨s, nodes, if_neg used, ring, lives, rfl, fun _ _ _ _ _ => rfl⟩

theorem Leaves.trans {ap : Nat} (first : Leaves s t ap) (second : Leaves t s' ap)
    (live : t.live = s.live) : Leaves s s' ap := by
  intro n i here inside
  rw [second n i (by rw [live]; exact here) inside]
  exact first n i here inside

theorem malloc_spec (inv : Inv L s) {nbytes : UInt32} (small : nbytes.toNat ≤ 2 ^ 31 - 16)
    (ok : Bool) :
    ∃ s' ap, malloc L s nbytes ok = some (s', ap) ∧ s'.live = s.live ∧
      (ap = 0 ∧ Inv L s' ∨ ap ≠ 0 ∧ s.live ap = none ∧
        Inv L { s' with live := update s'.live ap (some nbytes.toNat) }) ∧
      ∀ ap', Leaves s s' ap' := by
  obtain ⟨t, nodes, begun, ring, lives, live, leaves⟩ := inv.ready
  have count := units_eq small
  simp only [malloc, begun]
  obtain fails | ⟨s', nodes', h, result, taken⟩ :=
    ring.fit (n := units nbytes) (by omega) (by omega) ok
  · exact ⟨t, 0, fails, live, .inl ⟨rfl, .inr ⟨nodes, ring, lives⟩⟩, leaves⟩
  · have shifted := lives.shift taken.shift
    have size := taken.size
    have added := shifted.add (n := nbytes.toNat) taken.block (by omega)
      fun w low high => taken.apart w low (by omega)
    refine ⟨s', h + 8, result, taken.live.trans live, .inr ⟨by omega, ?_, ?_⟩, fun ap' => ?_⟩
    · rw [← live]
      exact added.1
    · refine .inr ⟨nodes', taken.ring.relabel _, ?_⟩
      rw [taken.live]
      exact added.2.congr (fun _ _ _ => rfl) (fun _ _ => rfl) rfl
    · exact (leaves ap').trans (lives.leaves taken.shift rfl) live

theorem free_spec (inv : Inv L s) {ap n : Nat} (here : s.live ap = some n) :
    ∃ s', free s ap = some s' ∧ s'.live = s.live ∧
      Inv L { s' with live := update s'.live ap none } ∧ ∀ ap', ap' ≠ ap → Leaves s s' ap' := by
  obtain ⟨-, -, nothing⟩ | ⟨nodes, ring, lives⟩ := inv
  · rw [nothing] at here
    cases here
  obtain ⟨h, rfl, block, -, clear⟩ := lives.fits ap n here
  obtain ⟨s', nodes', result, ring', shift, live, -⟩ := ring.free block clear
  have dropped := lives.drop here
  refine ⟨s', result, live, .inr ⟨nodes', ring'.relabel _, ?_⟩, fun ap' other => ?_⟩
  · rw [live]
    exact (dropped.shift shift).congr (fun _ _ _ => rfl) (fun _ _ => rfl) rfl
  · exact dropped.leaves shift (update_of_ne other _ _)

/-- The program writes into its own blocks. -/
theorem store_spec (inv : Inv L s) {ap n i : Nat} (here : s.live ap = some n) (inside : 4 * i < n)
    (v : Nat) : Inv L { s with mem := update s.mem (ap + 4 * i) v } := by
  obtain ⟨-, -, nothing⟩ | ⟨nodes, ring, lives⟩ := inv
  · rw [nothing] at here
    cases here
  obtain ⟨h, rfl, block, room, clear⟩ := lives.fits ap n here
  have start := block.start
  have away : ∀ x ∈ nodes, h + 8 + 4 * i ≠ x ∧ h + 8 + 4 * i ≠ x + 4 :=
    fun x mem => ring.header_ne mem (by omega) (clear _ (by omega) (by omega))
  have size : ∀ x ∈ nodes, Heap.size { s with mem := update s.mem (h + 8 + 4 * i) v } x =
      s.size x := fun x mem => update_of_ne (away x mem).2.symm _ _
  refine .inr ⟨nodes, ?_, lives.congr (fun h' n' here' => update_of_ne ?_ _ _) size rfl⟩
  · exact ring.congr (fun x mem => update_of_ne (away x mem).1.symm _ _) size rfl (Nat.le_refl _)
      ring.aligned ring.below
  · by_cases same : h' = h
    · omega
    · intro clash
      have pos := (lives.at here').1.pos
      exact lives.apart h h' n n' here here' (Ne.symm same) (h + 8 + 4 * i) (by omega) (by omega)
        ⟨h', by simp, by omega, by omega⟩

/-- The requests for which the unit computation and the argument of `sbrk` do not wrap. -/
def Small : Event → Prop
  | .malloc nbytes _ => nbytes.toNat ≤ 2 ^ 31 - 16
  | _ => True

theorem step_inv {e : Event} (inv : Inv L s) (small : Small e) (moves : step L s e = some s') :
    Inv L s' := by
  cases e with
  | malloc nbytes ok =>
    obtain ⟨t, ap, result, -, cases, -⟩ := malloc_spec inv small ok
    simp only [step, result, Option.map_some, Option.some.injEq] at moves
    subst moves
    obtain ⟨null, kept⟩ | ⟨used, -, kept⟩ := cases
    · rw [if_pos null]
      exact kept
    · rw [if_neg used]
      exact kept
  | free ap =>
    cases here : s.live ap with
    | none => simp [step, here] at moves
    | some n =>
      obtain ⟨t, result, -, kept, -⟩ := free_spec inv here
      simp only [step, here, Option.isSome_some, if_true, result, Option.map_some,
        Option.some.injEq] at moves
      subst moves
      exact kept
  | store ap i v =>
    cases here : s.live ap with
    | none => simp [step, here] at moves
    | some n =>
      simp only [step, here, Option.ite_none_right_eq_some, Option.some.injEq] at moves
      obtain ⟨inside, rfl⟩ := moves
      exact store_spec inv here inside v

/-- Where a live block lies. -/
theorem Inv.placed (inv : Inv L s) {ap n : Nat} (here : s.live ap = some n) :
    ap % 8 = 0 ∧ L.start ≤ ap ∧ ap + n ≤ s.brk ∧
      (∀ ap' n', s.live ap' = some n' → ap' ≠ ap → ap + n ≤ ap' ∨ ap' + n' ≤ ap) ∧
      ∀ k, ap + n ≤ (s.ptr)^[k] s.freep ∨ (s.ptr)^[k] s.freep + 8 ≤ ap := by
  obtain ⟨-, -, nothing⟩ | ⟨nodes, ring, lives⟩ := inv
  · rw [nothing] at here
    cases here
  obtain ⟨h, rfl, block, room, clear⟩ := lives.fits ap n here
  have aligned := block.aligned
  have start := block.start
  have inside := block.inside
  refine ⟨by omega, by omega, by omega, fun ap' n' here' other => ?_, fun k => ?_⟩
  · obtain ⟨h', rfl, block', room', -⟩ := lives.fits ap' n' here'
    -- neither block begins inside of the other
    have first : ¬(h ≤ h' ∧ h' < h + 8 * s.size h) := fun within =>
      lives.apart h h' n n' here here' (by omega) h' within.1 within.2
        ⟨h', by simp, Nat.le_refl _, by omega⟩
    have second : ¬(h' ≤ h ∧ h < h' + 8 * s.size h') := fun within =>
      lives.apart h' h n' n here' here (by omega) h within.1 within.2
        ⟨h, by simp, Nat.le_refl _, by omega⟩
    omega
  · have mem := ring.list.cyclic.iterate_mem ring.freep k
    generalize (s.ptr)^[k] s.freep = f at mem
    by_cases base : f = L.base
    · have below := L.base_below
      omega
    · have pos := (ring.blocks f mem base).pos
      have apart : ¬(h ≤ f ∧ f < h + 8 * s.size h) := fun within =>
        clear f within.1 within.2 ⟨f, mem, Nat.le_refl _, by omega⟩
      omega

/-- **The contract of malloc.**  After any calls of `malloc` and `free` and any writes of
the program into its blocks: every live block is aligned, its bytes lie in memory that
`sbrk` gave, apart from the bytes of every other live block and from every header on the
free list.  `malloc` returns, and returns 0 or a new block; `free` of a live block
returns; and neither writes a word of a block that stays live. -/
theorem malloc_contract (L : Layout) (mem : Nat → Nat) {es : List Event} {s : Heap}
    (small : ∀ e ∈ es, Small e) (reached : run (step L) (init L mem) es = some s) :
    (∀ ap n, s.live ap = some n →
      ap % 8 = 0 ∧ L.start ≤ ap ∧ ap + n ≤ s.brk ∧
        (∀ ap' n', s.live ap' = some n' → ap' ≠ ap → ap + n ≤ ap' ∨ ap' + n' ≤ ap) ∧
        ∀ k, ap + n ≤ (s.ptr)^[k] s.freep ∨ (s.ptr)^[k] s.freep + 8 ≤ ap) ∧
      (∀ nbytes ok, Small (.malloc nbytes ok) → ∃ s' ap, malloc L s nbytes ok = some (s', ap) ∧
        (ap = 0 ∨ s.live ap = none) ∧ ∀ ap', Leaves s s' ap') ∧
      ∀ ap n, s.live ap = some n → ∃ s', free s ap = some s' ∧
        ∀ ap', ap' ≠ ap → Leaves s s' ap' := by
  have inv : Inv L s := by
    refine run_invariant_along (step L) (I := Inv L) (fun _ _ _ => step_inv) ?_
      (along_of_all _ small) reached
    exact .inl ⟨rfl, rfl, fun _ => rfl⟩
  refine ⟨fun ap n here => ?_, fun nbytes ok few => ?_, fun ap n here => ?_⟩
  · exact inv.placed here
  · obtain ⟨s', ap, result, -, cases, leaves⟩ := malloc_spec inv few ok
    exact ⟨s', ap, result, cases.imp And.left fun h => h.2.1, leaves⟩
  · obtain ⟨s', result, -, -, leaves⟩ := free_spec inv here
    exact ⟨s', result, leaves⟩

/-- A small program. -/
def sample : Layout where
  base := 0x1000
  start := 0x2000
  base_pos := by decide
  base_below := by decide
  aligned := by decide
  below := by decide

/-- Two requests, a write, and a `free` of the first block. -/
def sampleCalls : List Event :=
  [.malloc 10 true, .store 40944 0 7, .malloc 20 true, .free 40944]

theorem second_block_stays : ∃ s, run (step sample) (init sample fun _ => 0) sampleCalls = some s ∧
    s.live 40912 = some 20 ∧ 40912 + 20 ≤ s.brk := by
  have ends : (run (step sample) (init sample fun _ => 0) sampleCalls).map
      (fun s => s.live 40912) = some (some 20) := by
    decide +kernel
  obtain ⟨s, reached, here⟩ := Option.map_eq_some_iff.mp ends
  have small : ∀ e ∈ sampleCalls, Small e := by
    simp [sampleCalls, Small]
  have contract := malloc_contract sample (fun _ => 0) small reached
  exact ⟨s, reached, here, (contract.1 _ _ here).2.2.1⟩

/-- `malloc(0xffffffff)` takes one unit, a header, for a block of no bytes: what it returns
is the end of the heap. -/
theorem largest_request_gets_nothing :
    ∃ s, run (step sample) (init sample fun _ => 0) [.malloc 0xffffffff true] = some s ∧
      s.live 40960 = some 0xffffffff ∧ s.brk = 40960 := by
  have ends : (run (step sample) (init sample fun _ => 0) [.malloc 0xffffffff true]).map
      (fun s => (s.live 40960, s.brk)) = some (some 0xffffffff, 40960) := by
    decide +kernel
  obtain ⟨s, reached, shown⟩ := Option.map_eq_some_iff.mp ends
  obtain ⟨here, brk⟩ := Prod.mk.inj shown
  exact ⟨s, reached, here, brk⟩

end BasicOS.Umalloc
