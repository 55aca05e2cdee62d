/-
# BasicOS.User.FreeList — free and malloc on any free list

`FreeList s nodes`: the pointers lead from each node to the next higher one and from the
highest to the lowest, and no node is in the way of another.  Nothing is said about `base`;
a list of the program has it as its lowest node, of size zero.

`free` puts a block into its gap and joins it with the neighbours that it touches
(`FreeList.free`), and the step of `malloc` that takes a block out leaves such a list too
(`FreeList.take`).  Both go wrong on a list of one node: `free` with a block that ends at
that node, and `malloc` when the node is what it takes (`one_node_breaks`).
-/
import BasicOS.Lib.Cycle
import BasicOS.User.Umalloc

namespace BasicOS.Umalloc

open Lib Function

set_option autoImplicit false

/-- What a node takes up: its header, at least. -/
def Heap.extent (s : Heap) (x : Nat) : Nat :=
  max 8 (8 * s.size x)

structure FreeList (s : Heap) (nodes : Finset Nat) : Prop where
  cyclic : Cyclic nodes s.ptr
  apart : ∀ x ∈ nodes, ∀ y ∈ nodes, x < y → x + s.extent x ≤ y
  below : ∀ x ∈ nodes, x + s.extent x ≤ kernbase

/-- No block ends where another begins. -/
def Coalesced (s : Heap) (nodes : Finset Nat) : Prop :=
  ∀ x ∈ nodes, ∀ y ∈ nodes, x ≠ y → x + 8 * s.size x ≠ y

/-- The byte at `w` is free memory. -/
def Covers (s : Heap) (nodes : Finset Nat) (w : Nat) : Prop :=
  ∃ x ∈ nodes, x ≤ w ∧ w < x + 8 * s.size x

section

variable {s s' t u : Heap} {nodes : Finset Nat} {a b p x y v w bp n : Nat}

theorem size_setSize_self : (s.setSize p v).size p = v :=
  update_self _ _ _

theorem size_setSize_of_ne (other : x ≠ p) : (s.setSize p v).size x = s.size x :=
  update_of_ne (by omega) _ _

theorem plus_eq (inside : p + 8 * n < 2 ^ 32) : plus p n = p + 8 * n :=
  Nat.mod_eq_of_lt inside

theorem extent_pos (s : Heap) (x : Nat) : 8 ≤ s.extent x ∧ 8 * s.size x ≤ s.extent x :=
  ⟨Nat.le_max_left _ _, Nat.le_max_right _ _⟩

theorem extent_congr (size : s'.size x = s.size x) : s'.extent x = s.extent x := by
  rw [Heap.extent, size, Heap.extent]

theorem extent_eq (pos : 0 < s.size x) : s.extent x = 8 * s.size x :=
  Nat.max_eq_right (by omega)

theorem covers_congr (size : ∀ x ∈ nodes, s'.size x = s.size x) :
    Covers s' nodes w ↔ Covers s nodes w := by
  refine exists_congr fun x => and_congr_right fun hx => ?_
  rw [size x hx]

theorem covers_insert : Covers s (insert bp nodes) w ↔
    Covers s nodes w ∨ bp ≤ w ∧ w < bp + 8 * s.size bp := by
  unfold Covers
  rw [Finset.exists_mem_insert]
  exact Or.comm

theorem FreeList.congr (list : FreeList s nodes) (ptr : ∀ x ∈ nodes, s'.ptr x = s.ptr x)
    (size : ∀ x ∈ nodes, s'.size x = s.size x) : FreeList s' nodes := by
  refine ⟨fun x hx => ?_, fun x hx => ?_, fun x hx => ?_⟩
  · rw [ptr x hx]
    exact list.cyclic x hx
  · rw [extent_congr (size x hx)]
    exact list.apart x hx
  · rw [extent_congr (size x hx)]
    exact list.below x hx

/-- The headers of two nodes are apart. -/
theorem FreeList.headers (list : FreeList s nodes) (hx : x ∈ nodes) (hy : y ∈ nodes) :
    x + 4 ≠ y := by
  have := extent_pos s x
  by_cases less : x < y
  · have := list.apart x hx y hy less
    omega
  · omega

/-- A change that writes headers and free memory only, and makes the nodes that are left of
free memory. -/
structure Edit (s s' : Heap) (nodes nodes' : Finset Nat) : Prop where
  sub : nodes' ⊆ nodes
  lowest : ∀ x ∈ nodes, s.size x = 0 → (∀ y ∈ nodes, x ≤ y) → x ∈ nodes'
  pos : ∀ x ∈ nodes', 0 < s.size x → 0 < s'.size x
  covers : ∀ w, Covers s' nodes' w → Covers s nodes w
  mem : ∀ w, (∀ x ∈ nodes, w ≠ x ∧ w ≠ x + 4) → ¬Covers s nodes w → s'.mem w = s.mem w
  live : s'.live = s.live
  brk : s'.brk = s.brk

/-- A lowest node without memory gets none. -/
theorem Edit.zero {nodes' : Finset Nat} (edit : Edit s s' nodes nodes') (hx : x ∈ nodes)
    (zero : s.size x = 0) (low : ∀ y ∈ nodes, x ≤ y) : s'.size x = 0 := by
  by_contra more
  obtain ⟨y, hy, below, above⟩ := edit.covers x ⟨x, edit.lowest x hx zero low, by omega, by omega⟩
  obtain rfl : x = y := Nat.le_antisymm (low y hy) below
  omega

theorem Edit.trans {nodes' nodes'' : Finset Nat} (first : Edit s t nodes nodes')
    (second : Edit t u nodes' nodes'') : Edit s u nodes nodes'' where
  sub := second.sub.trans first.sub
  lowest x hx zero low :=
    second.lowest x (first.lowest x hx zero low) (first.zero hx zero low)
      fun y hy => low y (first.sub hy)
  pos x hx := second.pos x hx ∘ first.pos x (second.sub hx)
  covers w := first.covers w ∘ second.covers w
  mem w away out := by
    rw [second.mem w (fun x hx => away x (first.sub hx)) fun owned => out (first.covers w owned)]
    exact first.mem w away out
  live := second.live.trans first.live
  brk := second.brk.trans first.brk

/-! ## Linking in -/

/-- A block that `free` may be called with. -/
structure Released (s : Heap) (nodes : Finset Nat) (bp : Nat) : Prop where
  pos : 0 < s.size bp
  below : bp + 8 * s.size bp ≤ kernbase
  clear : ∀ x ∈ nodes, bp + 8 * s.size bp ≤ x ∨ x + s.extent x ≤ bp

theorem Released.fresh (block : Released s nodes bp) : bp ∉ nodes := by
  intro mem
  have := block.clear bp mem
  have := block.pos
  have := extent_pos s bp
  omega

/-- The search of `free` finds the gap. -/
theorem FreeList.seek (list : FreeList s nodes) (freep : s.freep ∈ nodes) (fresh : bp ∉ nodes) :
    ∃ p ∈ nodes, Gap s.ptr bp p ∧ Lib.seek s.ptr (stops s bp) limit s.freep = some p := by
  refine list.cyclic.seek_gap fresh freep (c := kernbase - 8) (fun x => ?_) (fun x hx => ?_) ?_
  · simp only [stops, Gap, Bool.or_eq_true, Bool.and_eq_true, decide_eq_true_eq]
  · have := list.below x hx
    have := extent_pos s x
    omega
  · decide

section Link

variable (list : FreeList s nodes) (block : Released s nodes bp) (hp : p ∈ nodes)

include list block hp

theorem size_linked (hx : x ∈ insert bp nodes) :
    ((s.setPtr bp (s.ptr p)).setPtr p bp).size x = s.size x := by
  have pos := block.pos
  have header : ∀ y ∈ nodes, bp + 8 ≤ y ∨ y + 8 ≤ bp := by
    intro y hy
    have := block.clear y hy
    have := extent_pos s y
    omega
  have away : x + 4 ≠ bp ∧ x + 4 ≠ p := by
    rcases Finset.mem_insert.mp hx with rfl | old
    · have := header p hp
      omega
    · have := header x old
      exact ⟨by omega, list.headers old hp⟩
  exact (update_of_ne away.2 _ _).trans (update_of_ne away.1 _ _)

/-- The block is put into its gap. -/
theorem FreeList.link (gap : Gap s.ptr bp p) :
    FreeList ((s.setPtr bp (s.ptr p)).setPtr p bp) (insert bp nodes) := by
  have size := fun x => size_linked (x := x) list block hp
  have own := extent_eq block.pos
  refine ⟨list.cyclic.insert block.fresh hp gap, fun x hx y hy less => ?_, fun x hx => ?_⟩
  · rw [extent_congr (size x hx)]
    rcases Finset.mem_insert.mp hx with rfl | old
    · rcases Finset.mem_insert.mp hy with rfl | old'
      · exact absurd less (Nat.lt_irrefl _)
      · have := block.clear y old'
        have := extent_pos s y
        omega
    · rcases Finset.mem_insert.mp hy with rfl | old'
      · have := block.clear x old
        omega
      · exact list.apart x old y old' less
  · rw [extent_congr (size x hx)]
    rcases Finset.mem_insert.mp hx with rfl | hx
    · rw [own]
      exact block.below
    · exact list.below x hx

theorem covers_linked :
    Covers ((s.setPtr bp (s.ptr p)).setPtr p bp) (insert bp nodes) w ↔
      Covers s (insert bp nodes) w :=
  covers_congr fun _ => size_linked list block hp

/-- The block can touch its neighbours only. -/
theorem touch_linked (gap : Gap s.ptr bp p) (joined : Coalesced s nodes)
    (hx : x ∈ insert bp nodes) (hy : y ∈ insert bp nodes) (other : x ≠ y)
    (touch : x + 8 * ((s.setPtr bp (s.ptr p)).setPtr p bp).size x = y) :
    x = p ∧ y = bp ∨ x = bp ∧ y = s.ptr p := by
  rw [size_linked list block hp hx] at touch
  unfold Gap at gap
  have pos := block.pos
  obtain ⟨mem, order⟩ := list.cyclic p hp
  rcases Finset.mem_insert.mp hx with rfl | old
  · rcases Finset.mem_insert.mp hy with rfl | old'
    · exact absurd rfl other
    · right
      refine ⟨rfl, ?_⟩
      have := block.clear _ mem
      have := extent_pos s (s.ptr p)
      rcases order with ⟨above, near⟩ | around
      · have := near y old'
        omega
      · have := around y old'
        omega
  · rcases Finset.mem_insert.mp hy with rfl | old'
    · left
      refine ⟨?_, rfl⟩
      have := block.clear p hp
      have := extent_pos s p
      by_cases same : x = p
      · exact same
      rcases order with ⟨above, near⟩ | around
      · have := near x old
        have := list.apart x old p hp
        have := extent_pos s x
        omega
      · have := around x old
        have := list.apart x old p hp
        have := extent_pos s x
        omega
    · exact absurd touch (joined x old y old' other)

end Link

/-! ## Joining -/

section Merge

variable (list : FreeList s nodes) (ha : a ∈ nodes)

include list ha

theorem size_merged (hx : x ∈ nodes) :
    ((s.setSize a (s.size a + s.size (s.ptr a))).setPtr a (s.ptr (s.ptr a))).size x =
      if x = a then s.size a + s.size (s.ptr a) else s.size x := by
  refine (update_of_ne (list.headers hx ha) _ _).trans ?_
  by_cases same : x = a
  · rw [if_pos same, same]
    exact size_setSize_self
  · rw [if_neg same]
    exact size_setSize_of_ne same

variable (touch : a + 8 * s.size a = s.ptr a)

include touch

/-- The joined block touches what the second one did. -/
theorem touch_merged (hx : x ∈ nodes.erase (s.ptr a))
    (touches : x + 8 * ((s.setSize a (s.size a + s.size (s.ptr a))).setPtr a
      (s.ptr (s.ptr a))).size x = y) :
    x ≠ a ∧ x + 8 * s.size x = y ∨ x = a ∧ s.ptr a + 8 * s.size (s.ptr a) = y := by
  rw [size_merged list ha (Finset.mem_of_mem_erase hx)] at touches
  by_cases same : x = a
  · rw [if_pos same] at touches
    exact .inr ⟨same, by omega⟩
  · rw [if_neg same] at touches
    exact .inl ⟨same, touches⟩

variable (other : s.ptr a ≠ a)

include other

/-- Two blocks that touch become one. -/
theorem FreeList.merge :
    FreeList ((s.setSize a (s.size a + s.size (s.ptr a))).setPtr a (s.ptr (s.ptr a)))
      (nodes.erase (s.ptr a)) := by
  have size := fun x => size_merged (x := x) list ha
  obtain ⟨hb, order⟩ := list.cyclic a ha
  have above : a < s.ptr a := by omega
  have near : ∀ y ∈ nodes, y ≤ a ∨ s.ptr a ≤ y := by
    rcases order with ⟨-, near⟩ | around
    · exact near
    · have := around a ha
      omega
  have pos : 0 < s.size a := by omega
  have large := extent_pos s (s.ptr a)
  have extent : ∀ x ∈ nodes, x + ((s.setSize a (s.size a + s.size (s.ptr a))).setPtr a
      (s.ptr (s.ptr a))).extent x ≤
      if x = a then s.ptr a + s.extent (s.ptr a) else x + s.extent x := by
    intro x hx
    rw [Heap.extent, size x hx]
    by_cases same : x = a
    · rw [if_pos same, if_pos same, same, Nat.max_eq_right (by omega)]
      omega
    · rw [if_neg same, if_neg same]
      exact Nat.le_refl _
  refine ⟨?_, fun x hx y hy less => ?_, fun x hx => ?_⟩
  · have ptr : ∀ x ∈ nodes, (s.setSize a (s.size a + s.size (s.ptr a))).ptr x = s.ptr x :=
      fun x hx => update_of_ne (list.headers ha hx).symm _ _
    have out := list.cyclic.erase ha other
    intro x hx
    have old := Finset.mem_of_mem_erase hx
    have same : ((s.setSize a (s.size a + s.size (s.ptr a))).setPtr a (s.ptr (s.ptr a))).ptr x =
        update s.ptr a (s.ptr (s.ptr a)) x := by
      show update (s.setSize a _).mem a _ x = _
      by_cases here : x = a
      · rw [here, update_self, update_self]
      · rw [update_of_ne here, update_of_ne here]
        exact ptr x old
    rw [same]
    exact out x hx
  · obtain ⟨awayX, hx⟩ := Finset.mem_erase.mp hx
    obtain ⟨awayY, hy⟩ := Finset.mem_erase.mp hy
    refine Nat.le_trans (extent x hx) ?_
    by_cases same : x = a
    · rw [if_pos same]
      have := near y hy
      exact list.apart _ hb y hy (by omega)
    · rw [if_neg same]
      exact list.apart x hx y hy less
  · obtain ⟨awayX, hx⟩ := Finset.mem_erase.mp hx
    refine Nat.le_trans (extent x hx) ?_
    by_cases same : x = a
    · rw [if_pos same]
      exact list.below _ hb
    · rw [if_neg same]
      exact list.below x hx

theorem covers_merged :
    Covers ((s.setSize a (s.size a + s.size (s.ptr a))).setPtr a (s.ptr (s.ptr a)))
      (nodes.erase (s.ptr a)) w ↔ Covers s nodes w := by
  have size := fun x => size_merged (x := x) list ha
  have hb := (list.cyclic a ha).1
  constructor
  · rintro ⟨x, hx, low, high⟩
    have old := Finset.mem_of_mem_erase hx
    rw [size x old] at high
    by_cases same : x = a
    · rw [if_pos same] at high
      by_cases first : w < s.ptr a
      · exact ⟨a, ha, by omega, by omega⟩
      · exact ⟨s.ptr a, hb, by omega, by omega⟩
    · rw [if_neg same] at high
      exact ⟨x, old, low, high⟩
  · rintro ⟨x, hx, low, high⟩
    by_cases second : x = s.ptr a
    · refine ⟨a, Finset.mem_erase.mpr ⟨other.symm, ha⟩, by omega, ?_⟩
      rw [size a ha, if_pos rfl]
      subst second
      omega
    · refine ⟨x, Finset.mem_erase.mpr ⟨second, hx⟩, low, ?_⟩
      rw [size x hx]
      split
      · subst x
        omega
      · exact high

end Merge

/-! ## free -/

theorem FreeList.of_mem (list : FreeList s nodes) (mem : s'.mem = s.mem) : FreeList s' nodes :=
  list.congr (fun x _ => by rw [Heap.ptr, mem]) fun x _ => by rw [Heap.size, mem, Heap.size]

theorem size_of_mem (mem : s'.mem = s.mem) (x : Nat) : s'.size x = s.size x := by
  rw [Heap.size, mem, Heap.size]

theorem covers_of_mem (mem : s'.mem = s.mem) : Covers s' nodes w ↔ Covers s nodes w :=
  covers_congr fun x _ => size_of_mem mem x

/-- The pointer to the block is written before or after its own header. -/
theorem update_link {m : Nat → Nat} {c q : Nat} (other : p ≠ bp) (other' : p ≠ bp + 4) :
    update (update (update (update m bp q) p bp) (bp + 4) n) bp c =
      update (update (update m (bp + 4) n) bp c) p bp := by
  funext w
  simp only [update_apply]
  split_ifs <;> omega

/-- The list while `free` is at work: the block is behind `p`, and those two are the only
neighbours that may touch. -/
structure Halfway (s : Heap) (nodes : Finset Nat) (p bp : Nat) : Prop where
  list : FreeList s nodes
  low : p ∈ nodes
  here : bp ∈ nodes
  next : s.ptr p = bp
  other : p ≠ bp
  touch : ∀ x ∈ nodes, ∀ y ∈ nodes, x ≠ y → x + 8 * s.size x = y → x = p ∧ y = bp

/-- The first half of `free`. -/
theorem FreeList.join_above (list : FreeList s nodes) (joined : Coalesced s nodes)
    (block : Released s nodes bp) (hp : p ∈ nodes) (gap : Gap s.ptr bp p)
    (more : nodes ≠ {bp + 8 * s.size bp})
    (done : t =
      if plus bp (s.size bp) = s.ptr p then
        (s.setSize bp ((s.size bp + s.size (s.ptr p)) % 2 ^ 32)).setPtr bp
          ((s.setSize bp ((s.size bp + s.size (s.ptr p)) % 2 ^ 32)).ptr
            ((s.setSize bp ((s.size bp + s.size (s.ptr p)) % 2 ^ 32)).ptr p))
      else s.setPtr bp (s.ptr p)) :
    ∃ nodes', Halfway (t.setPtr p bp) nodes' p bp ∧
      (∀ w, Covers (t.setPtr p bp) nodes' w ↔ Covers s (insert bp nodes) w) ∧
      Edit s (t.setPtr p bp) (insert bp nodes) nodes' ∧ s.size bp ≤ (t.setPtr p bp).size bp := by
  have linked := list.link block hp gap
  have covers := fun w => covers_linked (w := w) list block hp
  have touches := fun {x y : Nat} hx hy => touch_linked (x := x) (y := y) list block hp gap joined hx hy
  have size := fun x => size_linked (x := x) list block hp
  have pos := block.pos
  have below : bp + 8 * s.size bp ≤ 0x80000000 := block.below
  have fresh := block.fresh
  have other : p ≠ bp := fun same => fresh (same ▸ hp)
  rw [plus_eq (by omega)] at done
  obtain ⟨hq, order⟩ := list.cyclic p hp
  have hbp := Finset.mem_insert_self bp nodes
  have headers := linked.headers hbp (Finset.mem_insert_of_mem hp)
  by_cases touch : bp + 8 * s.size bp = s.ptr p
  · have hq' := Finset.mem_insert_of_mem (a := s.ptr p) (b := bp) hq
    have lower : bp ≠ s.ptr p := by omega
    -- the one above is not the node below
    have apart : s.ptr p ≠ p := by
      intro alone
      refine more (Finset.eq_singleton_iff_unique_mem.mpr ⟨by rwa [touch], fun y hy => ?_⟩)
      rcases order with ⟨above, -⟩ | around
      · omega
      · have := around y hy
        omega
    have small : (s.size bp + s.size (s.ptr p)) % 2 ^ 32 = s.size bp + s.size (s.ptr p) := by
      have : s.ptr p + s.extent (s.ptr p) ≤ 0x80000000 := list.below _ hq
      have := extent_pos s (s.ptr p)
      exact Nat.mod_eq_of_lt (by omega)
    have ptr_p : (s.setSize bp (s.size bp + s.size (s.ptr p))).ptr p = s.ptr p :=
      update_of_ne headers.symm _ _
    have ptr_q : (s.setSize bp (s.size bp + s.size (s.ptr p))).ptr (s.ptr p) = s.ptr (s.ptr p) :=
      update_of_ne (linked.headers hbp hq').symm _ _
    rw [if_pos touch, small, ptr_p, ptr_q] at done
    -- the list with the block linked in
    generalize shape : (s.setPtr bp (s.ptr p)).setPtr p bp = s₁ at linked covers touches size
    have next : s₁.ptr bp = s.ptr p := by
      rw [← shape]
      exact (update_of_ne other.symm _ _).trans (update_self _ _ _)
    have after : s₁.ptr (s.ptr p) = s.ptr (s.ptr p) := by
      rw [← shape]
      exact (update_of_ne apart _ _).trans (update_of_ne lower.symm _ _)
    have merged := linked.merge hbp (by rw [size bp hbp, next]; exact touch)
      (by rw [next]; exact lower.symm)
    have covers' := fun w => covers_merged (w := w) linked hbp (by rw [size bp hbp, next]; exact touch)
      (by rw [next]; exact lower.symm)
    have touches' := fun {x y : Nat} hx => touch_merged (x := x) (y := y) linked hbp
      (by rw [size bp hbp, next]; exact touch) hx
    simp only [next, after, size bp hbp, size _ hq'] at merged covers' touches'
    have same : (t.setPtr p bp).mem = ((s₁.setSize bp (s.size bp + s.size (s.ptr p))).setPtr bp
        (s.ptr (s.ptr p))).mem := by
      rw [done, ← shape]
      exact (update_link other headers.symm).symm
    have sizes : ∀ x ∈ insert bp nodes, (t.setPtr p bp).size x =
        if x = bp then s.size bp + s.size (s.ptr p) else s.size x := by
      intro x hx
      have merged := size_merged linked hbp hx
      simp only [next, after, size bp hbp, size _ hq', size x hx] at merged
      rw [size_of_mem same, merged]
    have same_covers := fun w => (covers_of_mem same).trans ((covers' w).trans (covers w))
    refine ⟨(insert bp nodes).erase (s.ptr p), ⟨merged.of_mem same,
      Finset.mem_erase.mpr ⟨apart.symm, Finset.mem_insert_of_mem hp⟩,
      Finset.mem_erase.mpr ⟨lower, hbp⟩, update_self _ _ _, other, fun x hx y hy away at_end => ?_⟩,
      same_covers, ⟨Finset.erase_subset _ _, fun x hx _ low => ?_, fun x hx old => ?_,
        fun w => (same_covers w).mp, fun w away _ => ?_, by rw [done]; rfl, by rw [done]; rfl⟩, ?_⟩
    rotate_left
    · have := low bp hbp
      exact Finset.mem_erase.mpr ⟨by omega, hx⟩
    · rw [sizes x (Finset.mem_of_mem_erase hx)]
      split <;> omega
    · obtain ⟨first, second⟩ := away bp hbp
      rw [done]
      exact (update_of_ne (away p (Finset.mem_insert_of_mem hp)).1 _ _).trans
        ((update_of_ne first _ _).trans (update_of_ne second _ _))
    · rw [sizes bp hbp, if_pos rfl]
      exact Nat.le_add_right _ _
    obtain ⟨-, hx'⟩ := Finset.mem_erase.mp hx
    obtain ⟨awayY, hy'⟩ := Finset.mem_erase.mp hy
    rw [size_of_mem same] at at_end
    rcases touches' hx at_end with ⟨apartX, old⟩ | ⟨rfl, old⟩
    · rcases touches hx' hy' away old with both | ⟨here, -⟩
      · exact both
      · exact absurd here apartX
    · -- what is above was not touched by another block
      rcases Finset.mem_insert.mp hy' with rfl | hy'
      · exact absurd rfl away
      · exact absurd old (joined _ hq y hy' awayY.symm)
  · rw [if_neg touch] at done
    subst done
    refine ⟨insert bp nodes, ⟨linked, Finset.mem_insert_of_mem hp, hbp, update_self _ _ _, other,
      fun x hx y hy apart at_end => ?_⟩, covers, ⟨subset_rfl, fun x hx _ _ => hx,
        fun x hx => (size x hx).symm ▸ id, fun w => (covers w).mp, fun w away _ => ?_, rfl, rfl⟩,
      (size bp hbp).ge⟩
    · rcases touches hx hy apart at_end with both | ⟨rfl, rfl⟩
      · exact both
      · rw [size x hx] at at_end
        exact absurd at_end touch
    · exact (update_of_ne (away p (Finset.mem_insert_of_mem hp)).1 _ _).trans
        (update_of_ne (away bp hbp).1 _ _)

/-- The second half of `free`. -/
theorem Halfway.join_below (half : Halfway (t.setPtr p bp) nodes p bp)
    (done : s' =
      if plus p (t.size p) = bp then
        (t.setSize p ((t.size p + t.size bp) % 2 ^ 32)).setPtr p
          ((t.setSize p ((t.size p + t.size bp) % 2 ^ 32)).ptr bp)
      else t.setPtr p bp) :
    ∃ nodes', FreeList s' nodes' ∧ Coalesced s' nodes' ∧ p ∈ nodes' ∧
      (∀ w, Covers s' nodes' w ↔ Covers (t.setPtr p bp) nodes w) ∧
      Edit (t.setPtr p bp) s' nodes nodes' ∧ ∃ q ∈ nodes', (t.setPtr p bp).size bp ≤ s'.size q := by
  obtain ⟨list, low, here, next, other, touch⟩ := half
  have size_p : (t.setPtr p bp).size p = t.size p := update_of_ne (list.headers low low) _ _
  have size_bp : (t.setPtr p bp).size bp = t.size bp := update_of_ne (list.headers here low) _ _
  have ptr_bp : (t.setPtr p bp).ptr bp = t.ptr bp := update_of_ne other.symm _ _
  have bound : p + (t.setPtr p bp).extent p ≤ 0x80000000 := list.below p low
  have bound' : bp + (t.setPtr p bp).extent bp ≤ 0x80000000 := list.below bp here
  have large := extent_pos (t.setPtr p bp) p
  have large' := extent_pos (t.setPtr p bp) bp
  rw [size_p] at large
  rw [size_bp] at large'
  rw [plus_eq (by omega)] at done
  by_cases touches : p + 8 * t.size p = bp
  · have small : (t.size p + t.size bp) % 2 ^ 32 = t.size p + t.size bp :=
      Nat.mod_eq_of_lt (by omega)
    have kept : (t.setSize p (t.size p + t.size bp)).ptr bp = t.ptr bp :=
      update_of_ne (list.headers low here).symm _ _
    rw [if_pos touches, small, kept] at done
    have at_end : p + 8 * (t.setPtr p bp).size p = (t.setPtr p bp).ptr p := by
      rw [size_p, next]
      exact touches
    have merged := list.merge low at_end (by rw [next]; exact other.symm)
    have covers := fun w => covers_merged (w := w) list low at_end (by rw [next]; exact other.symm)
    have touches' := fun {x y : Nat} hx => touch_merged (x := x) (y := y) list low at_end hx
    simp only [next, size_p, size_bp, ptr_bp] at merged covers touches'
    have same : s'.mem = (((t.setPtr p bp).setSize p (t.size p + t.size bp)).setPtr p
        (t.ptr bp)).mem := by
      rw [done]
      simp only [Heap.setPtr, Heap.setSize]
      rw [update_comm (by omega : p ≠ p + 4), update_idem]
    have sizes : ∀ x ∈ nodes, s'.size x =
        if x = p then t.size p + t.size bp else (t.setPtr p bp).size x := by
      intro x hx
      have merged := size_merged list low hx
      simp only [next, size_p, size_bp, ptr_bp] at merged
      rw [size_of_mem same, merged]
    have same_covers := fun w => (covers_of_mem same).trans (covers w)
    have here_p := Finset.mem_erase.mpr ⟨other, low⟩
    refine ⟨nodes.erase bp, merged.of_mem same, fun x hx y hy apart at_end => ?_, here_p,
      same_covers, ⟨Finset.erase_subset _ _, fun x hx _ lowest => ?_, fun x hx old => ?_,
        fun w => (same_covers w).mp, fun w away _ => ?_, by rw [done]; rfl, by rw [done]; rfl⟩,
      p, here_p, ?_⟩
    rotate_left
    · have := lowest p low
      exact Finset.mem_erase.mpr ⟨by omega, hx⟩
    · rw [sizes x (Finset.mem_of_mem_erase hx)]
      split
      case isTrue here =>
        rw [here, size_p] at old
        omega
      case isFalse => exact old
    · obtain ⟨first, second⟩ := away p low
      rw [same]
      exact (update_of_ne first _ _).trans (update_of_ne second _ _)
    · rw [sizes p low, if_pos rfl, size_bp]
      exact Nat.le_add_left _ _
    rw [size_of_mem same] at at_end
    obtain ⟨-, hx'⟩ := Finset.mem_erase.mp hx
    obtain ⟨away, hy'⟩ := Finset.mem_erase.mp hy
    rcases touches' hx at_end with ⟨-, old⟩ | ⟨-, old⟩
    · exact away (touch x hx' y hy' apart old).2
    · rw [← size_bp] at old
      exact other (touch bp here y hy' away.symm old).1.symm
  · rw [if_neg touches] at done
    subst done
    refine ⟨nodes, list, fun x hx y hy apart at_end => ?_, low, fun w => Iff.rfl,
      ⟨subset_rfl, fun x hx _ _ => hx, fun _ _ => id, fun _ => id, fun _ _ _ => rfl, rfl, rfl⟩,
      bp, here, Nat.le_refl _⟩
    obtain ⟨rfl, rfl⟩ := touch x hx y hy apart at_end
    rw [size_p] at at_end
    exact touches at_end

/-- `free` on any list, but for a block that ends at the only node. -/
theorem FreeList.free (list : FreeList s nodes) (joined : Coalesced s nodes)
    (freep : s.freep ∈ nodes) (block : Released s nodes bp)
    (more : nodes ≠ {bp + 8 * s.size bp}) :
    ∃ s' nodes', Umalloc.free s (bp + 8) = some s' ∧ FreeList s' nodes' ∧ Coalesced s' nodes' ∧
      s'.freep ∈ nodes' ∧ (∀ w, Covers s' nodes' w ↔ Covers s (insert bp nodes) w) ∧
      Edit s s' (insert bp nodes) nodes' ∧ ∃ q ∈ nodes', s.size bp ≤ s'.size q := by
  obtain ⟨p, hp, gap, found⟩ := list.seek freep block.fresh
  generalize first : (if plus bp (s.size bp) = s.ptr p then
      (s.setSize bp ((s.size bp + s.size (s.ptr p)) % 2 ^ 32)).setPtr bp
        ((s.setSize bp ((s.size bp + s.size (s.ptr p)) % 2 ^ 32)).ptr
          ((s.setSize bp ((s.size bp + s.size (s.ptr p)) % 2 ^ 32)).ptr p))
    else s.setPtr bp (s.ptr p)) = t
  obtain ⟨nodes₁, half, covers, edit, large⟩ := list.join_above joined block hp gap more first.symm
  generalize second : (if plus p (t.size p) = bp then
      (t.setSize p ((t.size p + t.size bp) % 2 ^ 32)).setPtr p
        ((t.setSize p ((t.size p + t.size bp) % 2 ^ 32)).ptr bp)
    else t.setPtr p bp) = u
  obtain ⟨nodes', list', joined', here, covers', edit', q, hq, large'⟩ :=
    half.join_below second.symm
  have result : Umalloc.free s (bp + 8) = some { u with freep := p } := by
    simp only [Umalloc.free, Nat.add_sub_cancel, found, Option.map_some, first, second]
  have same : ∀ w, Covers { u with freep := p } nodes' w ↔ Covers u nodes' w :=
    fun w => covers_of_mem rfl
  have same_covers := fun w => (same w).trans ((covers' w).trans (covers w))
  obtain ⟨sub, lowest, pos, -, mem, live, brk⟩ := edit.trans edit'
  exact ⟨{ u with freep := p }, nodes', result, list'.of_mem rfl, joined', here, same_covers,
    ⟨sub, lowest, pos, fun w => (same_covers w).mp, mem, live, brk⟩, q, hq,
    Nat.le_trans large large'⟩

/-! ## malloc -/

/-- What taking `n` units at `h` out of a list leaves. -/
structure TakenOut (s s' : Heap) (nodes nodes' : Finset Nat) (n h : Nat) : Prop where
  list : FreeList s' nodes'
  joined : Coalesced s' nodes'
  freep : s'.freep ∈ nodes'
  size : s'.size h = n
  covers : ∀ w, Covers s' nodes' w ↔ Covers s nodes w ∧ ¬ (h ≤ w ∧ w < h + 8 * n)

/-- A block is taken out whole. -/
theorem FreeList.takeWhole (list : FreeList s nodes) (joined : Coalesced s nodes)
    {prevp : Nat} (mem : prevp ∈ nodes) (other : s.ptr prevp ≠ prevp) :
    TakenOut s { s.setPtr prevp (s.ptr (s.ptr prevp)) with freep := prevp } nodes
      (nodes.erase (s.ptr prevp)) (s.size (s.ptr prevp)) (s.ptr prevp) := by
  have hp := (list.cyclic prevp mem).1
  have size : ∀ x ∈ nodes,
      ({ s.setPtr prevp (s.ptr (s.ptr prevp)) with freep := prevp } : Heap).size x = s.size x :=
    fun x hx => update_of_ne (list.headers hx mem) _ _
  have apart : ∀ x ∈ nodes, x ≠ s.ptr prevp → x + 8 * s.size x ≤ s.ptr prevp ∨
      s.ptr prevp + 8 * s.size (s.ptr prevp) ≤ x := by
    intro x hx away
    have := extent_pos s x
    have := extent_pos s (s.ptr prevp)
    by_cases less : x < s.ptr prevp
    · have := list.apart x hx _ hp less
      omega
    · have := list.apart _ hp x hx (by omega)
      omega
  refine ⟨⟨list.cyclic.erase mem other, ?_, ?_⟩, ?_, Finset.mem_erase.mpr ⟨other.symm, mem⟩,
    size _ hp, fun w => ⟨?_, ?_⟩⟩
  · intro x hx y hy less
    rw [extent_congr (size x (Finset.mem_of_mem_erase hx))]
    exact list.apart x (Finset.mem_of_mem_erase hx) y (Finset.mem_of_mem_erase hy) less
  · intro x hx
    rw [extent_congr (size x (Finset.mem_of_mem_erase hx))]
    exact list.below x (Finset.mem_of_mem_erase hx)
  · intro x hx y hy away
    rw [size x (Finset.mem_of_mem_erase hx)]
    exact joined x (Finset.mem_of_mem_erase hx) y (Finset.mem_of_mem_erase hy) away
  · rintro ⟨x, hx, low, high⟩
    obtain ⟨away, hx⟩ := Finset.mem_erase.mp hx
    rw [size x hx] at high
    have := apart x hx away
    exact ⟨⟨x, hx, low, high⟩, by omega⟩
  · rintro ⟨⟨x, hx, low, high⟩, out⟩
    have away : x ≠ s.ptr prevp := by
      rintro rfl
      exact out ⟨low, high⟩
    refine ⟨x, Finset.mem_erase.mpr ⟨away, hx⟩, low, ?_⟩
    rw [size x hx]
    exact high

/-- The end of a block is taken off. -/
theorem FreeList.takeEnd (list : FreeList s nodes) (joined : Coalesced s nodes)
    {prevp : Nat} (mem : prevp ∈ nodes) (hp : p ∈ nodes) (pos : 0 < n) (more : n < s.size p) :
    TakenOut s { (s.setSize p (s.size p - n)).setSize (p + 8 * (s.size p - n)) n with
      freep := prevp } nodes nodes n (p + 8 * (s.size p - n)) ∧
    ∀ x ∈ nodes, 0 < s.size x →
      0 < Heap.size { (s.setSize p (s.size p - n)).setSize (p + 8 * (s.size p - n)) n with
        freep := prevp } x := by
  generalize cut : p + 8 * (s.size p - n) = h
  generalize shape : ({ (s.setSize p (s.size p - n)).setSize h n with freep := prevp } : Heap) = s'
  have own := extent_pos s p
  have apart : ∀ x ∈ nodes, x ≠ p → x + s.extent x ≤ p ∨ p + s.extent p ≤ x := by
    intro x hx away
    by_cases less : x < p
    · exact .inl (list.apart x hx p hp less)
    · exact .inr (list.apart p hp x hx (by omega))
  have away : ∀ x ∈ nodes, x ≠ h ∧ x ≠ h + 4 := by
    intro x hx
    by_cases same : x = p
    · omega
    · have := apart x hx same
      have := extent_pos s x
      omega
  have size_h : s'.size h = n := by
    rw [← shape]
    exact update_self _ _ _
  have size_p : s'.size p = s.size p - n := by
    rw [← shape]
    exact (size_setSize_of_ne (away p hp).1).trans size_setSize_self
  have size : ∀ x ∈ nodes, x ≠ p → s'.size x = s.size x := by
    intro x hx other
    rw [← shape]
    exact (size_setSize_of_ne (away x hx).1).trans (size_setSize_of_ne other)
  have ptr : ∀ x ∈ nodes, s'.ptr x = s.ptr x := by
    intro x hx
    rw [← shape]
    exact (update_of_ne (away x hx).2 _ _).trans (update_of_ne (list.headers hp hx).symm _ _)
  have shrinks : ∀ x ∈ nodes, s'.extent x ≤ s.extent x := by
    intro x hx
    by_cases same : x = p
    · subst same
      rw [Heap.extent, Heap.extent, size_p]
      omega
    · rw [extent_congr (size x hx same)]
  have freep : s'.freep = prevp := by rw [← shape]
  refine ⟨⟨⟨fun x hx => ?_, fun x hx y hy less => ?_, fun x hx => ?_⟩, fun x hx y hy other => ?_,
    by rw [freep]; exact mem, size_h, fun w => ⟨?_, ?_⟩⟩, fun x hx old => ?_⟩
  · rw [ptr x hx]
    exact list.cyclic x hx
  · have := list.apart x hx y hy less
    have := shrinks x hx
    omega
  · have := list.below x hx
    have := shrinks x hx
    omega
  · by_cases same : x = p
    · subst same
      rw [size_p]
      have := apart y hy other.symm
      have := extent_pos s y
      omega
    · rw [size x hx same]
      exact joined x hx y hy other
  · rintro ⟨x, hx, low, high⟩
    by_cases same : x = p
    · subst same
      rw [size_p] at high
      exact ⟨⟨x, hx, low, by omega⟩, by omega⟩
    · rw [size x hx same] at high
      have := apart x hx same
      have := extent_pos s x
      exact ⟨⟨x, hx, low, high⟩, by omega⟩
  · rintro ⟨⟨x, hx, low, high⟩, out⟩
    refine ⟨x, hx, low, ?_⟩
    by_cases same : x = p
    · subst same
      rw [size_p]
      omega
    · rw [size x hx same]
      exact high
  · by_cases same : x = p
    · rw [same, size_p]
      omega
    · rw [size x hx same]
      exact old

theorem units_pos (nbytes : UInt32) : 0 < units nbytes := by
  unfold units
  have bounded := ((nbytes + 8 - 1) / 8).toNat_lt
  have eighth : ((nbytes + 8 - 1) / 8).toNat = (nbytes + 8 - 1).toNat / 8 := rfl
  have one : (1 : UInt32).toNat = 1 := rfl
  have := (nbytes + 8 - 1).toNat_lt
  rw [UInt32.toNat_add, one, eighth]
  omega

/-- `malloc` takes its block out of any list, but for the only node. -/
theorem FreeList.take (list : FreeList s nodes) (joined : Coalesced s nodes) {prevp : Nat}
    (mem : prevp ∈ nodes) (pos : 0 < n) (enough : n ≤ s.size (s.ptr prevp))
    (more : nodes = {s.ptr prevp} → s.size (s.ptr prevp) ≠ n) :
    ∃ s' nodes' h, Umalloc.take s n prevp (s.ptr prevp) = (s', h + 8) ∧
      TakenOut s s' nodes nodes' n h ∧ Edit s s' nodes nodes' ∧
      ∃ k, h = s.ptr prevp + 8 * k ∧ k + n = s.size (s.ptr prevp) := by
  have hp := (list.cyclic prevp mem).1
  have bound : s.ptr prevp + s.extent (s.ptr prevp) ≤ 0x80000000 := list.below _ hp
  have large := extent_pos s (s.ptr prevp)
  unfold Umalloc.take
  by_cases exact_fit : s.size (s.ptr prevp) = n
  · have other : s.ptr prevp ≠ prevp := by
      intro alone
      refine more (Finset.eq_singleton_iff_unique_mem.mpr ⟨hp, fun y hy => ?_⟩) exact_fit
      obtain ⟨-, ⟨above, -⟩ | around⟩ := list.cyclic prevp mem
      · omega
      · have := around y hy
        omega
    have taken := list.takeWhole joined mem other
    rw [exact_fit] at taken
    refine ⟨_, _, s.ptr prevp, ?_, taken, ⟨Finset.erase_subset _ _, fun x hx zero _ => ?_,
      fun x hx old => ?_, fun w owned => ((taken.covers w).mp owned).1, fun w away _ => ?_, rfl, rfl⟩,
      0, rfl, by omega⟩
    · rw [if_pos exact_fit, plus_eq (by omega)]
    · refine Finset.mem_erase.mpr ⟨?_, hx⟩
      rintro rfl
      omega
    · have same : Heap.size { s.setPtr prevp (s.ptr (s.ptr prevp)) with freep := prevp } x =
          s.size x := update_of_ne (list.headers (Finset.mem_of_mem_erase hx) mem) _ _
      rw [same]
      exact old
    · exact update_of_ne (away prevp mem).1 _ _
  · obtain ⟨taken, pos'⟩ := list.takeEnd joined mem hp pos (by omega)
    refine ⟨_, _, _, ?_, taken, ⟨subset_rfl, fun x hx _ _ => hx, pos',
      fun w owned => ((taken.covers w).mp owned).1, fun w away out => ?_, rfl, rfl⟩,
      s.size (s.ptr prevp) - n, rfl, by omega⟩
    · rw [if_neg exact_fit]
      simp only [size_setSize_self]
      rw [plus_eq (p := s.ptr prevp) (by omega), plus_eq (by omega)]
    · have inside : w ≠ s.ptr prevp + 8 * (s.size (s.ptr prevp) - n) + 4 := by
        rintro rfl
        exact out ⟨_, hp, by omega, by omega⟩
      exact (update_of_ne inside _ _).trans (update_of_ne (away _ hp).2 _ _)

/-- **The free list stays ordered, disjoint and coalesced**, from any such list with `freep` at
any node.  `free` returns with the block added to the free memory, unless the block ends at
the only node of the list.  The step of `malloc` that takes a block returns it and leaves the rest
of the free memory, unless the block is the only node. -/
theorem free_list_kept (list : FreeList s nodes) (joined : Coalesced s nodes)
    (freep : s.freep ∈ nodes) :
    (∀ bp, Released s nodes bp → nodes ≠ {bp + 8 * s.size bp} →
      ∃ s' nodes', Umalloc.free s (bp + 8) = some s' ∧ FreeList s' nodes' ∧ Coalesced s' nodes' ∧
        s'.freep ∈ nodes' ∧
        ∀ w, Covers s' nodes' w ↔ Covers s nodes w ∨ bp ≤ w ∧ w < bp + 8 * s.size bp) ∧
    ∀ prevp ∈ nodes, ∀ nbytes, units nbytes ≤ s.size (s.ptr prevp) →
      (nodes = {s.ptr prevp} → s.size (s.ptr prevp) ≠ units nbytes) →
      ∃ s' nodes' h, Umalloc.take s (units nbytes) prevp (s.ptr prevp) = (s', h + 8) ∧
        TakenOut s s' nodes nodes' (units nbytes) h := by
  refine ⟨fun _ block more => ?_, fun _ mem nbytes enough more => ?_⟩
  · obtain ⟨s', nodes', result, list', joined', freep', covers, -⟩ :=
      list.free joined freep block more
    exact ⟨s', nodes', result, list', joined', freep', fun w => (covers w).trans covers_insert⟩
  · obtain ⟨s', nodes', h, result, taken, -⟩ := list.take joined mem (units_pos nbytes) enough more
    exact ⟨s', nodes', h, result, taken⟩

end

/-! ## Two lists -/

/-- A list of `base` and one block of two units. -/
def twoNodes : Heap where
  mem w := if w = 0x1000 then 0x3000 else if w = 0x3000 then 0x1000 else
    if w = 0x3004 then 2 else if w = 0x2ff4 then 2 else 0
  freep := 0x1000
  brk := 0x4000
  live _ := none

/-- The block below is freed and joined, and the block is taken whole. -/
theorem two_nodes_kept :
    (∃ s' nodes', Umalloc.free twoNodes (0x2ff0 + 8) = some s' ∧ FreeList s' nodes' ∧
      Coalesced s' nodes' ∧ s'.freep ∈ nodes' ∧
      ∀ w, Covers s' nodes' w ↔
        Covers twoNodes {0x1000, 0x3000} w ∨ 0x2ff0 ≤ w ∧ w < 0x2ff0 + 8 * twoNodes.size 0x2ff0) ∧
    ∃ s' nodes' h, Umalloc.take twoNodes (units 8) 0x1000 (twoNodes.ptr 0x1000) = (s', h + 8) ∧
      TakenOut twoNodes s' {0x1000, 0x3000} nodes' (units 8) h := by
  have list : FreeList twoNodes {0x1000, 0x3000} := by
    refine ⟨?_, ?_, ?_⟩
    · unfold Cyclic
      decide
    · decide
    · decide
  obtain ⟨frees, takes⟩ := free_list_kept list (by unfold Coalesced; decide) (by decide)
  refine ⟨frees 0x2ff0 ⟨by decide, by decide, by decide⟩ (by decide), ?_⟩
  exact takes 0x1000 (by decide) 8 (by decide) (by decide)

/-- A list of one block, of two units. -/
def oneNode : Heap where
  mem w := if w = 0x3000 then 0x3000 else if w = 0x3004 then 2 else if w = 0x2ff4 then 2 else 0
  freep := 0x3000
  brk := 0x4000
  live _ := none

/-- Freeing the block below the only node makes two that overlap, and `malloc` does not take
the only node off the list. -/
theorem one_node_breaks : FreeList oneNode {0x3000} ∧ Coalesced oneNode {0x3000} ∧
    oneNode.freep ∈ ({0x3000} : Finset Nat) ∧ Released oneNode {0x3000} 0x2ff0 ∧
    (∃ s', Umalloc.free oneNode (0x2ff0 + 8) = some s' ∧
      ¬ ∃ nodes', FreeList s' nodes' ∧ s'.freep ∈ nodes') ∧
    ∃ s', Umalloc.take oneNode (units 8) 0x3000 0x3000 = (s', 0x3000 + 8) ∧
      ¬ ∃ nodes', TakenOut oneNode s' {0x3000} nodes' (units 8) 0x3000 := by
  have list : FreeList oneNode {0x3000} := by
    refine ⟨?_, ?_, ?_⟩
    · unfold Cyclic
      decide
    · decide
    · decide
  refine ⟨list, by unfold Coalesced; decide, by decide, ⟨by decide, by decide, by decide⟩, ?_, ?_⟩
  · have freed : ∃ s', Umalloc.free oneNode (0x2ff0 + 8) = some s' ∧ s'.freep = 0x3000 ∧
        s'.ptr 0x3000 = 0x2ff0 ∧ s'.size 0x2ff0 = 4 := by
      have shown : (Umalloc.free oneNode (0x2ff0 + 8)).map
          (fun s' => (s'.freep, s'.ptr 0x3000, s'.size 0x2ff0)) = some (0x3000, 0x2ff0, 4) := by
        decide +kernel
      obtain ⟨s', ran, same⟩ := Option.map_eq_some_iff.mp shown
      simp only [Prod.mk.injEq] at same
      exact ⟨s', ran, same⟩
    obtain ⟨s', ran, freep, ptr, size⟩ := freed
    refine ⟨s', ran, ?_⟩
    rintro ⟨nodes', list', mem⟩
    rw [freep] at mem
    have below := (list'.cyclic 0x3000 mem).1
    rw [ptr] at below
    have apart := list'.apart 0x2ff0 below 0x3000 mem (by decide)
    have large := extent_pos s' 0x2ff0
    omega
  · refine ⟨_, rfl, ?_⟩
    rintro ⟨nodes', taken⟩
    refine ((taken.covers 0x3000).mp ⟨0x3000, taken.freep, Nat.le_refl _, ?_⟩).2 ?_
    · decide
    · decide

end BasicOS.Umalloc
