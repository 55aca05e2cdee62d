/-
# BasicOS.User.Heap — the free list of a program

`Ring L s nodes`: `base` is the lowest node of the free list, of size zero, and the other
nodes are blocks of the heap.  `Shift` says that a change writes no word of a block that is
not free, and that no word becomes free that was not before, or is new.

`free` puts a block on the list (`Ring.free`), new memory is a block above all others
(`Ring.grow`), and a block or the end of one is taken out (`Ring.take`).
-/
import BasicOS.User.FreeList

namespace BasicOS.Umalloc

open Lib Function

set_option autoImplicit false

variable {L : Layout} {s s' t : Heap} {nodes nodes' : Finset Nat} {x w bp n : Nat}

/-- A block of the heap. -/
structure Block (L : Layout) (s : Heap) (x : Nat) : Prop where
  start : L.start ≤ x
  aligned : x % 8 = 0
  pos : 0 < s.size x
  inside : x + 8 * s.size x ≤ s.brk

/-- `base`, and blocks of the heap. -/
structure Placed (L : Layout) (s : Heap) (nodes : Finset Nat) : Prop where
  base : L.base ∈ nodes
  zero : s.size L.base = 0
  blocks : ∀ x ∈ nodes, x ≠ L.base → Block L s x
  aligned : s.brk % 8 = 0
  start : L.start ≤ s.brk
  below : s.brk < kernbase

structure Ring (L : Layout) (s : Heap) (nodes : Finset Nat) : Prop extends Placed L s nodes where
  list : FreeList s nodes
  joined : Coalesced s nodes
  freep : s.freep ∈ nodes

/-- Only words of the blocks `xs` are written, and the blocks `ys` are made of them, or
of new memory. -/
structure Shift (L : Layout) (s s' : Heap) (xs ys : Finset Nat) : Prop where
  mem : ∀ w, L.start ≤ w → w < s.brk → ¬Covers s xs w → s'.mem w = s.mem w
  owns : ∀ w, w < s.brk → Covers s' ys w → Covers s xs w
  brk : s.brk ≤ s'.brk

theorem Shift.trans {s'' : Heap} {xs ys zs : Finset Nat} (first : Shift L s s' xs ys)
    (second : Shift L s' s'' ys zs) : Shift L s s'' xs zs where
  mem w start inside out := by
    have later := second.mem w start (Nat.lt_of_lt_of_le inside first.brk)
      fun owned => out (first.owns w inside owned)
    rw [later]
    exact first.mem w start inside out
  owns w inside owned :=
    first.owns w inside (second.owns w (Nat.lt_of_lt_of_le inside first.brk) owned)
  brk := Nat.le_trans first.brk second.brk

theorem Block.congr (block : Block L s x) (size : s'.size x = s.size x) (brk : s.brk ≤ s'.brk) :
    Block L s' x :=
  ⟨block.start, block.aligned, by rw [size]; exact block.pos,
    by rw [size]; exact Nat.le_trans block.inside brk⟩

theorem Block.above (block : Block L s x) : L.base < x := by
  have below := L.base_below
  have start := block.start
  omega

namespace Placed

variable (placed : Placed L s nodes)

include placed

theorem base_le (mem : x ∈ nodes) : L.base ≤ x := by
  by_cases same : x = L.base
  · exact same.ge
  · exact (placed.blocks x mem same).above.le

theorem inside (mem : x ∈ nodes) : x < s.brk ∧ x + 8 * s.size x ≤ s.brk := by
  by_cases same : x = L.base
  · have zero := placed.zero
    have below := L.base_below
    have start := placed.start
    rw [same, zero]
    omega
  · have block := placed.blocks x mem same
    have pos := block.pos
    have inside := block.inside
    omega

theorem lt_brk (owned : Covers s nodes w) : w < s.brk := by
  obtain ⟨x, mem, -, high⟩ := owned
  have := (placed.inside mem).2
  omega

/-- A header of a node is in its block, or below the heap. -/
theorem header_ne (mem : x ∈ nodes) (start : L.start ≤ w) (out : ¬Covers s nodes w) :
    w ≠ x ∧ w ≠ x + 4 := by
  by_cases same : x = L.base
  · have below := L.base_below
    omega
  · have pos := (placed.blocks x mem same).pos
    exact ⟨fun here => out ⟨x, mem, by omega, by omega⟩,
      fun here => out ⟨x, mem, by omega, by omega⟩⟩

theorem insert (block : Block L s bp) : Placed L s (insert bp nodes) where
  base := Finset.mem_insert_of_mem placed.base
  zero := placed.zero
  blocks x mem heap := by
    rcases Finset.mem_insert.mp mem with rfl | mem
    · exact block
    · exact placed.blocks x mem heap
  aligned := placed.aligned
  start := placed.start
  below := placed.below

/-- What is left of the list is placed as before. -/
theorem edit (edit : Edit s s' nodes nodes') : Placed L s' nodes' ∧ Shift L s s' nodes nodes' := by
  have zero := edit.zero placed.base placed.zero fun _ => placed.base_le
  have brk := edit.brk
  refine ⟨⟨edit.lowest _ placed.base placed.zero fun _ => placed.base_le, zero, fun x mem heap => ?_,
    ?_, ?_, ?_⟩, fun w start _ out => ?_, fun w _ => edit.covers w, brk.ge⟩
  · have old := placed.blocks x (edit.sub mem) heap
    have pos := edit.pos x mem old.pos
    have last := placed.lt_brk (edit.covers (x + 8 * s'.size x - 1) ⟨x, mem, by omega, by omega⟩)
    exact ⟨old.start, old.aligned, pos, by omega⟩
  · rw [brk]
    exact placed.aligned
  · rw [brk]
    exact placed.start
  · rw [brk]
    exact placed.below
  · exact edit.mem w (fun x mem => placed.header_ne mem start out) out

end Placed

section

variable (ring : Ring L s nodes)

include ring

/-- The list is where its headers are. -/
theorem Ring.congr (ptr : ∀ x ∈ nodes, s'.ptr x = s.ptr x)
    (size : ∀ x ∈ nodes, s'.size x = s.size x) (freep : s'.freep = s.freep) (brk : s.brk ≤ s'.brk)
    (aligned : s'.brk % 8 = 0) (below : s'.brk < kernbase) : Ring L s' nodes where
  base := ring.base
  zero := (size _ ring.base).trans ring.zero
  blocks x mem heap := (ring.blocks x mem heap).congr (size x mem) brk
  aligned := aligned
  start := Nat.le_trans ring.start brk
  below := below
  list := ring.list.congr ptr size
  joined x mem := by
    rw [size x mem]
    exact ring.joined x mem
  freep := freep ▸ ring.freep

theorem Ring.relabel (live : Nat → Option Nat) :
    Ring L { s with live } nodes :=
  ring.congr (fun _ _ => rfl) (fun _ _ => rfl) rfl (Nat.le_refl _) ring.aligned ring.below

/-- A block that is apart from the list can be freed. -/
theorem Ring.released (block : Block L s bp)
    (clear : ∀ w, bp ≤ w → w < bp + 8 * s.size bp → ¬Covers s nodes w) : Released s nodes bp := by
  have pos := block.pos
  have base := L.base_below
  have start := block.start
  refine ⟨pos, Nat.le_trans block.inside ring.below.le, fun x mem => ?_⟩
  by_cases same : x = L.base
  · have small : s.extent x = 8 := by rw [same, Heap.extent, ring.zero]; rfl
    omega
  · -- neither block begins inside of the other
    have pos' := (ring.blocks x mem same).pos
    rw [extent_eq pos']
    by_contra overlap
    by_cases order : bp ≤ x
    · exact clear x order (by omega) ⟨x, mem, by omega, by omega⟩
    · exact clear bp (by omega) (by omega) ⟨x, mem, by omega, by omega⟩

/-- `free` puts a block that is apart from the list on the list. -/
theorem Ring.free (block : Block L s bp)
    (clear : ∀ w, bp ≤ w → w < bp + 8 * s.size bp → ¬Covers s nodes w) :
    ∃ s' nodes', free s (bp + 8) = some s' ∧ Ring L s' nodes' ∧
      Shift L s s' (insert bp nodes) nodes' ∧ s'.live = s.live ∧
      ∃ q ∈ nodes', s.size bp ≤ s'.size q := by
  have more : nodes ≠ {bp + 8 * s.size bp} := by
    rintro rfl
    have := Finset.mem_singleton.mp ring.base
    have := block.above
    omega
  obtain ⟨s', nodes', result, list, joined, freep, -, edit, large⟩ :=
    ring.list.free ring.joined ring.freep (ring.released block clear) more
  obtain ⟨placed, shift⟩ := (ring.insert block).edit edit
  exact ⟨s', nodes', result, ⟨placed, list, joined, freep⟩, shift, edit.live, large⟩

/-- New memory is a block above all others. -/
theorem Ring.grow (pos : 0 < n) (below : s.brk + 8 * n < kernbase)
    (grown : t = { s with brk := s.brk + 8 * n }.setSize s.brk n) :
    Ring L t nodes ∧ Block L t s.brk ∧ t.size s.brk = n ∧
      Shift L s t nodes (insert s.brk nodes) ∧
      ∀ w, s.brk ≤ w → w < s.brk + 8 * t.size s.brk → ¬Covers t nodes w := by
  have size : ∀ x ∈ nodes, t.size x = s.size x := by
    intro x mem
    rw [grown]
    exact size_setSize_of_ne (ring.inside mem).1.ne
  have size_brk : t.size s.brk = n := by
    rw [grown]
    exact size_setSize_self
  have brk : t.brk = s.brk + 8 * n := by rw [grown]; rfl
  have aligned := ring.aligned
  refine ⟨?_, ⟨ring.start, aligned, ?_, ?_⟩, size_brk, ⟨?_, ?_, ?_⟩, ?_⟩
  · refine ring.congr (fun x mem => ?_) size (by rw [grown]; rfl) (by omega) (by omega) (by omega)
    have := (ring.inside mem).1
    rw [grown]
    exact update_of_ne (by omega) _ _
  · rw [size_brk]
    exact pos
  · rw [size_brk, brk]
  · intro w _ inside _
    rw [grown]
    exact update_of_ne (by omega) _ _
  · intro w inside owned
    rcases covers_insert.mp owned with old | new
    · exact (covers_congr size).mp old
    · omega
  · omega
  · intro w low _ owned
    have := ring.lt_brk ((covers_congr size).mp owned)
    omega

end

/-- A block that `malloc` returns: of the size that was asked for, made of words of the
list, and no longer part of it. -/
structure Taken (L : Layout) (s s' : Heap) (nodes nodes' : Finset Nat) (n h : Nat) : Prop where
  ring : Ring L s' nodes'
  block : Block L s' h
  size : s'.size h = n
  shift : Shift L s s' nodes (insert h nodes')
  apart : ∀ w, h ≤ w → w < h + 8 * n → ¬Covers s' nodes' w
  live : s'.live = s.live

/-- `take`, at a node and the one behind it. -/
theorem Ring.take (ring : Ring L s nodes) {prevp : Nat} (mem : prevp ∈ nodes) (pos : 0 < n)
    (enough : n ≤ s.size (s.ptr prevp)) :
    ∃ s' nodes' h, Umalloc.take s n prevp (s.ptr prevp) = (s', h + 8) ∧
      Taken L s s' nodes nodes' n h := by
  have hp := (ring.list.cyclic prevp mem).1
  have heap : s.ptr prevp ≠ L.base := by
    intro same
    rw [same, ring.zero] at enough
    omega
  obtain ⟨s', nodes', h, result, out, edit, k, cut, whole⟩ :=
    ring.list.take ring.joined mem pos enough fun alone =>
      absurd (Finset.mem_singleton.mp (alone ▸ ring.base)).symm heap
  obtain ⟨placed, shift⟩ := ring.edit edit
  have block := ring.blocks _ hp heap
  have start := block.start
  have aligned := block.aligned
  have inside := block.inside
  have brk := edit.brk
  have size := out.size
  refine ⟨s', nodes', h, result, ⟨placed, out.list, out.joined, out.freep⟩, ⟨?_, ?_, ?_, ?_⟩, size,
    ⟨shift.mem, fun w low owned => ?_, shift.brk⟩, fun w low high owned => ?_, edit.live⟩
  · omega
  · omega
  · omega
  · omega
  · rcases covers_insert.mp owned with old | new
    · exact shift.owns w low old
    · exact ⟨_, hp, by omega, by omega⟩
  · exact ((out.covers w).mp owned).2 ⟨low, high⟩

end BasicOS.Umalloc
