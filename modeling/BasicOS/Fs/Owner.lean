/-
# BasicOS.Fs.Owner — which inode owns which block

A file system is described by its superblock, the contents of its blocks, and
the inodes `cur`, which may be ahead of the inode blocks for the inode that is
being worked on.  `blockAt i p` is the block number at position `p` of the chain
behind inode `i`.

`Blocks` is the invariant: every block number found in a chain is a data block,
is marked in use, and is found there only.  The lemmas say what each kind of
change does to it: allocating a block, linking it, writing a data block, freeing
the head of a chain, and any change elsewhere.
-/
import BasicOS.Fs.Inode
import BasicOS.Lib.Chain
import Mathlib.Data.Finset.Card
import Mathlib.Order.Interval.Finset.Nat

namespace BasicOS

open Lib Function
open Lib.Chain (Pos addr idx Placed Fresh)

set_option autoImplicit false

/-- Data pointers per index block. -/
abbrev perIndex : Nat := nindirect - 1

/-- Word `j` of block `b`. -/
def words (store : Nat → Block) (b j : Nat) : Nat :=
  ((store b).get32 (4 * j)).toNat

namespace Superblock

variable (sb : Superblock)

/-- The number of inodes the inode blocks have room for. -/
def icap : Nat :=
  ipb * (sb.bmapstart - sb.inodestart)

/-- The first block after the free map. -/
def datastart : Nat :=
  sb.bmapstart + sb.size / bpb + 1

/-- The areas of the disk follow each other: log, inodes, free map, data. -/
structure Layout : Prop where
  boot : 2 ≤ sb.logstart
  header : 0 < sb.nlog
  log : sb.logstart + sb.nlog ≤ sb.inodestart
  inodes : sb.inodestart ≤ sb.bmapstart
  ninodes : sb.ninodes ≤ sb.icap
  data : sb.datastart ≤ sb.size
  width : sb.size < 2 ^ 32

variable {sb}

theorem Layout.iblock (layout : sb.Layout) {i : Nat} (bound : i < sb.icap) :
    sb.inodestart ≤ sb.iblock i ∧ sb.iblock i < sb.bmapstart := by
  have := layout.inodes
  simp only [icap, Superblock.iblock, ipb, bsize, dinodeSize, ndirect] at *
  omega

theorem Layout.bblock (layout : sb.Layout) {b : Nat} (bound : b < sb.size) :
    sb.bmapstart ≤ sb.bblock b ∧ sb.bblock b < sb.datastart := by
  have := layout.data
  simp only [datastart, Superblock.bblock, bpb, bsize] at *
  omega

variable (sb)

/-- The first index block of each inode. -/
def heads (cur : Nat → Dinode) (i : Nat) : Nat :=
  if i < sb.icap then ((cur i).addrs 0).toNat else 0

/-- The block number at a position of the chain behind an inode. -/
def blockAt (store : Nat → Block) (cur : Nat → Dinode) (i : Nat) (p : Pos) : Nat :=
  addr perIndex (words store) (sb.heads cur i) p

/-- The bytes of an inode, by offset; a block that is not there reads as zero. -/
def contents (store : Nat → Block) (cur : Nat → Dinode) (i o : Nat) : UInt8 :=
  if sb.blockAt store cur i (.item (o / bsize)) = 0 then 0
  else store (sb.blockAt store cur i (.item (o / bsize))) (o % bsize)

/-- A data block that is marked in use. -/
structure DataBlock (store : Nat → Block) (b : Nat) : Prop where
  low : sb.datastart ≤ b
  high : b < sb.size
  used : sb.used store b = true

end Superblock

/-- The blocks of a file system are in order. -/
structure Blocks (sb : Superblock) (store : Nat → Block) (cur : Nat → Dinode) : Prop where
  layout : sb.Layout
  super : Superblock.decode (store 1) = sb
  /-- The areas before the data blocks are marked in use. -/
  reserved : ∀ b < sb.datastart, sb.used store b = true
  placed : Placed (sb.blockAt store cur) (sb.DataBlock store)
  /-- Only the first entry of `addrs` is ever used. -/
  tail : ∀ i < sb.icap, ∀ j ≠ 0, (cur i).addrs j = 0
  free : ∀ i < sb.icap, (cur i).type = 0 → (cur i).addrs 0 = 0
  headed : ∀ i < sb.icap, (cur i).size ≠ 0 → (cur i).addrs 0 ≠ 0

section

variable {sb : Superblock} {store store' : Nat → Block} {cur : Nat → Dinode}

theorem perIndex_pos : 0 < perIndex := by decide

/-! ## Positions -/

theorem heads_update {i : Nat} (bound : i < sb.icap) (d : Dinode) :
    sb.heads (update cur i d) = update (sb.heads cur) i (d.addrs 0).toNat := by
  funext j
  by_cases same : j = i
  · subst same
    simp [Superblock.heads, bound]
  · simp [Superblock.heads, same]

/-- Only the heads matter to positions and contents. -/
theorem blockAt_heads {cur' : Nat → Dinode} (same : sb.heads cur' = sb.heads cur) :
    sb.blockAt store cur' = sb.blockAt store cur := by
  funext i p
  simp only [Superblock.blockAt, same]

theorem contents_heads {cur' : Nat → Dinode} (same : sb.heads cur' = sb.heads cur) :
    sb.contents store cur' = sb.contents store cur := by
  funext i o
  simp only [Superblock.contents, blockAt_heads same]

theorem heads_congr {cur' : Nat → Dinode} (same : ∀ i < sb.icap, cur' i = cur i) :
    sb.heads cur' = sb.heads cur := by
  funext i
  unfold Superblock.heads
  split
  · rw [same i ‹_›]
  · rfl

/-- A chain depends on its own index blocks only. -/
theorem blockAt_congr {i : Nat}
    (index : ∀ j, sb.blockAt store cur i (.index j) ≠ 0 →
      store' (sb.blockAt store cur i (.index j)) = store (sb.blockAt store cur i (.index j)))
    (p : Pos) : sb.blockAt store' cur i p = sb.blockAt store cur i p := by
  refine Chain.addr_congr perIndex_pos (fun j there k _ => ?_) p
  have same := index j there
  simp only [words]
  exact congrArg (fun data : Block => (data.get32 (4 * k)).toNat) same

section

variable (inv : Blocks sb store cur)

include inv

theorem Blocks.owned {i : Nat} {p : Pos}
    (there : sb.blockAt store cur i p ≠ 0) : sb.DataBlock store (sb.blockAt store cur i p) :=
  inv.placed.ok there

/-- The blocks of one file are distinct, so there are no more than data blocks on the disk. -/
theorem Blocks.items_le {i m : Nat}
    (there : ∀ n < m, sb.blockAt store cur i (.item n) ≠ 0) : m ≤ sb.size - sb.datastart := by
  have inside : ∀ n ∈ Finset.range m,
      sb.blockAt store cur i (.item n) ∈ Finset.Ico sb.datastart sb.size := by
    intro n mem
    have owned := inv.owned (there n (Finset.mem_range.mp mem))
    exact Finset.mem_Ico.mpr ⟨owned.low, owned.high⟩
  have distinct : Set.InjOn (fun n => sb.blockAt store cur i (.item n)) (Finset.range m) := by
    intro n mem n' _ same
    have first := there n (Finset.mem_range.mp (Finset.mem_coe.mp mem))
    exact Pos.item.inj (inv.placed.inj same first).2
  simpa using Finset.card_le_card_of_injOn _ inside distinct

/-- The invariant is about the inodes of the inode blocks. -/
theorem Blocks.congr_cur {cur' : Nat → Dinode}
    (same : ∀ i < sb.icap, cur' i = cur i) : Blocks sb store cur' := by
  refine ⟨inv.layout, inv.super, inv.reserved, ?_, fun i area => ?_, fun i area => ?_,
    fun i area => ?_⟩
  · rw [blockAt_heads (heads_congr same)]
    exact inv.placed
  · rw [same i area]
    exact inv.tail i area
  · rw [same i area]
    exact inv.free i area
  · rw [same i area]
    exact inv.headed i area

/-- Changes to blocks that are in no chain, and not in the free map. -/
theorem Blocks.frame (super : store' 1 = store 1)
    (bitmap : ∀ b < sb.size, store' (sb.bblock b) = store (sb.bblock b))
    (index : ∀ i j, sb.blockAt store cur i (.index j) ≠ 0 →
      store' (sb.blockAt store cur i (.index j)) = store (sb.blockAt store cur i (.index j))) :
    Blocks sb store' cur := by
  have used : ∀ b < sb.size, sb.used store' b = sb.used store b :=
    fun b bound => sb.used_congr store (bitmap b bound)
  have low : ∀ b < sb.datastart, b < sb.size := fun b bound =>
    Nat.lt_of_lt_of_le bound inv.layout.data
  refine ⟨inv.layout, by rw [super, inv.super], fun b bound => ?_, ?_, inv.tail, inv.free,
    inv.headed⟩
  · rw [used b (low b bound)]
    exact inv.reserved b bound
  · refine (inv.placed.congr fun i p => blockAt_congr (index i) p).mono fun i p there ok => ?_
    exact ⟨ok.low, ok.high, (used _ ok.high).trans ok.used⟩

/-! ## Allocation -/

/-- One inode is another, and perhaps the store too. -/
theorem Blocks.edit {i : Nat} {d : Dinode}
    (super : Superblock.decode (store' 1) = sb)
    (reserved : ∀ b < sb.datastart, sb.used store' b = true)
    (placed : Placed (sb.blockAt store' (update cur i d)) (sb.DataBlock store'))
    (tail : i < sb.icap → ∀ j ≠ 0, d.addrs j = 0) (free : d.type = 0 → d.addrs 0 = 0)
    (headed : d.size ≠ 0 → d.addrs 0 ≠ 0) : Blocks sb store' (update cur i d) where
  layout := inv.layout
  super := super
  reserved := reserved
  placed := placed
  tail := (forall_update_iff cur fun i d => i < sb.icap → ∀ j ≠ 0, d.addrs j = 0).mpr
    ⟨tail, fun i _ => inv.tail i⟩
  free := (forall_update_iff cur fun i d => i < sb.icap → d.type = 0 → d.addrs 0 = 0).mpr
    ⟨fun _ => free, fun i _ => inv.free i⟩
  headed := (forall_update_iff cur fun i d => i < sb.icap → d.size ≠ 0 → d.addrs 0 ≠ 0).mpr
    ⟨fun _ => headed, fun i _ => inv.headed i⟩

end

/-- A search over the first numbers finds the least one. -/
theorem findSome_range {α : Type} {f : Nat → Option α} {n : Nat} {a : α}
    (found : (List.range n).findSome? f = some a) :
    ∃ j < n, f j = some a ∧ ∀ i < j, f i = none := by
  induction n with
  | zero => cases found
  | succ n ih =>
    rw [List.range_succ, List.findSome?_append] at found
    cases earlier : (List.range n).findSome? f with
    | some x =>
      rw [earlier] at found
      obtain ⟨j, bound, here, least⟩ := ih (earlier.trans found)
      exact ⟨j, Nat.lt_succ_of_lt bound, here, least⟩
    | none =>
      rw [earlier] at found
      refine ⟨n, Nat.lt_succ_self n, by simpa using found, fun i lower => ?_⟩
      exact List.findSome?_eq_none_iff.mp earlier i (List.mem_range.mpr lower)

theorem used_mul_add {j bi : Nat} (small : bi < bpb) :
    sb.used store (j * bpb + bi) = (store (sb.bblock (j * bpb))).testBit bi := by
  have block : sb.bblock (j * bpb + bi) = sb.bblock (j * bpb) := by
    simp only [Superblock.bblock, bpb, bsize] at *
    omega
  have offset : (j * bpb + bi) % bpb = bi := by
    simp only [bpb, bsize] at *
    omega
  rw [Superblock.used, block, offset]

/-- The block `balloc` finds is the lowest free one. -/
theorem firstFree_spec {b : Nat} (found : firstFree sb store = some b) :
    b < sb.size ∧ sb.used store b = false ∧ ∀ c < b, sb.used store c = true := by
  obtain ⟨j, -, here, none_before⟩ := findSome_range found
  obtain ⟨bi, free, rfl⟩ := Option.map_eq_some_iff.mp here
  obtain ⟨test, range, least⟩ := List.find?_range_eq_some.mp free
  simp only [Bool.and_eq_true, decide_eq_true_eq, Bool.not_eq_true'] at test
  refine ⟨test.1, (used_mul_add (List.mem_range.mp range)).trans test.2, fun c lower => ?_⟩
  have rem : c % bpb < bpb := Nat.mod_lt c (by decide)
  have mine : c / bpb * bpb + c % bpb = c := by
    rw [Nat.mul_comm]
    exact Nat.div_add_mod c bpb
  have inside : c / bpb * bpb + c % bpb < sb.size := by omega
  rw [← mine, used_mul_add rem]
  -- either an earlier bitmap block, or an earlier bit of this one
  rcases Nat.lt_trichotomy (c / bpb) j with earlier | same | later
  · have none_here := none_before _ earlier
    rw [Option.map_eq_none_iff, freeBit, List.find?_eq_none] at none_here
    simpa [inside] using none_here _ (List.mem_range.mpr rem)
  · have tested := least (c % bpb) (by rw [← same] at lower; omega)
    rw [← same] at tested
    simpa [inside] using tested
  · have past : (j + 1) * bpb ≤ c / bpb * bpb := Nat.mul_le_mul_right bpb later
    have small := List.mem_range.mp range
    rw [Nat.add_mul] at past
    omega

/-- `balloc` finds a block as long as one is free. -/
theorem firstFree_isSome {b : Nat} (bound : b < sb.size) (free : sb.used store b = false) :
    ∃ c, firstFree sb store = some c := by
  cases found : firstFree sb store with
  | some c => exact ⟨c, rfl⟩
  | none =>
    have block : b / bpb < (sb.size + bpb - 1) / bpb := by
      simp only [bpb, bsize] at *
      omega
    have all := List.findSome?_eq_none_iff.mp found _ (List.mem_range.mpr block)
    rw [Option.map_eq_none_iff, freeBit, List.find?_eq_none] at all
    have rem : b % bpb < bpb := Nat.mod_lt b (by decide)
    have mine : b / bpb * bpb + b % bpb = b := by
      rw [Nat.mul_comm]
      exact Nat.div_add_mod b bpb
    have same : sb.bblock (b / bpb * bpb) = sb.bblock b := by
      simp only [Superblock.bblock, bpb, bsize] at *
      omega
    have bit := all _ (List.mem_range.mpr rem)
    rw [mine, same] at bit
    rw [Superblock.used] at free
    simp [bound, free] at bit

/-- What the store is after `balloc` returns `b`. -/
def allocated (sb : Superblock) (store : Nat → Block) (b : Nat) : Nat → Block :=
  update (update store (sb.bblock b) ((store (sb.bblock b)).setBit (b % bpb))) b fun _ => 0

/-- A free block is a data block. -/
theorem Blocks.free_data (inv : Blocks sb store cur) {b : Nat} (free : sb.used store b = false) :
    sb.datastart ≤ b := by
  by_contra low
  rw [inv.reserved b (by omega)] at free
  cases free

theorem Blocks.bblock_ne (inv : Blocks sb store cur) {b c : Nat} (bound : b < sb.size)
    (data : sb.datastart ≤ c) : c ≠ sb.bblock b := by
  have := (inv.layout.bblock bound).2
  omega

theorem Blocks.super_ne (inv : Blocks sb store cur) : 1 < sb.inodestart ∧ 1 < sb.bmapstart := by
  have := inv.layout.boot
  have := inv.layout.log
  have := inv.layout.inodes
  omega

theorem Superblock.datastart_gt (sb : Superblock) : sb.bmapstart < sb.datastart :=
  Nat.lt_succ_of_le (Nat.le_add_right _ _)

/-- A block that is marked in use, in no chain, and all zero. -/
structure Spare (sb : Superblock) (store : Nat → Block) (cur : Nat → Dinode) (b : Nat) : Prop where
  fresh : Fresh (sb.blockAt store cur) b
  data : sb.DataBlock store b
  zero : store b = fun _ => 0

theorem Spare.words_zero {b : Nat} (spare : Spare sb store cur b) (j : Nat) :
    words store b j = 0 := by
  simp [words, spare.zero]

section Alloc

variable {b : Nat}

theorem allocated_other {c : Nat} (bit : c ≠ sb.bblock b) (block : c ≠ b) :
    allocated sb store b c = store c := by
  simp [allocated, bit, block]

variable (inv : Blocks sb store cur)

include inv

theorem used_allocated (free : sb.used store b = false) {c : Nat} (inside : c < sb.size) :
    sb.used (allocated sb store b) c = (decide (c = b) || sb.used store c) := by
  rw [← sb.used_setBit store b c]
  refine sb.used_congr _ ?_
  rw [allocated, update_of_ne]
  exact (inv.bblock_ne inside (inv.free_data free)).symm

section

variable (bound : b < sb.size)

include bound

/-- A block in a chain is neither the allocated one nor in the free map. -/
theorem owned_allocated
    (free : sb.used store b = false) {c : Nat} (data : sb.DataBlock store c) :
    allocated sb store b c = store c := by
  refine allocated_other (inv.bblock_ne bound data.low) ?_
  rintro rfl
  rw [data.used] at free
  cases free

theorem blockAt_allocated
    (free : sb.used store b = false) (i : Nat) (p : Pos) :
    sb.blockAt (allocated sb store b) cur i p = sb.blockAt store cur i p :=
  blockAt_congr (fun _ there => owned_allocated inv bound free (inv.owned there)) p

/-- **Allocation**: the invariant is kept, and the new block is spare. -/
theorem Blocks.alloc
    (free : sb.used store b = false) :
    Blocks sb (allocated sb store b) cur ∧ Spare sb (allocated sb store b) cur b := by
  have low := inv.free_data free
  have start := inv.super_ne
  have used := fun {c} (inside : c < sb.size) => used_allocated inv free inside
  have same := blockAt_allocated inv bound free
  have data : ∀ {c}, sb.DataBlock store c → sb.DataBlock (allocated sb store b) c := by
    intro c ok
    exact ⟨ok.low, ok.high, by rw [used ok.high, ok.used, Bool.or_true]⟩
  refine ⟨⟨inv.layout, ?_, fun c reserved => ?_, ?_, inv.tail, inv.free, inv.headed⟩,
    ⟨⟨?_, fun i p taken => ?_⟩, ⟨low, bound, ?_⟩, ?_⟩⟩
  · have bitmap := (inv.layout.bblock bound).1
    have := sb.datastart_gt
    rw [allocated_other (by omega) (by omega), inv.super]
  · have := inv.layout.data
    rw [used (by omega), inv.reserved c reserved, Bool.or_true]
  · exact (inv.placed.congr same).mono fun i p there ok => data ok
  · have := sb.datastart_gt
    omega
  · rw [same] at taken
    have marked := (inv.owned (i := i) (p := p) (by rw [taken]; have := sb.datastart_gt; omega)).used
    rw [taken, free] at marked
    cases marked
  · rw [used bound]
    simp
  · simp [allocated]

theorem contents_allocated
    (free : sb.used store b = false) :
    sb.contents (allocated sb store b) cur = sb.contents store cur := by
  funext i o
  simp only [Superblock.contents, blockAt_allocated inv bound free]
  split
  · rfl
  · rename_i there
    rw [owned_allocated inv bound free (inv.owned there)]

theorem dinode_allocated
    (free : sb.used store b = false) {i : Nat} (area : i < sb.icap) :
    sb.dinode (allocated sb store b) i = sb.dinode store i := by
  have block := inv.layout.iblock area
  have bitmap := inv.layout.bblock bound
  have low := inv.free_data free
  have := sb.datastart_gt
  exact sb.dinode_congr store (allocated_other (by omega) (by omega))

end

end Alloc

/-! ## Growing a chain -/

/-- A zeroed block that enters a chain leaves the bytes of every inode as they
are. -/
theorem contents_insert {cur' : Nat → Dinode} {i b : Nat} {p : Pos}
    (new : ∀ i' q, sb.blockAt store' cur' i' q =
      if i' = i ∧ q = p then b else sb.blockAt store cur i' q)
    (empty : sb.blockAt store cur i p = 0) (zero : store' b = fun _ => 0)
    (same : ∀ i' n, sb.blockAt store cur i' (.item n) ≠ 0 →
      store' (sb.blockAt store cur i' (.item n)) = store (sb.blockAt store cur i' (.item n))) :
    sb.contents store' cur' = sb.contents store cur := by
  funext i' o
  simp only [Superblock.contents, new]
  by_cases here : i' = i ∧ Pos.item (o / bsize) = p
  · obtain ⟨rfl, rfl⟩ := here
    simp [empty, zero]
  · simp only [if_neg here]
    split
    · rfl
    · rename_i there
      rw [same i' _ there]

section Link

variable {i j b : Nat} {p : Pos}

/-- Storing a block number in a word of a block. -/
theorem words_put32 {c m : Nat} (width : b < 2 ^ 32) :
    words (update store c ((store c).put32 (4 * m) (UInt32.ofNat b))) =
      Chain.link (words store) c m b := by
  funext x y
  simp only [words, Chain.link]
  by_cases block : x = c
  · subst block
    by_cases word : y = m
    · subst word
      simp only [update_self, Bytes.get32_put32, UInt32.toNat_ofNat', and_self, if_true]
      exact Nat.mod_eq_of_lt width
    · simp only [update_self, word, and_false, if_false]
      rw [Bytes.get32_put32_ne (by omega)]
  · simp [block]

/-- What the store is when `b` has been linked at position `p` of inode `i`. -/
def linked (sb : Superblock) (store : Nat → Block) (cur : Nat → Dinode) (i j : Nat) (p : Pos)
    (b : Nat) : Nat → Block :=
  update store (sb.blockAt store cur i (.index j))
    ((store (sb.blockAt store cur i (.index j))).put32 (4 * p.word perIndex) (UInt32.ofNat b))

variable (inv : Blocks sb store cur)

include inv

theorem blockAt_linked (below : p.parent perIndex = some j)
    (there : sb.blockAt store cur i (.index j) ≠ 0) (empty : sb.blockAt store cur i p = 0)
    (spare : Spare sb store cur b) (i' : Nat) (q : Pos) :
    sb.blockAt (linked sb store cur i j p b) cur i' q =
      if i' = i ∧ q = p then b else sb.blockAt store cur i' q := by
  have width : b < 2 ^ 32 := Nat.lt_trans spare.data.high inv.layout.width
  unfold Superblock.blockAt linked
  rw [words_put32 width]
  exact Chain.addr_link perIndex_pos inv.placed below there empty spare.fresh
    (fun m _ => spare.words_zero m) i' q

/-- Linking a block changes no mark. -/
theorem used_linked (there : sb.blockAt store cur i (.index j) ≠ 0) {c : Nat}
    (inside : c < sb.size) :
    sb.used (linked sb store cur i j p b) c = sb.used store c := by
  refine sb.used_congr store (update_of_ne ?_ _ _)
  exact (inv.bblock_ne inside (inv.owned there).low).symm

/-- **Linking** a spare block in an index block. -/
theorem Blocks.link (below : p.parent perIndex = some j)
    (there : sb.blockAt store cur i (.index j) ≠ 0) (empty : sb.blockAt store cur i p = 0)
    (spare : Spare sb store cur b) : Blocks sb (linked sb store cur i j p b) cur := by
  have index := inv.owned there
  have start := inv.super_ne
  have := sb.datastart_gt
  have other : ∀ c, c < sb.datastart → linked sb store cur i j p b c = store c := by
    intro c low
    have := index.low
    exact update_of_ne (by omega) _ _
  have used : ∀ c < sb.size, sb.used (linked sb store cur i j p b) c = sb.used store c :=
    fun _ => used_linked inv there
  have data : ∀ {c}, sb.DataBlock store c → sb.DataBlock (linked sb store cur i j p b) c :=
    fun ok => ⟨ok.low, ok.high, (used _ ok.high).trans ok.used⟩
  refine ⟨inv.layout, by rw [other 1 (by omega), inv.super], fun c reserved => ?_, ?_, inv.tail,
    inv.free, inv.headed⟩
  · rw [used c (Nat.lt_of_lt_of_le reserved inv.layout.data)]
    exact inv.reserved c reserved
  · exact (inv.placed.insert spare.fresh spare.data
      (blockAt_linked inv below there empty spare)).mono fun _ _ _ ok => data ok

theorem contents_linked (below : p.parent perIndex = some j)
    (there : sb.blockAt store cur i (.index j) ≠ 0) (empty : sb.blockAt store cur i p = 0)
    (spare : Spare sb store cur b) :
    sb.contents (linked sb store cur i j p b) cur = sb.contents store cur := by
  refine contents_insert (blockAt_linked inv below there empty spare) empty ?_ fun i' n item => ?_
  · rw [linked, update_of_ne (fun same => spare.fresh.unused i (.index j) same.symm), spare.zero]
  · refine update_of_ne (fun same => ?_) _ _
    -- an index block is no data block
    cases (inv.placed.inj same item).2

theorem dinode_linked (there : sb.blockAt store cur i (.index j) ≠ 0) {i' : Nat}
    (area : i' < sb.icap) :
    sb.dinode (linked sb store cur i j p b) i' = sb.dinode store i' := by
  have block := inv.layout.iblock area
  have low := (inv.owned there).low
  have := sb.datastart_gt
  exact sb.dinode_congr store (update_of_ne (by omega) _ _)

end Link

section Head

variable {i b : Nat}

/-- The inode with a first index block. -/
def Dinode.withHead (d : Dinode) (b : Nat) : Dinode :=
  { d with addrs := update d.addrs 0 (UInt32.ofNat b) }

theorem withHead_toNat (d : Dinode) {b : Nat} (width : b < 2 ^ 32) :
    ((d.withHead b).addrs 0).toNat = b := by
  simp only [Dinode.withHead, update_self, UInt32.toNat_ofNat']
  exact Nat.mod_eq_of_lt width

variable (inv : Blocks sb store cur) (area : i < sb.icap) (empty : (cur i).addrs 0 = 0)
  (spare : Spare sb store cur b)

include inv area empty spare

theorem blockAt_head (i' : Nat) (q : Pos) :
    sb.blockAt store (update cur i ((cur i).withHead b)) i' q =
      if i' = i ∧ q = .index 0 then b else sb.blockAt store cur i' q := by
  have width : b < 2 ^ 32 := Nat.lt_trans spare.data.high inv.layout.width
  unfold Superblock.blockAt
  rw [heads_update area, withHead_toNat _ width]
  refine Chain.addr_head perIndex_pos ?_ (fun m _ => spare.words_zero m) i' q
  simp [Superblock.heads, area, empty]

/-- **Starting a chain** with a spare block. -/
theorem Blocks.head (typed : (cur i).type ≠ 0) :
    Blocks sb store (update cur i ((cur i).withHead b)) := by
  have width : b < 2 ^ 32 := Nat.lt_trans spare.data.high inv.layout.width
  refine inv.edit inv.super inv.reserved ?_ (fun _ j rest => ?_) (fun free => absurd free typed)
    fun _ zero => ?_
  · exact inv.placed.insert spare.fresh spare.data (blockAt_head inv area empty spare)
  · simp only [Dinode.withHead, update_of_ne rest]
    exact inv.tail i area j rest
  · have := withHead_toNat (cur i) width
    rw [zero] at this
    exact spare.fresh.ne_zero this.symm

theorem contents_head :
    sb.contents store (update cur i ((cur i).withHead b)) = sb.contents store cur := by
  refine contents_insert (blockAt_head inv area empty spare) ?_ spare.zero fun _ _ _ => rfl
  simp [Superblock.blockAt, Superblock.heads, area, empty, addr, idx]

end Head

/-! ## Data blocks -/

section Data

variable {i n : Nat} {data : Block}

/-- What the store is when data block `n` of inode `i` has been written. -/
def written (sb : Superblock) (store : Nat → Block) (cur : Nat → Dinode) (i n : Nat)
    (data : Block) : Nat → Block :=
  update store (sb.blockAt store cur i (.item n)) data

variable (inv : Blocks sb store cur)

include inv

/-- Writing a data block changes no chain. -/
theorem blockAt_written (i' : Nat) (q : Pos) :
    sb.blockAt (written sb store cur i n data) cur i' q = sb.blockAt store cur i' q := by
  refine blockAt_congr (fun j index => update_of_ne (fun same => ?_) _ _) q
  cases (inv.placed.inj same index).2

section

variable (there : sb.blockAt store cur i (.item n) ≠ 0)

include there

/-- Writing a data block changes no mark. -/
theorem used_written {c : Nat} (inside : c < sb.size) :
    sb.used (written sb store cur i n data) c = sb.used store c := by
  refine sb.used_congr store (update_of_ne ?_ _ _)
  exact (inv.bblock_ne inside (inv.owned there).low).symm

/-- **Writing** a data block. -/
theorem Blocks.write :
    Blocks sb (written sb store cur i n data) cur := by
  have low := (inv.owned there).low
  have start := inv.super_ne
  have := sb.datastart_gt
  refine inv.frame (update_of_ne (by omega) _ _) (fun b bound => ?_) fun i' j index => ?_
  · have := (inv.layout.bblock bound).2
    exact update_of_ne (by omega) _ _
  · refine update_of_ne (fun same => ?_) _ _
    cases (inv.placed.inj same index).2

/-- Writing a data block changes the bytes of that block of that inode. -/
theorem contents_written (i' o : Nat) :
    sb.contents (written sb store cur i n data) cur i' o =
      if i' = i ∧ o / bsize = n then data (o % bsize) else sb.contents store cur i' o := by
  simp only [Superblock.contents, blockAt_written inv]
  by_cases here : i' = i ∧ o / bsize = n
  · obtain ⟨rfl, rfl⟩ := here
    simp [there, written]
  · rw [if_neg here]
    split
    · rfl
    · rename_i item
      rw [written, update_of_ne]
      intro same
      obtain ⟨rfl, eq⟩ := inv.placed.inj same item
      exact here ⟨rfl, Pos.item.inj eq⟩

theorem dinode_written {i' : Nat} (area : i' < sb.icap) :
    sb.dinode (written sb store cur i n data) i' = sb.dinode store i' := by
  have block := inv.layout.iblock area
  have low := (inv.owned there).low
  have := sb.datastart_gt
  exact sb.dinode_congr store (update_of_ne (by omega) _ _)

end

end Data

/-! ## Inode blocks -/

section Inodes

variable {i : Nat} {data : Block}

variable (inv : Blocks sb store cur)

include inv

/-- A change to an inode block touches no chain, and the free map is elsewhere. -/
theorem Blocks.inode (area : i < sb.icap) :
    Blocks sb (update store (sb.iblock i) data) cur := by
  have block := inv.layout.iblock area
  have start := inv.super_ne
  have := sb.datastart_gt
  refine inv.frame (update_of_ne (by omega) _ _) (fun b bound => ?_) fun i' j index => ?_
  · have := (inv.layout.bblock bound).1
    exact update_of_ne (by omega) _ _
  · have := (inv.owned index).low
    exact update_of_ne (by omega) _ _

theorem blockAt_inode (area : i < sb.icap) (i' : Nat) (q : Pos) :
    sb.blockAt (update store (sb.iblock i) data) cur i' q = sb.blockAt store cur i' q := by
  have block := inv.layout.iblock area
  have := sb.datastart_gt
  refine blockAt_congr (fun j index => ?_) q
  have := (inv.owned index).low
  exact update_of_ne (by omega) _ _

theorem contents_inode (area : i < sb.icap) :
    sb.contents (update store (sb.iblock i) data) cur = sb.contents store cur := by
  have block := inv.layout.iblock area
  have := sb.datastart_gt
  funext i' o
  simp only [Superblock.contents, blockAt_inode inv area]
  split
  · rfl
  · rename_i there
    have := (inv.owned there).low
    rw [update_of_ne (by omega)]

/-- Fields of an inode other than its addresses may change. -/
theorem Blocks.fields {d : Dinode} (addrs : d.addrs = (cur i).addrs)
    (free : d.type = 0 → d.addrs 0 = 0) (headed : d.size ≠ 0 → d.addrs 0 ≠ 0) :
    Blocks sb store (update cur i d) := by
  have heads : sb.heads (update cur i d) = sb.heads cur := by
    funext i'
    by_cases here : i' = i
    · simp only [here, Superblock.heads, update_self, addrs]
    · simp only [Superblock.heads, update_of_ne here]
  refine inv.edit inv.super inv.reserved ?_ (fun area j rest => ?_) free headed
  · rw [blockAt_heads heads]
    exact inv.placed
  · rw [addrs]
    exact inv.tail i area j rest

end Inodes

/-! ## Freeing -/

section Free

variable {i : Nat}

/-- What the store is after `bfree b`. -/
def freed (sb : Superblock) (store : Nat → Block) (b : Nat) : Nat → Block :=
  update store (sb.bblock b) ((store (sb.bblock b)).clearBit (b % bpb))

theorem blockAt_first (area : i < sb.icap) :
    sb.blockAt store cur i (.index 0) = ((cur i).addrs 0).toNat := by
  simp [Superblock.blockAt, Superblock.heads, area, addr, idx]

variable (inv : Blocks sb store cur) (area : i < sb.icap) (there : (cur i).addrs 0 ≠ 0)

include inv area there

/-- The first index block of an inode that has one. -/
theorem Blocks.first : sb.DataBlock store ((cur i).addrs 0).toNat := by
  rw [← blockAt_first area]
  refine inv.owned ?_
  rw [blockAt_first area]
  exact fun zero => there (UInt32.toNat_inj.mp zero)

/-- The chains after the first index block of one has been freed. -/
theorem blockAt_freed {d : Dinode} (empty : ∀ j, d.addrs j = 0) (i' : Nat) (p : Pos) :
    sb.blockAt (freed sb store ((cur i).addrs 0).toNat) (update cur i d) i' p =
      if i' = i then 0 else sb.blockAt store cur i' p := by
  by_cases here : i' = i
  · subst here
    simp [Superblock.blockAt, Superblock.heads, area, empty]
  · have heads : sb.heads (update cur i d) i' = sb.heads cur i' := by
      simp [Superblock.heads, here]
    have agree : sb.blockAt (freed sb store ((cur i).addrs 0).toNat) cur i' p =
        sb.blockAt store cur i' p := by
      have bitmap := inv.layout.bblock (inv.first area there).high
      refine blockAt_congr (fun j index => ?_) p
      have := (inv.owned index).low
      exact update_of_ne (by omega) _ _
    rw [if_neg here, ← agree]
    simp only [Superblock.blockAt, heads]

theorem dinode_freed {i' : Nat} (area' : i' < sb.icap) :
    sb.dinode (freed sb store ((cur i).addrs 0).toNat) i' = sb.dinode store i' := by
  have block := inv.layout.iblock area'
  have bitmap := inv.layout.bblock (inv.first area there).high
  exact sb.dinode_congr store (update_of_ne (by omega) _ _)

/-- **Freeing** the first index block of an inode, and forgetting it. -/
theorem Blocks.freeHead {d : Dinode} (empty : ∀ j, d.addrs j = 0) (size : d.size = 0) :
    Blocks sb (freed sb store ((cur i).addrs 0).toNat) (update cur i d) := by
  have head : sb.blockAt store cur i (.index 0) = ((cur i).addrs 0).toNat := blockAt_first area
  have own := inv.first area there
  have start := inv.super_ne
  have bitmap := inv.layout.bblock own.high
  have used : ∀ c, sb.used (freed sb store ((cur i).addrs 0).toNat) c =
      (decide (c ≠ ((cur i).addrs 0).toNat) && sb.used store c) :=
    sb.used_clearBit store ((cur i).addrs 0).toNat
  have same := blockAt_freed inv area there empty
  refine inv.edit ?_ (fun c reserved => ?_) ?_ (fun _ j _ => empty j) (fun _ => empty 0)
    fun big => absurd size big
  · rw [freed, update_of_ne (by omega), inv.super]
  · have := own.low
    rw [used, inv.reserved c reserved]
    simp only [ne_eq, decide_not, Bool.and_true, Bool.not_eq_true', decide_eq_false_iff_not]
    omega
  · refine inv.placed.drop same fun i' p other index => ?_
    have ok := inv.owned index
    refine ⟨ok.low, ok.high, ?_⟩
    rw [used, ok.used]
    simp only [ne_eq, decide_not, Bool.and_true, Bool.not_eq_true', decide_eq_false_iff_not]
    rw [← head]
    exact fun eq => other (inv.placed.inj eq index).1

end Free

end

end BasicOS
