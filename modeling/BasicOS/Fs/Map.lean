/-
# BasicOS.Fs.Map — what bmap does

`bmap` returns the disk block of a file block, and allocates head, index blocks
and the data block where they are missing.  Two lemmas describe it:

* `bmap_there`: when the block is there, `bmap` returns it and changes nothing.
* `bmap_spec`: in any case, if it returns, the block is there, all blocks that
  were there still are, and no byte of any inode has changed.

The holder of an inode pointer `p` sees the inodes of the disk, except that its
own inode is the in-memory copy (`Kernel.cur`); `bmap` may change `addrs[0]`
there, and leaves it to the caller to write the inode back.
-/
import BasicOS.Fs.Owner

namespace BasicOS

open Lib Function
open Lib.Chain (Pos addr idx Placed Fresh OnPath)
open Lib.Prog

set_option autoImplicit false

namespace Kernel

/-! ## Fields after an update -/

section Fields

variable (k : Kernel) (b : Nat) (data : Block) (p : IPtr) (ip : Inode)

@[simp] theorem store_put : (k.put b data).store = update k.store b data := k.dev.bread_store b data
@[simp] theorem store_poke : (k.poke b data).store = update k.store b data := k.dev.bread_store b data
@[simp] theorem store_setInode : (k.setInode p ip).store = k.store := rfl
@[simp] theorem sb_put : (k.put b data).sb = k.sb := rfl
@[simp] theorem sb_poke : (k.poke b data).sb = k.sb := rfl
@[simp] theorem sb_setInode : (k.setInode p ip).sb = k.sb := rfl
@[simp] theorem icache_put : (k.put b data).icache = k.icache := rfl
@[simp] theorem icache_poke : (k.poke b data).icache = k.icache := rfl
@[simp] theorem icache_setInode : (k.setInode p ip).icache = update k.icache p ip := rfl
@[simp] theorem log_put : (k.put b data).log = k.log.logAppend b := rfl
@[simp] theorem log_poke : (k.poke b data).log = k.log := rfl
@[simp] theorem log_setInode : (k.setInode p ip).log = k.log := rfl

end Fields

/-! ## The log -/

/-- The log is idle, and holds blocks of the areas after it. -/
structure LogOk (k : Kernel) : Prop where
  start : k.log.start = k.sb.logstart
  size : k.log.size = k.sb.nlog
  idle : k.log.committing = false
  distinct : k.log.lh.Nodup
  home : ∀ b ∈ k.log.lh, k.sb.inodestart ≤ b ∧ b < k.sb.size
  fits : k.log.lh.length ≤ k.sb.nlog - 1
  short : k.log.lh.length ≤ logsize

theorem LogOk.put {k : Kernel} (ok : k.LogOk) {b : Nat} (data : Block)
    (home : k.sb.inodestart ≤ b ∧ b < k.sb.size)
    (room : k.log.Room) :
    (k.put b data).LogOk := by
  have grows := Log.length_absorb_le k.log.lh b
  have size := ok.size
  refine ⟨ok.start, ok.size, ok.idle, Log.absorb_nodup ok.distinct b, fun c mem => ?_, ?_, ?_⟩
  · rcases Log.mem_absorb.mp mem with old | rfl
    · exact ok.home c old
    · exact home
  · simp only [log_put, Log.logAppend, sb_put]
    omega
  · simp only [log_put, Log.logAppend]
    omega

end Kernel

/-- Every way to stop but the panic of `bfree`. -/
def Harmless (e : Stop) : Prop :=
  e ≠ .panic "freeing free block"

theorem logWrite_wp {k : Kernel} {b : Nat} {data : Block} {Q : Unit → Kernel → Prop}
    (ok : k.log.Room →
      1 ≤ k.log.outstanding → Q () (k.put b data)) :
    wp (logWrite b data) Q Harmless k := by
  unfold logWrite
  simp only [wp_bind, wp_get, Log.logWriteCheck]
  by_cases full : k.log.lh.length ≥ logsize ∨ k.log.lh.length ≥ k.log.size - 1
  · simp only [if_pos full, wp_throw]
    simp [Harmless]
  · by_cases outside : k.log.outstanding < 1
    · simp only [if_neg full, if_pos outside, wp_throw]
      simp [Harmless]
    · simp only [if_neg full, if_neg outside, wp_set]
      exact ok (by omega) (by omega)

/-- In a transaction with room in the log. -/
theorem logWrite_run {k : Kernel} (b : Nat) (data : Block)
    (room : k.log.Room)
    (inside : 1 ≤ k.log.outstanding) : logWrite b data k = .ok ((), k.put b data) := by
  have admitted : k.log.logWriteCheck = .ok () := by
    rw [Log.logWriteCheck, if_neg (by omega), if_neg (by omega)]
  unfold logWrite
  rw [run_get, admitted]
  rfl

theorem balloc_wp {k : Kernel} {cur : Nat → Dinode} {Q : Nat → Kernel → Prop}
    (inv : Blocks k.sb k.store cur) (log : k.LogOk)
    (ok : ∀ b k', firstFree k.sb k.store = some b → k'.sb = k.sb → k'.icache = k.icache →
      k'.store = allocated k.sb k.store b → k'.LogOk → k'.log.outstanding = k.log.outstanding →
      (∀ x ∈ k'.log.lh, x ∈ k.log.lh ∨ x = k.sb.bblock b ∨ x = b) →
      k'.dev.cache b = some (fun _ => 0) → Q b k') :
    wp balloc Q Harmless k := by
  unfold balloc bzero
  simp only [wp_bind, wp_get]
  cases found : firstFree k.sb k.store with
  | none => simp [Harmless]
  | some b =>
    obtain ⟨bound, free, -⟩ := firstFree_spec found
    have bitmap := inv.layout.bblock bound
    have low := inv.free_data free
    have order := inv.layout.inodes
    have past := k.sb.datastart_gt
    have size := inv.layout.data
    simp only [wp_bind]
    refine logWrite_wp fun room _ => logWrite_wp fun room' _ => ?_
    have first := log.put ((k.store (k.sb.bblock b)).setBit (b % bpb))
      (b := k.sb.bblock b) (by omega) room
    have second := first.put (b := b) (fun _ => 0) (by simp only [Kernel.sb_put]; omega) room'
    refine ok b _ found rfl rfl ?_ second rfl ?_ ?_
    · simp [allocated]
    · intro x mem
      simp only [Kernel.log_put, Log.logAppend, Log.mem_absorb] at mem
      tauto
    · simp [Kernel.put, Dev.store]

/-! ## The holder's view -/

namespace Kernel

/-- The inodes as the holder of `p` sees them. -/
def cur (k : Kernel) (p : IPtr) : Nat → Dinode :=
  update (k.sb.dinode k.store) (k.icache p).inum (k.icache p).dinode

/-- The block at a position of the chain of inode `i`. -/
def blk (k : Kernel) (p : IPtr) (i : Nat) (q : Pos) : Nat :=
  k.sb.blockAt k.store (k.cur p) i q

/-- The bytes of inode `i`. -/
def bytes (k : Kernel) (p : IPtr) (i : Nat) : Bytes :=
  k.sb.contents k.store (k.cur p) i

/-- The holder of `p` works on an allocated inode of a file system in order. -/
structure Working (k : Kernel) (p : IPtr) : Prop where
  blocks : Blocks k.sb k.store (k.cur p)
  log : k.LogOk
  area : (k.icache p).inum < k.sb.icap
  typed : (k.icache p).dinode.type ≠ 0

end Kernel

/-- Block `x` is new in the chain, or the bitmap block of a new one, or the index
block that holds the number of a new one. -/
def Renewed (p : IPtr) (k k' : Kernel) (x : Nat) : Prop :=
  ∃ q, k.blk p (k.icache p).inum q = 0 ∧ k'.blk p (k.icache p).inum q ≠ 0 ∧
    (x = k'.blk p (k.icache p).inum q ∨ x = k.sb.bblock (k'.blk p (k.icache p).inum q) ∨
      ∃ j, q.parent perIndex = some j ∧ x = k'.blk p (k.icache p).inum (.index j))

/-- The chain of the inode behind `p` has grown, and data blocks in `touched`
may have been written. -/
structure Extends (p : IPtr) (touched : Nat → Prop) (k k' : Kernel) : Prop where
  sb : k'.sb = k.sb
  others : ∀ q, q ≠ p → k'.icache q = k.icache q
  inode : ∃ h, k'.icache p = { k.icache p with
    dinode := { (k.icache p).dinode with addrs := update (k.icache p).dinode.addrs 0 h } }
  dinodes : ∀ i < k.sb.icap, k.sb.dinode k'.store i = k.sb.dinode k.store i
  keeps : ∀ i q, k.blk p i q ≠ 0 → k'.blk p i q = k.blk p i q
  apart : ∀ i q, i ≠ (k.icache p).inum → k'.blk p i q = k.blk p i q
  outstanding : k'.log.outstanding = k.log.outstanding
  logged : ∀ x ∈ k'.log.lh, x ∈ k.log.lh ∨ Renewed p k k' x ∨
    ∃ n, touched n ∧ x = k'.blk p (k.icache p).inum (.item n) ∧ x ≠ 0
  /-- A block that has become marked in use is in the chain. -/
  marks : ∀ b, k.sb.DataBlock k'.store b →
    k.sb.used k.store b = true ∨ ∃ q, k'.blk p (k.icache p).inum q = b

/-- A block that is there has its index block. -/
theorem Kernel.blk_index {k : Kernel} {p : IPtr} {i j : Nat} {q : Pos}
    (below : q.parent perIndex = some j) (there : k.blk p i q ≠ 0) : k.blk p i (.index j) ≠ 0 :=
  Chain.idx_of_parent below there

section Extends

variable {p : IPtr} {touched touched' : Nat → Prop} {k k' k'' : Kernel}

theorem Extends.inum (ext : Extends p touched k k') : (k'.icache p).inum = (k.icache p).inum := by
  obtain ⟨h, same⟩ := ext.inode
  rw [same]

theorem Extends.refl (p : IPtr) (touched : Nat → Prop) (k : Kernel) : Extends p touched k k where
  sb := rfl
  others _ _ := rfl
  inode := ⟨(k.icache p).dinode.addrs 0, by simp⟩
  dinodes _ _ := rfl
  keeps _ _ _ := rfl
  apart _ _ _ := rfl
  outstanding := rfl
  logged _ mem := .inl mem
  marks _ data := .inl data.used

theorem Extends.mono (ext : Extends p touched k k') (more : ∀ n, touched n → touched' n) :
    Extends p touched' k k' :=
  { ext with
    logged := fun x mem => (ext.logged x mem).imp_right (Or.imp_right fun ⟨n, here, what⟩ =>
      ⟨n, more n here, what⟩) }

/-- What was missing at the end was missing before. -/
theorem Extends.missing (ext : Extends p touched k k') {i : Nat} {q : Pos}
    (empty : k'.blk p i q = 0) : k.blk p i q = 0 := by
  by_contra there
  rw [ext.keeps i q there] at empty
  exact there empty

theorem Extends.trans (first : Extends p touched k k') (second : Extends p touched k' k'') :
    Extends p touched k k'' := by
  have inum := first.inum
  refine ⟨second.sb.trans first.sb, fun q other => ?_, ?_, fun i area => ?_, fun i q there => ?_,
    fun i q other => ?_, second.outstanding.trans first.outstanding, fun x mem => ?_,
    fun b data => ?_⟩
  · rw [second.others q other, first.others q other]
  · obtain ⟨h, same⟩ := first.inode
    obtain ⟨h', same'⟩ := second.inode
    exact ⟨h', by rw [same', same]; simp⟩
  · rw [← first.dinodes i area, ← first.sb]
    exact second.dinodes i (first.sb ▸ area)
  · have kept := first.keeps i q there
    rw [second.keeps i q (kept ▸ there), kept]
  · rw [second.apart i q (inum ▸ other), first.apart i q other]
  · rcases second.logged x mem with old | ⟨q, before, after, what⟩ | ⟨n, here, what, nonzero⟩
    · rcases first.logged x old with older | ⟨q, before, after, what⟩ | ⟨n, here, what, nonzero⟩
      · exact .inl older
      · -- a block that was new stays where it is
        have same := second.keeps _ _ after
        refine .inr (.inl ⟨q, before, same ▸ after, ?_⟩)
        rw [same]
        refine what.imp_right (Or.imp_right fun ⟨j, below, index⟩ => ⟨j, below, ?_⟩)
        rw [index, second.keeps _ _ (Kernel.blk_index below after)]
      · subst what
        exact .inr (.inr ⟨n, here, (second.keeps _ _ nonzero).symm, nonzero⟩)
    · rw [inum] at before after what
      refine .inr (.inl ⟨q, first.missing before, after, ?_⟩)
      rwa [first.sb] at what
    · rw [inum] at what
      exact .inr (.inr ⟨n, here, what, nonzero⟩)
  · have nonzero : b ≠ 0 := by
      have := k.sb.datastart_gt
      have := data.low
      omega
    rcases second.marks b (by rw [first.sb]; exact data) with old | ⟨q, here⟩
    · rw [first.sb] at old
      refine (first.marks b ⟨data.low, data.high, old⟩).imp_right fun ⟨q, here⟩ => ⟨q, ?_⟩
      rw [second.keeps _ _ (here ▸ nonzero), here]
    · exact .inr ⟨q, inum ▸ here⟩

end Extends

/-- What the holder sees, from inode blocks, block contents and its own copy. -/
theorem cur_eq {k k' : Kernel} {p : IPtr} (sb : k'.sb = k.sb)
    (inum : (k'.icache p).inum = (k.icache p).inum)
    (dinodes : ∀ i < k.sb.icap, k.sb.dinode k'.store i = k.sb.dinode k.store i) :
    ∀ i < k.sb.icap, k'.cur p i = update (k.cur p) (k.icache p).inum (k'.icache p).dinode i := by
  intro i area
  unfold Kernel.cur
  rw [sb, inum, update_idem]
  by_cases here : i = (k.icache p).inum
  · subst here
    simp
  · rw [update_of_ne here, update_of_ne here, dinodes i area]

/-! ## One block more -/

section Grow

variable {p : IPtr} {k : Kernel} {q : Pos} {j : Nat}

/-- The chain of the holder's inode may have grown, but no byte has changed. -/
structure Steady (p : IPtr) (k k' : Kernel) : Prop where
  working : k'.Working p
  ext : Extends p (fun _ => False) k k'
  bytes : k'.bytes p = k.bytes p

/-- The block at position `q` of the holder's inode is there, and its number is
`b`. -/
structure Reaches (p : IPtr) (q : Pos) (k : Kernel) (b : Nat) (k' : Kernel) : Prop
    extends Steady p k k' where
  here : k'.blk p (k.icache p).inum q = b
  nonzero : b ≠ 0
  /-- Only what was missing on the way to it is new. -/
  new : ∀ r, k.blk p (k.icache p).inum r = 0 → k'.blk p (k.icache p).inum r ≠ 0 →
    OnPath perIndex r q

/-- The outcome of allocating a block at position `q` of the holder's inode. -/
structure GrownAt (p : IPtr) (q : Pos) (k : Kernel) (b : Nat) (k' : Kernel) : Prop
    extends Reaches p q k b k' where
  /-- The new block is zeroed, in its buffer. -/
  zeroed : k'.dev.cache b = some fun _ => 0

/-- What there is to check of an allocation. -/
theorem grownAt_of {k' : Kernel} {b : Nat} {h : UInt32} (work : k.Working p) (sb : k'.sb = k.sb)
    (others : ∀ r, r ≠ p → k'.icache r = k.icache r)
    (inode : k'.icache p = { k.icache p with
      dinode := { (k.icache p).dinode with addrs := update (k.icache p).dinode.addrs 0 h } })
    (dinodes : ∀ i < k.sb.icap, k.sb.dinode k'.store i = k.sb.dinode k.store i)
    (inv : Blocks k.sb k'.store (update (k.cur p) (k.icache p).inum (k'.icache p).dinode))
    (new : ∀ i r, k.sb.blockAt k'.store (update (k.cur p) (k.icache p).inum (k'.icache p).dinode) i r =
      if i = (k.icache p).inum ∧ r = q then b else k.blk p i r)
    (contents : k.sb.contents k'.store
      (update (k.cur p) (k.icache p).inum (k'.icache p).dinode) = k.bytes p)
    (empty : k.blk p (k.icache p).inum q = 0) (nonzero : b ≠ 0)
    (zeroed : k'.dev.cache b = some fun _ => 0) (log : k'.LogOk) (outstanding : k'.log.outstanding = k.log.outstanding)
    (logged : ∀ x ∈ k'.log.lh, x ∈ k.log.lh ∨ x = k.sb.bblock b ∨ x = b ∨
      ∃ j, q.parent perIndex = some j ∧ k.blk p (k.icache p).inum (.index j) ≠ 0 ∧
        x = k.blk p (k.icache p).inum (.index j))
    (marks : ∀ c < k.sb.size, k.sb.used k'.store c = (decide (c = b) || k.sb.used k.store c)) :
    GrownAt p q k b k' := by
  have inum : (k'.icache p).inum = (k.icache p).inum := by rw [inode]
  have seen := cur_eq sb inum dinodes
  have blk : ∀ i r, k'.blk p i r =
      if i = (k.icache p).inum ∧ r = q then b else k.blk p i r := by
    intro i r
    rw [← new i r, Kernel.blk, sb, blockAt_heads (heads_congr seen)]
  have keeps : ∀ i r, k.blk p i r ≠ 0 → k'.blk p i r = k.blk p i r := by
    intro i r there
    rw [blk, if_neg]
    rintro ⟨rfl, rfl⟩
    exact there empty
  have here : k'.blk p (k.icache p).inum q = b := by rw [blk, if_pos ⟨rfl, rfl⟩]
  refine ⟨⟨⟨⟨?_, log, ?_, ?_⟩, ⟨sb, others, ⟨h, inode⟩, dinodes, keeps, fun i r other => ?_,
    outstanding, fun x mem => ?_, fun c data => ?_⟩, ?_⟩, here, nonzero,
    fun r missing there => ?_⟩, zeroed⟩
  · rw [sb]
    exact inv.congr_cur seen
  · rw [inum, sb]
    exact work.area
  · rw [inode]
    exact work.typed
  · rw [blk, if_neg fun same => other same.1]
  · rcases logged x mem with old | bitmap | new_block | ⟨j, below, there, parent⟩
    · exact .inl old
    · exact .inr (.inl ⟨q, empty, by rwa [here], .inr (.inl (by rw [here, bitmap]))⟩)
    · exact .inr (.inl ⟨q, empty, by rwa [here], .inl (by rw [here, new_block])⟩)
    · exact .inr (.inl ⟨q, empty, by rwa [here], .inr (.inr ⟨j, below, by
        rw [parent, keeps _ _ there]⟩)⟩)
  · have mark := data.used
    rw [marks c data.high, Bool.or_eq_true, decide_eq_true_eq] at mark
    rcases mark with rfl | old
    · exact .inr ⟨q, here⟩
    · exact .inl old
  · rw [← contents]
    funext i
    rw [Kernel.bytes, sb, contents_heads (heads_congr seen)]
  · have same : r = q := by
      by_contra other
      rw [blk, if_neg fun both => other both.2] at there
      exact there missing
    exact .inl same

/-- A free block has been allocated and linked in an index block. -/
theorem grownAt_link {k' : Kernel} {b : Nat} (work : k.Working p)
    (below : q.parent perIndex = some j) (index : k.blk p (k.icache p).inum (.index j) ≠ 0)
    (empty : k.blk p (k.icache p).inum q = 0) (bound : b < k.sb.size)
    (free : k.sb.used k.store b = false) (sb : k'.sb = k.sb) (icache : k'.icache = k.icache)
    (store : k'.store = update (allocated k.sb k.store b) (k.blk p (k.icache p).inum (.index j))
      ((allocated k.sb k.store b (k.blk p (k.icache p).inum (.index j))).put32
        (4 * q.word perIndex) (UInt32.ofNat b)))
    (zeroed : k'.dev.cache b = some fun _ => 0) (log : k'.LogOk)
    (outstanding : k'.log.outstanding = k.log.outstanding)
    (logged : ∀ x ∈ k'.log.lh, x ∈ k.log.lh ∨ x = k.sb.bblock b ∨ x = b ∨
      x = k.blk p (k.icache p).inum (.index j)) :
    GrownAt p q k b k' := by
  obtain ⟨inv₁, spare⟩ := work.blocks.alloc bound free
  have same := blockAt_allocated work.blocks bound free
  have index₁ : k.sb.blockAt (allocated k.sb k.store b) (k.cur p) (k.icache p).inum (.index j) ≠ 0 := by
    rw [same]
    exact index
  have empty₁ : k.sb.blockAt (allocated k.sb k.store b) (k.cur p) (k.icache p).inum q = 0 := by
    rw [same]
    exact empty
  have store' : k'.store =
      linked k.sb (allocated k.sb k.store b) (k.cur p) (k.icache p).inum j q b := by
    rw [store, linked, same]
    rfl
  have own : update (k.cur p) (k.icache p).inum (k.icache p).dinode = k.cur p := by
    rw [Kernel.cur, update_idem]
  refine grownAt_of (h := (k.icache p).dinode.addrs 0) work sb ?_ ?_ ?_ ?_ ?_ ?_ empty
    spare.fresh.ne_zero zeroed log outstanding ?_ ?_
  · intro r _
    rw [icache]
  · rw [icache]
    simp
  · intro i area
    rw [store', dinode_linked inv₁ index₁ area, dinode_allocated work.blocks bound free area]
  · rw [store', icache, own]
    exact inv₁.link below index₁ empty₁ spare
  · intro i r
    rw [store', icache, own, blockAt_linked inv₁ below index₁ empty₁ spare, same]
    rfl
  · rw [store', icache, own, contents_linked inv₁ below index₁ empty₁ spare,
      contents_allocated work.blocks bound free]
    rfl
  · intro x mem
    rcases logged x mem with older | bitmap | new_block | parent
    · exact .inl older
    · exact .inr (.inl bitmap)
    · exact .inr (.inr (.inl new_block))
    · exact .inr (.inr (.inr ⟨j, below, index, parent⟩))
  · intro c inside
    rw [store', used_linked inv₁ index₁ inside, used_allocated work.blocks free inside]

/-- A block that is there can be logged. -/
theorem Kernel.Working.home (work : k.Working p) {i : Nat} {r : Pos} (there : k.blk p i r ≠ 0) :
    k.sb.inodestart ≤ k.blk p i r ∧ k.blk p i r < k.sb.size := by
  have owned := work.blocks.owned there
  have low := owned.low
  have past := k.sb.datastart_gt
  have order := work.blocks.layout.inodes
  exact ⟨by unfold Kernel.blk; omega, owned.high⟩

/-- Allocate a block and link it in an index block. -/
theorem allocWord_spec (work : k.Working p) (below : q.parent perIndex = some j)
    (index : k.blk p (k.icache p).inum (.index j) ≠ 0)
    (empty : k.blk p (k.icache p).inum q = 0) :
    wp (allocWord (k.blk p (k.icache p).inum (.index j)) (4 * q.word perIndex))
      (fun b k' => GrownAt p q k b k') Harmless k := by
  unfold allocWord setWord
  simp only [wp_bind]
  refine balloc_wp work.blocks work.log fun b k₁ found sb icache store log out lh zeroed => ?_
  simp only [wp_get]
  refine logWrite_wp fun room _ => ?_
  rw [wp_pure]
  obtain ⟨bound, free, -⟩ := firstFree_spec found
  have home := work.home index
  refine grownAt_link work below index empty bound free sb icache ?_ ?_
    (log.put _ (by rwa [sb]) room) out ?_
  · rw [Kernel.store_put, store]
  · have apart : b ≠ k.blk p (k.icache p).inum (.index j) := by
      intro eq
      have used := (work.blocks.owned index).used
      rw [show k.sb.blockAt k.store (k.cur p) (k.icache p).inum (.index j) = b from eq.symm, free]
        at used
      cases used
    simpa [Kernel.put, Dev.store, apart] using zeroed
  · intro x mem
    simp only [Kernel.log_put, Log.logAppend, Log.mem_absorb] at mem
    rcases mem with old | parent
    · rcases lh x old with older | bitmap | new_block
      · exact .inl older
      · exact .inr (.inl bitmap)
      · exact .inr (.inr (.inl new_block))
    · exact .inr (.inr (.inr parent))

/-- Clearing the next pointer in the buffer of a zeroed block does nothing. -/
theorem clearNext_run {b : Nat} (zeroed : k.dev.cache b = some fun _ => 0) :
    clearNext b k = .ok ((), k) := by
  have zero : k.store b = fun _ => 0 := by simp [Kernel.store, Dev.bread, zeroed]
  have same : k.poke b ((k.store b).put32 nextWord 0) = k := by
    rw [zero, Bytes.put32_zero]
    unfold Kernel.poke Dev.store
    rw [← zeroed, update_eq_self]
  show Except.ok ((), k.poke b ((k.store b).put32 nextWord 0)) = _
  rw [same]

/-- The first index block, when there is one. -/
theorem bmapHead_there (area : (k.icache p).inum < k.sb.icap)
    (there : k.blk p (k.icache p).inum (.index 0) ≠ 0) :
    bmapHead p k = .ok (k.blk p (k.icache p).inum (.index 0), k) := by
  have head : k.blk p (k.icache p).inum (.index 0) = ((k.icache p).dinode.addrs 0).toNat := by
    simp [Kernel.blk, Superblock.blockAt, addr, idx, Superblock.heads, area, Kernel.cur]
  have nonzero : (k.icache p).dinode.addrs 0 ≠ 0 := by
    intro zero
    rw [head, zero] at there
    exact there rfl
  rw [head]
  unfold bmapHead
  show (if (k.icache p).dinode.addrs 0 = 0 then _ else _ : Fs Nat) k = _
  rw [if_neg nonzero]
  rfl

/-- A free block has been allocated and made the first index block. -/
theorem grownAt_head {k' : Kernel} {b : Nat} (work : k.Working p)
    (empty : k.blk p (k.icache p).inum (.index 0) = 0) (bound : b < k.sb.size)
    (free : k.sb.used k.store b = false) (sb : k'.sb = k.sb)
    (others : ∀ r, r ≠ p → k'.icache r = k.icache r)
    (inode : k'.icache p = { k.icache p with dinode := (k.icache p).dinode.withHead b })
    (store : k'.store = allocated k.sb k.store b) (zeroed : k'.dev.cache b = some fun _ => 0)
    (log : k'.LogOk) (outstanding : k'.log.outstanding = k.log.outstanding)
    (logged : ∀ x ∈ k'.log.lh, x ∈ k.log.lh ∨ x = k.sb.bblock b ∨ x = b) :
    GrownAt p (.index 0) k b k' := by
  obtain ⟨inv₁, spare⟩ := work.blocks.alloc bound free
  have same := blockAt_allocated work.blocks bound free
  have own : k.cur p (k.icache p).inum = (k.icache p).dinode := by simp [Kernel.cur]
  have missing : (k.cur p (k.icache p).inum).addrs 0 = 0 := by
    have first : k.blk p (k.icache p).inum (.index 0) = _ := blockAt_first work.area
    exact UInt32.toNat_inj.mp (first.symm.trans empty)
  have head : update (k.cur p) (k.icache p).inum (k'.icache p).dinode =
      update (k.cur p) (k.icache p).inum ((k.cur p (k.icache p).inum).withHead b) := by
    rw [inode, own]
  refine grownAt_of (h := UInt32.ofNat b) work sb others inode ?_ ?_ ?_ ?_ empty
    spare.fresh.ne_zero zeroed log outstanding ?_ ?_
  · intro i area
    rw [store, dinode_allocated work.blocks bound free area]
  · rw [store, head]
    exact inv₁.head work.area missing spare (by rw [own]; exact work.typed)
  · intro i r
    rw [store, head, blockAt_head inv₁ work.area missing spare, same]
    rfl
  · rw [store, head, contents_head inv₁ work.area missing spare,
      contents_allocated work.blocks bound free]
    rfl
  · intro x mem
    rcases logged x mem with older | bitmap | new_block
    · exact .inl older
    · exact .inr (.inl bitmap)
    · exact .inr (.inr (.inl new_block))
  · intro c inside
    rw [store, used_allocated work.blocks free inside]

/-- The first index block, allocated if there is none. -/
theorem bmapHead_spec (work : k.Working p) (empty : k.blk p (k.icache p).inum (.index 0) = 0) :
    wp (bmapHead p) (fun b k' => GrownAt p (.index 0) k b k') Harmless k := by
  have missing : (k.icache p).dinode.addrs 0 = 0 := by
    have : ((k.icache p).dinode.addrs 0).toNat = 0 := by
      simpa [Kernel.blk, Superblock.blockAt, addr, idx, Superblock.heads, work.area, Kernel.cur]
        using empty
    exact UInt32.toNat_inj.mp this
  unfold bmapHead
  simp only [wp_bind, wp_get, if_pos missing]
  refine balloc_wp work.blocks work.log fun b k₁ found sb icache store log out lh zeroed => ?_
  rw [wp_modify]
  refine wp_of_run (clearNext_run zeroed) ?_
  rw [wp_pure]
  obtain ⟨bound, free, -⟩ := firstFree_spec found
  refine grownAt_head work empty bound free sb (fun r other => ?_) ?_ store zeroed
    ⟨log.start, log.size, log.idle, log.distinct, log.home, log.fits, log.short⟩ out lh
  · rw [Kernel.icache_setInode, update_of_ne other, icache]
  · rw [Kernel.icache_setInode, update_self, icache, Dinode.withHead]

/-! ## Along the chain -/

theorem Steady.refl (work : k.Working p) : Steady p k k :=
  ⟨work, Extends.refl p _ k, rfl⟩

theorem Steady.trans {k' k'' : Kernel} (first : Steady p k k') (second : Steady p k' k'') :
    Steady p k k'' :=
  ⟨second.working, first.ext.trans second.ext, second.bytes.trans first.bytes⟩

theorem Reaches.refl (work : k.Working p) (there : k.blk p (k.icache p).inum q ≠ 0) :
    Reaches p q k (k.blk p (k.icache p).inum q) k :=
  ⟨Steady.refl work, rfl, there, fun _ missing found => absurd missing found⟩

theorem Reaches.trans {q' : Pos} {b b' : Nat} {k' k'' : Kernel} (first : Reaches p q k b k')
    (second : Reaches p q' k' b' k'') (path : OnPath perIndex q q') : Reaches p q' k b' k'' := by
  have inum := first.ext.inum
  refine ⟨first.toSteady.trans second.toSteady, by rw [← inum]; exact second.here,
    second.nonzero, fun r missing there => ?_⟩
  by_cases between : k'.blk p (k.icache p).inum r = 0
  · exact second.new r (by rw [inum]; exact between) (by rw [inum]; exact there)
  · exact (first.new r missing between).trans path

/-- The next pointer of an index block. -/
theorem next_word {i : Nat} (index : k.blk p i (.index j) ≠ 0) :
    ((k.store (k.blk p i (.index j))).get32 nextWord).toNat = k.blk p i (.index (j + 1)) := by
  have read : k.blk p i (.index (j + 1)) = words k.store (k.blk p i (.index j)) perIndex :=
    Chain.addr_of_parent (p := .index (j + 1)) (i := j) rfl index
  rw [read]
  rfl

/-- An item of an index block. -/
theorem item_word {i n : Nat} (index : k.blk p i (.index (n / perIndex)) ≠ 0) :
    ((k.store (k.blk p i (.index (n / perIndex)))).get32 (4 * (n % perIndex))).toNat =
      k.blk p i (.item n) := by
  have read : k.blk p i (.item n) =
      words k.store (k.blk p i (.index (n / perIndex))) (n % perIndex) :=
    Chain.addr_of_parent (p := .item n) (i := n / perIndex) rfl index
  rw [read]
  rfl

theorem bmapWalk_there {m : Nat} (last : k.blk p (k.icache p).inum (.index (j + m)) ≠ 0) :
    bmapWalk m (k.blk p (k.icache p).inum (.index j)) k =
      .ok (k.blk p (k.icache p).inum (.index (j + m)), k) := by
  induction m generalizing j with
  | zero => rfl
  | succ m ih =>
    have index : k.blk p (k.icache p).inum (.index j) ≠ 0 :=
      Chain.idx_ne_zero_of_le (Nat.le_add_right j (m + 1)) last
    have after : k.blk p (k.icache p).inum (.index (j + 1)) ≠ 0 :=
      Chain.idx_ne_zero_of_le (by omega) last
    have next := next_word index
    have nonzero : (k.store (k.blk p (k.icache p).inum (.index j))).get32 nextWord ≠ 0 := by
      intro zero
      rw [zero] at next
      exact after next.symm
    unfold bmapWalk
    show (if (k.store (k.blk p (k.icache p).inum (.index j))).get32 nextWord = 0 then _
      else _ : Fs Nat) k = _
    rw [if_neg nonzero, next]
    have shift : j + (m + 1) = j + 1 + m := by omega
    rw [shift] at last ⊢
    exact ih last

theorem bmapWalk_spec {m : Nat} (work : k.Working p)
    (index : k.blk p (k.icache p).inum (.index j) ≠ 0) :
    wp (bmapWalk m (k.blk p (k.icache p).inum (.index j)))
      (Reaches p (.index (j + m)) k) Harmless k := by
  induction m generalizing j k with
  | zero => exact Reaches.refl work index
  | succ m ih =>
    have next := next_word index
    have shift : j + (m + 1) = j + 1 + m := by omega
    unfold bmapWalk
    simp only [wp_bind, wp_get]
    rw [shift]
    refine wp_ite (fun missing => ?_) fun there => ?_
    · have empty : k.blk p (k.icache p).inum (.index (j + 1)) = 0 := by
        rw [← next, missing]
        rfl
      refine wp_seq (allocWord_spec work (q := .index (j + 1)) rfl index empty) ?_
      intro new k' grown
      rw [wp_bind]
      refine wp_of_run (clearNext_run grown.zeroed) ?_
      have here : k'.blk p (k'.icache p).inum (.index (j + 1)) = new := by
        rw [grown.ext.inum]
        exact grown.here
      rw [← here]
      refine wp_post (ih grown.working (by rw [here]; exact grown.nonzero)) ?_
      intro b k'' reaches
      exact grown.toReaches.trans reaches (.inr ⟨j + 1, Nat.le_add_right _ _, rfl⟩)
    · rw [next]
      refine ih work fun empty => there ?_
      rw [empty] at next
      exact UInt32.toNat_inj.mp next

theorem chainSplit_eq (a bn : Nat) : chainSplit a bn = (a + bn / perIndex, bn % perIndex) := by
  induction bn using Nat.strong_induction_on generalizing a with
  | _ bn ih =>
  unfold chainSplit
  simp only [perIndex, nindirect, bsize] at *
  split
  · rw [ih _ (by omega), Prod.mk.injEq]
    omega
  · rw [Prod.mk.injEq]
    omega

theorem bmapItem_there {n : Nat} (there : k.blk p (k.icache p).inum (.item n) ≠ 0) :
    bmapItem (k.blk p (k.icache p).inum (.index (n / perIndex))) (n % perIndex) k =
      .ok (k.blk p (k.icache p).inum (.item n), k) := by
  have index := Kernel.blk_index (q := .item n) rfl there
  have item := item_word index
  have nonzero : (k.store (k.blk p (k.icache p).inum (.index (n / perIndex)))).get32
      (4 * (n % perIndex)) ≠ 0 := by
    intro zero
    rw [zero] at item
    exact there item.symm
  unfold bmapItem
  show (if (k.store (k.blk p (k.icache p).inum (.index (n / perIndex)))).get32
      (4 * (n % perIndex)) = 0 then _ else _ : Fs Nat) k = _
  rw [if_neg nonzero, item]
  rfl

theorem bmapItem_spec {n : Nat} (work : k.Working p)
    (index : k.blk p (k.icache p).inum (.index (n / perIndex)) ≠ 0) :
    wp (bmapItem (k.blk p (k.icache p).inum (.index (n / perIndex))) (n % perIndex))
      (Reaches p (.item n) k) Harmless k := by
  by_cases there : k.blk p (k.icache p).inum (.item n) = 0
  · have item := item_word index
    unfold bmapItem
    simp only [wp_bind, wp_get]
    have zero : (k.store (k.blk p (k.icache p).inum (.index (n / perIndex)))).get32
        (4 * (n % perIndex)) = 0 := UInt32.toNat_inj.mp (item.trans there)
    rw [if_pos zero]
    refine wp_post (allocWord_spec work (q := .item n) rfl index there) ?_
    intro b k' grown
    exact grown.toReaches
  · exact wp_of_run (bmapItem_there there) (Reaches.refl work there)

/-- `bmap` on a block that is there. -/
theorem bmap_there {n : Nat} (area : (k.icache p).inum < k.sb.icap)
    (there : k.blk p (k.icache p).inum (.item n) ≠ 0) :
    bmap p n k = .ok (k.blk p (k.icache p).inum (.item n), k) := by
  have last := Kernel.blk_index (q := .item n) rfl there
  have first : k.blk p (k.icache p).inum (.index 0) ≠ 0 :=
    Chain.idx_ne_zero_of_le (Nat.zero_le _) last
  have walk := bmapWalk_there (j := 0) (m := n / perIndex) (by rwa [Nat.zero_add])
  unfold bmap
  rw [run_bind (bmapHead_there area first), chainSplit_eq, Nat.zero_add, run_bind walk,
    Nat.zero_add]
  exact bmapItem_there there

/-- **`bmap`**: if it returns, the block is there and no byte has changed. -/
theorem bmap_spec (work : k.Working p) (n : Nat) :
    wp (bmap p n) (Reaches p (.item n) k) Harmless k := by
  unfold bmap
  rw [wp_bind, chainSplit_eq, Nat.zero_add]
  have from_head : ∀ {h k'}, Reaches p (.index 0) k h k' →
      wp (bmapWalk (n / perIndex) h >>= fun last => bmapItem last (n % perIndex))
        (Reaches p (.item n) k) Harmless k' := by
    intro h k' reaches
    have here : k'.blk p (k'.icache p).inum (.index 0) = h := by
      rw [reaches.ext.inum]
      exact reaches.here
    rw [wp_bind, ← here]
    refine wp_post (bmapWalk_spec reaches.working (by rw [here]; exact reaches.nonzero)) ?_
    intro last k'' walked
    rw [Nat.zero_add] at walked
    have there : k''.blk p (k''.icache p).inum (.index (n / perIndex)) = last := by
      rw [walked.ext.inum]
      exact walked.here
    rw [← there]
    refine wp_post (bmapItem_spec walked.working (by rw [there]; exact walked.nonzero)) ?_
    intro b k₃ item
    exact (reaches.trans walked (.inr ⟨0, Nat.zero_le _, rfl⟩)).trans item
      (.inr ⟨n / perIndex, Nat.le_refl _, rfl⟩)
  by_cases head : k.blk p (k.icache p).inum (.index 0) = 0
  · exact wp_post (bmapHead_spec work head) fun _ _ grown => from_head grown.toReaches
  · exact wp_of_run (bmapHead_there work.area head) (from_head (Reaches.refl work head))

end Grow

end BasicOS
