/-
# BasicOS.Fs.File — what readi and writei do to the bytes of inodes

The copy loops move one piece of a block at a time.  By induction on what is
left to copy, `readLoop` returns the bytes of the inode and `writeLoop` replaces
them, whatever blocks `bmap` has to allocate on the way.

Between calls the in-memory copies of inodes agree with the disk; `Kernel.Ok` is
the invariant of the whole file system at that point.  `readi_spec` and
`writei_spec` say what the calls do to sizes and bytes of all inodes.
-/
import BasicOS.Fs.Map

namespace BasicOS

open Lib Function
open Lib.Chain (Pos addr idx Placed Fresh OnPath)
open Lib.Prog

set_option autoImplicit false

section Loops

variable {p : IPtr} {k : Kernel}

/-! ## Pieces of a block -/

theorem bsize_pos : 0 < bsize := by decide

/-- Offsets inside one block. -/
theorem piece {off m t : Nat} (small : m ≤ bsize - off % bsize) (inside : t < m) :
    (off + t) / bsize = off / bsize ∧ (off + t) % bsize = off % bsize + t := by
  have := Nat.mod_lt off bsize_pos
  simp only [bsize] at *
  omega

/-- A piece of a data block is a piece of the inode. -/
theorem slice_piece {i off m : Nat} (small : m ≤ bsize - off % bsize)
    (there : k.blk p i (.item (off / bsize)) ≠ 0) :
    (k.store (k.blk p i (.item (off / bsize)))).slice (off % bsize) m =
      (k.bytes p i).slice off m := by
  refine Bytes.slice_congr fun t inside => ?_
  obtain ⟨quot, rem⟩ := piece small inside
  have there' : ¬ k.sb.blockAt k.store (k.cur p) i (.item (off / bsize)) = 0 := there
  simp only [Kernel.bytes, Superblock.contents, quot, rem, if_neg there']
  rfl

/-! ## Reading -/

/-- `readLoop` on blocks that are there. -/
theorem readLoop_there (area : (k.icache p).inum < k.sb.icap) (off n : Nat)
    (there : ∀ o, off ≤ o → o < off + n → k.blk p (k.icache p).inum (.item (o / bsize)) ≠ 0) :
    readLoop p off n k = .ok ((k.bytes p (k.icache p).inum).slice off n, k) := by
  induction n using Nat.strong_induction_on generalizing off with
  | _ n ih =>
  unfold readLoop
  by_cases done : n = 0
  · subst done
    rfl
  · have short := Nat.mod_lt off bsize_pos
    have first := there off (Nat.le_refl off) (by omega)
    rw [dif_neg done]
    generalize len : min n (bsize - off % bsize) = m
    have rest := ih (n - m) (by omega) (off + m) fun o low high => there o (by omega) (by omega)
    have got : (get : Fs Kernel) k = .ok (k, k) := rfl
    rw [run_bind (bmap_there area first), run_bind got, run_bind rest,
      slice_piece (by omega) first, Bytes.slice_append, Nat.add_sub_cancel' (by omega : m ≤ n)]
    rfl

theorem readLoop_spec (work : k.Working p) (off n : Nat) :
    wp (readLoop p off n)
      (fun data k' => Steady p k k' ∧ data = (k.bytes p (k.icache p).inum).slice off n)
      Harmless k := by
  induction n using Nat.strong_induction_on generalizing off k with
  | _ n ih =>
  unfold readLoop
  by_cases done : n = 0
  · subst done
    exact ⟨Steady.refl work, rfl⟩
  · have short := Nat.mod_lt off bsize_pos
    rw [dif_neg done]
    generalize len : min n (bsize - off % bsize) = m
    refine wp_seq (bmap_spec work (off / bsize)) fun b k₁ reaches => ?_
    rw [wp_bind, wp_get]
    refine wp_seq (ih (n - m) (by omega) reaches.working (off + m)) ?_
    rintro rest k₂ ⟨steady, data⟩
    rw [wp_pure]
    refine ⟨reaches.toSteady.trans steady, ?_⟩
    rw [data, ← reaches.here, slice_piece (by omega) (by rw [reaches.here]; exact reaches.nonzero),
      reaches.bytes, reaches.ext.inum, Bytes.slice_append]
    congr 1
    omega

/-! ## Writing -/

/-- Data block `n` of the holder's inode has got new contents. -/
structure ItemWritten (p : IPtr) (n : Nat) (data : Block) (k k' : Kernel) : Prop where
  working : k'.Working p
  ext : Extends p (· = n) k k'
  bytes : ∀ i o, k'.bytes p i o =
    if i = (k.icache p).inum ∧ o / bsize = n then data (o % bsize) else k.bytes p i o
  blk : ∀ i q, k'.blk p i q = k.blk p i q

theorem itemWritten_of {k' : Kernel} {n : Nat} {data : Block} (work : k.Working p)
    (there : k.blk p (k.icache p).inum (.item n) ≠ 0) (sb : k'.sb = k.sb)
    (icache : k'.icache = k.icache)
    (store : k'.store = update k.store (k.blk p (k.icache p).inum (.item n)) data)
    (log : k'.LogOk) (outstanding : k'.log.outstanding = k.log.outstanding)
    (logged : ∀ x ∈ k'.log.lh, x ∈ k.log.lh ∨ x = k.blk p (k.icache p).inum (.item n)) :
    ItemWritten p n data k k' := by
  replace store : k'.store = written k.sb k.store (k.cur p) (k.icache p).inum n data := store
  have inum : (k'.icache p).inum = (k.icache p).inum := by rw [icache]
  have dinodes : ∀ i < k.sb.icap, k.sb.dinode k'.store i = k.sb.dinode k.store i := by
    intro i area
    rw [store]
    exact dinode_written work.blocks there area
  have seen : ∀ i < k.sb.icap, k'.cur p i = k.cur p i := by
    intro i area
    rw [cur_eq sb inum dinodes i area, icache]
    by_cases here : i = (k.icache p).inum
    · subst here
      simp [Kernel.cur]
    · rw [update_of_ne here]
  have blk : ∀ i q, k'.blk p i q = k.blk p i q := by
    intro i q
    rw [Kernel.blk, sb, blockAt_heads (heads_congr seen), store]
    exact blockAt_written work.blocks i q
  refine ⟨⟨?_, log, ?_, ?_⟩, ⟨sb, fun q _ => by rw [icache],
    ⟨(k.icache p).dinode.addrs 0, by rw [icache]; simp⟩, dinodes, fun i q _ => blk i q,
    fun i q _ => blk i q, outstanding, fun x mem => ?_, fun b marked => ?_⟩, fun i o => ?_, blk⟩
  · rw [sb]
    refine Blocks.congr_cur ?_ seen
    rw [store]
    exact work.blocks.write there
  · rw [icache, sb]
    exact work.area
  · rw [icache]
    exact work.typed
  · rcases logged x mem with old | rfl
    · exact .inl old
    · exact .inr (.inr ⟨n, rfl, (blk _ _).symm, there⟩)
  · left
    have same : k.sb.used (written k.sb k.store (k.cur p) (k.icache p).inum n data) b =
        k.sb.used k.store b := used_written work.blocks there marked.high
    rw [← same, ← store]
    exact marked.used
  · rw [Kernel.bytes, sb, contents_heads (heads_congr seen), store]
    exact contents_written work.blocks there i o

/-- Logging a data block of the holder's inode with new contents. -/
theorem put_item {n : Nat} (data : Block) (work : k.Working p)
    (there : k.blk p (k.icache p).inum (.item n) ≠ 0)
    (room : k.log.Room) :
    ItemWritten p n data k (k.put (k.blk p (k.icache p).inum (.item n)) data) :=
  itemWritten_of work there rfl rfl (Kernel.store_put k _ data)
    (work.log.put data (work.home there) room) rfl fun _ mem => Log.mem_absorb.mp mem

/-- The bytes of all inodes after `n` bytes of `src` at `off` of inode `i`. -/
def overwrite (f : Nat → Bytes) (i : Nat) (src : Bytes) (off n : Nat) : Nat → Bytes :=
  update f i ((f i).copy off src n)

theorem overwrite_apply (f : Nat → Bytes) (i : Nat) (src : Bytes) (off n j o : Nat) :
    overwrite f i src off n j o =
      if j = i ∧ off ≤ o ∧ o < off + n then src (o - off) else f j o := by
  unfold overwrite
  by_cases here : j = i
  · subst here
    simp [Bytes.copy]
  · simp [here]

/-- The file blocks that `n` bytes at `off` lie in. -/
def Spans (off n m : Nat) : Prop :=
  ∃ o, off ≤ o ∧ o < off + n ∧ o / bsize = m

/-- The outcome of writing `n` bytes at `off`, before the inode is written. -/
structure Wrote (p : IPtr) (src : Bytes) (off n : Nat) (k k' : Kernel) : Prop where
  working : k'.Working p
  ext : Extends p (Spans off n) k k'
  bytes : k'.bytes p = overwrite (k.bytes p) (k.icache p).inum src off n
  there : ∀ m, Spans off n m → k'.blk p (k.icache p).inum (.item m) ≠ 0
  /-- Only what was missing on the way to the blocks written is new. -/
  new : ∀ r, k.blk p (k.icache p).inum r = 0 → k'.blk p (k.icache p).inum r ≠ 0 →
    ∃ m, Spans off n m ∧ OnPath perIndex r (.item m)

/-- A byte of a data block that is there. -/
theorem store_item {i o : Nat} (there : k.blk p i (.item (o / bsize)) ≠ 0) :
    k.store (k.blk p i (.item (o / bsize))) (o % bsize) = k.bytes p i o := by
  have there' : ¬ k.sb.blockAt k.store (k.cur p) i (.item (o / bsize)) = 0 := there
  simp only [Kernel.bytes, Superblock.contents, if_neg there']
  rfl

/-- Writing goes piece by piece: the block of the first piece is looked up, the
piece is written, and then the rest. -/
theorem Wrote.cons {src : Bytes} {off n m b : Nat} {k₁ k₂ k₃ : Kernel} (left : 0 < n)
    (len : min n (bsize - off % bsize) = m) (reaches : Reaches p (.item (off / bsize)) k b k₁)
    (piece_written : ItemWritten p (off / bsize) ((k₁.store b).copy (off % bsize) src m) k₁ k₂)
    (wrote : Wrote p (src.drop m) (off + m) (n - m) k₂ k₃) : Wrote p src off n k k₃ := by
  obtain ⟨-, ext₂, bytes₂, blk₂⟩ := piece_written
  have short := Nat.mod_lt off bsize_pos
  have inum := reaches.ext.inum
  have inum₂ := ext₂.inum
  refine ⟨wrote.working, ?_, ?_, ?_, fun r missing there => ?_⟩
  · refine (reaches.ext.mono fun _ no => no.elim).trans ((ext₂.mono ?_).trans (wrote.ext.mono ?_))
    · rintro _ rfl
      exact ⟨off, Nat.le_refl off, by omega, rfl⟩
    · rintro r ⟨o, low, high, block⟩
      exact ⟨o, by omega, by omega, block⟩
  · funext i o
    rw [wrote.bytes, overwrite_apply, overwrite_apply, bytes₂, inum₂, inum, reaches.bytes]
    by_cases mine : i = (k.icache p).inum
    · subst mine
      simp only [true_and]
      by_cases later : off + m ≤ o ∧ o < off + m + (n - m)
      · rw [if_pos later, if_pos (by omega)]
        show src (m + (o - (off + m))) = _
        congr 1
        omega
      · rw [if_neg later]
        by_cases first : off ≤ o ∧ o < off + m
        · -- in the piece that has just been written
          obtain ⟨quot, rem⟩ := @piece off m (o - off) (by omega) (by omega)
          rw [Nat.add_sub_cancel' first.1] at quot rem
          rw [if_pos quot, if_pos (by omega), Bytes.copy_inside (by omega) (by omega)]
          congr 1
          omega
        · rw [if_neg (by omega : ¬ (off ≤ o ∧ o < off + n))]
          split
          · -- elsewhere in the same block
            rename_i same
            rw [Bytes.copy_outside (by simp only [bsize] at *; omega), ← reaches.bytes,
              ← store_item (by rw [same, reaches.here]; exact reaches.nonzero), same,
              reaches.here]
          · rfl
    · simp [mine]
  · rintro r ⟨o, low, high, block⟩
    by_cases first : o < off + m
    · obtain ⟨quot, -⟩ := @piece off m (o - off) (by omega) (by omega)
      rw [Nat.add_sub_cancel' low] at quot
      have there : k₂.blk p (k.icache p).inum (.item r) ≠ 0 := by
        rw [blk₂, ← block, quot, reaches.here]
        exact reaches.nonzero
      rw [wrote.ext.keeps _ _ there]
      exact there
    · rw [← inum, ← inum₂]
      exact wrote.there r ⟨o, by omega, by omega, block⟩
  · by_cases between : k₁.blk p (k.icache p).inum r = 0
    · obtain ⟨m', ⟨o, low, high, block⟩, path⟩ := wrote.new r
        (by rw [inum₂, inum, blk₂]; exact between) (by rw [inum₂, inum]; exact there)
      exact ⟨m', ⟨o, by omega, by omega, block⟩, path⟩
    · exact ⟨off / bsize, ⟨off, Nat.le_refl off, by omega, rfl⟩, reaches.new r missing between⟩

theorem Wrote.nil (work : k.Working p) (src : Bytes) (off : Nat) : Wrote p src off 0 k k := by
  refine ⟨work, Extends.refl p _ k, ?_, fun m ⟨o, low, high, _⟩ => absurd high (by omega),
    fun r missing there => absurd missing there⟩
  funext i o
  rw [overwrite_apply, if_neg (by omega)]

theorem writeLoop_spec (work : k.Working p) (src : Bytes) (off n : Nat) :
    wp (writeLoop p src off n) (fun _ k' => Wrote p src off n k k') Harmless k := by
  induction n using Nat.strong_induction_on generalizing off k src with
  | _ n ih =>
  unfold writeLoop
  by_cases done : n = 0
  · subst done
    exact Wrote.nil work src off
  · have short := Nat.mod_lt off bsize_pos
    rw [dif_neg done]
    generalize len : min n (bsize - off % bsize) = m
    refine wp_seq (bmap_spec work (off / bsize)) fun b k₁ reaches => ?_
    rw [wp_bind, wp_get, wp_bind]
    refine logWrite_wp fun room _ => ?_
    have here : k₁.blk p (k₁.icache p).inum (.item (off / bsize)) = b := by
      rw [reaches.ext.inum]
      exact reaches.here
    have item := put_item ((k₁.store b).copy (off % bsize) src m) reaches.working
      (by rw [here]; exact reaches.nonzero) room
    rw [here] at item
    refine wp_post (ih (n - m) (by omega) item.working (src.drop m) (off + m)) ?_
    intro _ k₃ wrote
    exact wrote.cons (by omega) len reaches item

end Loops

/-! ## Between calls -/

namespace Kernel

/-- The inode with number `i`, on disk. -/
def disk (k : Kernel) (i : Nat) : Dinode :=
  k.sb.dinode k.store i

/-- The size of inode `i` in bytes. -/
def size (k : Kernel) (i : Nat) : Nat :=
  (k.disk i).size.toNat

/-- The bytes of inode `i`, by offset. -/
def content (k : Kernel) (i : Nat) : Bytes :=
  k.sb.contents k.store k.disk i

/-- The block number at a position of the chain of inode `i`. -/
def block (k : Kernel) (i : Nat) (q : Pos) : Nat :=
  k.sb.blockAt k.store k.disk i q

/-- The file system between two calls: the blocks are in order, and the valid
in-memory inodes are copies of allocated inodes on disk. -/
structure Ok (k : Kernel) : Prop where
  blocks : Blocks k.sb k.store k.disk
  log : k.LogOk
  cache : ∀ p, 0 < (k.icache p).ref → (k.icache p).valid = true →
    (k.icache p).inum < k.sb.icap ∧ (k.icache p).dinode = k.disk (k.icache p).inum ∧
      (k.icache p).dinode.type ≠ 0
  unique : ∀ p q, 0 < (k.icache p).ref → 0 < (k.icache q).ref →
    (k.icache p).inum = (k.icache q).inum → p = q
  locked : ∀ p, (k.icache p).locked = true → 0 < (k.icache p).ref ∧ (k.icache p).valid = true

end Kernel

section Between

variable {p : IPtr} {k k' : Kernel}

theorem Kernel.Ok.cur (ok : k.Ok) (held : (k.icache p).locked = true) : k.cur p = k.disk := by
  obtain ⟨ref, valid⟩ := ok.locked p held
  rw [Kernel.cur, (ok.cache p ref valid).2.1]
  exact update_eq_self _ k.disk

theorem Kernel.Ok.blk (ok : k.Ok) (held : (k.icache p).locked = true) : k.blk p = k.block := by
  funext i q
  rw [Kernel.blk, ok.cur held]
  rfl

theorem Kernel.Ok.bytes (ok : k.Ok) (held : (k.icache p).locked = true) :
    k.bytes p = k.content := by
  funext i
  rw [Kernel.bytes, ok.cur held]
  rfl

theorem Kernel.Ok.working (ok : k.Ok) (held : (k.icache p).locked = true) : k.Working p := by
  obtain ⟨ref, valid⟩ := ok.locked p held
  obtain ⟨area, -, typed⟩ := ok.cache p ref valid
  exact ⟨by rw [ok.cur held]; exact ok.blocks, ok.log, area, typed⟩

/-- Once the holder's inode is on disk, the file system is in order again. -/
theorem Kernel.Ok.resync (ok : k.Ok) (held : (k.icache p).locked = true) {d : Dinode}
    (sb : k'.sb = k.sb) (others : ∀ q, q ≠ p → k'.icache q = k.icache q)
    (inode : k'.icache p = { k.icache p with dinode := d }) (typed : d.type ≠ 0)
    (blocks : Blocks k.sb k'.store (k'.cur p)) (log : k'.LogOk)
    (disk : ∀ i < k.sb.icap, k'.disk i = if i = (k.icache p).inum then d else k.disk i) :
    k'.Ok := by
  obtain ⟨ref, valid⟩ := ok.locked p held
  obtain ⟨area, -, -⟩ := ok.cache p ref valid
  have ref_inum : ∀ q, (k'.icache q).ref = (k.icache q).ref ∧
      (k'.icache q).inum = (k.icache q).inum := by
    intro q
    by_cases eq : q = p
    · rw [eq, inode]
      exact ⟨rfl, rfl⟩
    · rw [others q eq]
      exact ⟨rfl, rfl⟩
  refine ⟨?_, log, ?_, fun q r => ?_, ?_⟩
  · rw [sb]
    refine blocks.congr_cur fun i inside => ?_
    rw [disk i inside, Kernel.cur, inode]
    by_cases here : i = (k.icache p).inum
    · subst here
      simp
    · rw [if_neg here, update_of_ne here]
      have kept := disk i inside
      rw [if_neg here] at kept
      rw [← kept]
      rfl
  · intro q used valid'
    rw [sb]
    by_cases eq : q = p
    · subst eq
      rw [inode]
      exact ⟨area, by simp [disk _ area], typed⟩
    · rw [others q eq] at used valid' ⊢
      obtain ⟨area', same, typed'⟩ := ok.cache q used valid'
      have other : (k.icache q).inum ≠ (k.icache p).inum := fun h => eq (ok.unique q p used ref h)
      exact ⟨area', by rw [disk _ area', if_neg other, same], typed'⟩
  · rw [(ref_inum q).1, (ref_inum r).1, (ref_inum q).2, (ref_inum r).2]
    exact ok.unique q r
  · intro q
    by_cases eq : q = p
    · rw [eq, inode]
      exact ok.locked p
    · rw [others q eq]
      exact ok.locked q

/-- A chain that had a head keeps it, and then the inode is unchanged. -/
theorem Extends.inode_same {touched : Nat → Prop} (ext : Extends p touched k k')
    (area : (k.icache p).inum < k.sb.icap) (head : (k.icache p).dinode.addrs 0 ≠ 0) :
    k'.icache p = k.icache p := by
  obtain ⟨h, inode⟩ := ext.inode
  have first : ∀ {k : Kernel}, (k.icache p).inum < k.sb.icap →
      k.blk p (k.icache p).inum (.index 0) = ((k.icache p).dinode.addrs 0).toNat := by
    intro k area
    simp [Kernel.blk, Superblock.blockAt, addr, idx, Superblock.heads, area, Kernel.cur]
  have before := first area
  have after := first (k := k') (by rw [ext.inum, ext.sb]; exact area)
  have kept := ext.keeps (k.icache p).inum (.index 0) (by
    rw [before]
    exact fun zero => head (UInt32.toNat_inj.mp zero))
  rw [ext.inum, kept, before, inode] at after
  have same : h = (k.icache p).dinode.addrs 0 := by
    have := UInt32.toNat_inj.mp after
    simpa using this.symm
  rw [inode, same, update_eq_self]

/-- Chains that have grown under an unchanged inode. -/
theorem Kernel.Ok.extend (ok : k.Ok) (held : (k.icache p).locked = true)
    {touched : Nat → Prop} (work : k'.Working p) (ext : Extends p touched k k')
    (same : k'.icache p = k.icache p) : k'.Ok ∧ ∀ i < k.sb.icap, k'.disk i = k.disk i := by
  have disk : ∀ i < k.sb.icap, k'.disk i = k.disk i := by
    intro i area
    rw [Kernel.disk, ext.sb]
    exact ext.dinodes i area
  obtain ⟨ref, valid⟩ := ok.locked p held
  obtain ⟨area, copy, typed⟩ := ok.cache p ref valid
  refine ⟨ok.resync held (d := (k.icache p).dinode) ext.sb ext.others same typed ?_ work.log
    fun i inside => ?_, disk⟩
  · rw [← ext.sb]
    exact work.blocks
  · rw [disk i inside]
    split
    · rename_i here
      rw [here, copy]
    · rfl

/-! ## Writing an inode back -/

/-- The kernel after `iupdate p` has logged the inode block. -/
def Kernel.synced (k : Kernel) (p : IPtr) : Kernel :=
  k.put (k.sb.iblock (k.icache p).inum)
    ((k.icache p).dinode.put (k.store (k.sb.iblock (k.icache p).inum))
      (inodeOffset (k.icache p).inum))

theorem iupdate_wp {Q : Unit → Kernel → Prop}
    (ok : k.log.Room → Q () (k.synced p)) :
    wp (iupdate p) Q Harmless k := by
  unfold iupdate
  simp only [wp_bind, wp_get]
  exact logWrite_wp fun room _ => ok room

/-- Writing an inode back changes no mark. -/
theorem used_synced (layout : k.sb.Layout) (area : (k.icache p).inum < k.sb.icap) {b : Nat}
    (inside : b < k.sb.size) : k.sb.used (k.synced p).store b = k.sb.used k.store b := by
  have block := layout.iblock area
  have bitmap := layout.bblock inside
  refine k.sb.used_congr k.store ?_
  rw [Kernel.synced, Kernel.store_put, update_of_ne (by omega)]

/-- After `iupdate`, the disk holds what the holder saw. -/
theorem disk_synced (k : Kernel) (p : IPtr) : (k.synced p).disk = k.cur p := by
  funext i
  rw [Kernel.disk, Kernel.synced, Kernel.store_put, Kernel.sb_put, Superblock.dinode_put,
    Kernel.cur]
  by_cases here : i = (k.icache p).inum
  · subst here
    simp
  · rw [if_neg here, update_of_ne here]

theorem cur_synced (k : Kernel) (p : IPtr) : (k.synced p).cur p = k.cur p := by
  have own : (k.synced p).cur p =
      update (k.synced p).disk (k.icache p).inum (k.icache p).dinode := rfl
  rw [own, disk_synced, Kernel.cur, update_idem]

section Synced

variable (blocks : Blocks k.sb k.store (k.cur p)) (area : (k.icache p).inum < k.sb.icap)

include blocks area

theorem blocks_synced : Blocks (k.synced p).sb (k.synced p).store (k.synced p).disk := by
  rw [disk_synced, Kernel.synced, Kernel.sb_put, Kernel.store_put]
  exact blocks.inode area

theorem block_synced : (k.synced p).block = k.blk p := by
  funext i q
  rw [Kernel.block, disk_synced, Kernel.synced, Kernel.sb_put, Kernel.store_put]
  exact blockAt_inode blocks area i q

theorem content_synced : (k.synced p).content = k.bytes p := by
  funext i
  rw [Kernel.content, disk_synced, Kernel.synced, Kernel.sb_put, Kernel.store_put,
    contents_inode blocks area]
  rfl

theorem log_synced (log : k.LogOk)
    (room : k.log.Room) :
    (k.synced p).LogOk := by
  have block := blocks.layout.iblock area
  have := blocks.layout.data
  have := k.sb.datastart_gt
  exact log.put _ (by omega) room

end Synced

/-! ## Changing an inode in memory -/

/-- The entry of the inode cache behind `p` gets new contents. -/
def Kernel.edit (k : Kernel) (p : IPtr) (d : Dinode) : Kernel :=
  k.setInode p { k.icache p with dinode := d }

@[simp] theorem icache_edit (k : Kernel) (p : IPtr) (d : Dinode) :
    (k.edit p d).icache p = { k.icache p with dinode := d } := by
  simp [Kernel.edit]

theorem icache_edit_ne (k : Kernel) {q : IPtr} (other : q ≠ p) (d : Dinode) :
    (k.edit p d).icache q = k.icache q := by
  simp [Kernel.edit, other]

theorem cur_edit (k : Kernel) (p : IPtr) (d : Dinode) :
    (k.edit p d).cur p = update (k.cur p) (k.icache p).inum d := by
  simp only [Kernel.cur, Kernel.edit, Kernel.store_setInode, Kernel.sb_setInode,
    Kernel.icache_setInode, update_self, update_idem]

theorem log_edit (log : k.LogOk) (d : Dinode) : (k.edit p d).LogOk :=
  ⟨log.start, log.size, log.idle, log.distinct, log.home, log.fits, log.short⟩

section Edit

variable (area : (k.icache p).inum < k.sb.icap) {d : Dinode}
  (addrs : d.addrs = (k.icache p).dinode.addrs)

include addrs

theorem blocks_edit (blocks : Blocks k.sb k.store (k.cur p)) (free : d.type = 0 → d.addrs 0 = 0)
    (headed : d.size ≠ 0 → d.addrs 0 ≠ 0) :
    Blocks (k.edit p d).sb (k.edit p d).store ((k.edit p d).cur p) := by
  rw [cur_edit]
  exact blocks.fields (by rw [addrs]; simp [Kernel.cur]) free headed

include area

theorem heads_edit : k.sb.heads ((k.edit p d).cur p) = k.sb.heads (k.cur p) := by
  rw [cur_edit, heads_update area, addrs]
  funext i
  by_cases here : i = (k.icache p).inum
  · subst here
    simp [Superblock.heads, area, Kernel.cur]
  · rw [update_of_ne here]

/-- New contents with the old addresses leave the chains as they are. -/
theorem blk_edit : (k.edit p d).blk p = k.blk p := by
  funext i q
  show k.sb.blockAt k.store ((k.edit p d).cur p) i q = _
  rw [blockAt_heads (heads_edit area addrs)]
  rfl

theorem bytes_edit : (k.edit p d).bytes p = k.bytes p := by
  funext i
  show k.sb.contents k.store ((k.edit p d).cur p) i = _
  rw [contents_heads (heads_edit area addrs)]
  rfl

end Edit

/-! ## The calls -/

/-- A data block that has become marked in use is in a chain. -/
def Marks (k k' : Kernel) : Prop :=
  ∀ b, k.sb.DataBlock k'.store b → k.sb.used k.store b = true ∨ ∃ i q, k'.block i q = b

theorem Marks.refl (k : Kernel) : Marks k k :=
  fun _ data => .inl data.used

theorem Marks.trans {k'' : Kernel} (first : Marks k k') (second : Marks k' k'') (sb : k'.sb = k.sb)
    (keeps : ∀ i q, k'.block i q ≠ 0 → k''.block i q = k'.block i q) : Marks k k'' := by
  intro b data
  have nonzero : b ≠ 0 := by
    have := k.sb.datastart_gt
    have := data.low
    omega
  rcases second b (by rw [sb]; exact data) with old | there
  · rw [sb] at old
    refine (first b ⟨data.low, data.high, old⟩).imp_right fun ⟨i, q, here⟩ => ⟨i, q, ?_⟩
    rw [keeps i q (here ▸ nonzero), here]
  · exact .inr there

theorem Extends.allMarks {touched : Nat → Prop} (ext : Extends p touched k k')
    (blk : k'.blk p = k'.block) : Marks k k' := by
  intro b data
  rw [← blk]
  exact (ext.marks b data).imp_right fun here => ⟨_, here⟩

/-- A call that may let chains grow, but changes no inode and no byte. -/
structure Quiet (k k' : Kernel) : Prop where
  ok : k'.Ok
  sb : k'.sb = k.sb
  icache : k'.icache = k.icache
  disk : ∀ i < k.sb.icap, k'.disk i = k.disk i
  content : ∀ i, k'.content i = k.content i
  keeps : ∀ i q, k.block i q ≠ 0 → k'.block i q = k.block i q
  marks : Marks k k'

theorem Quiet.refl (ok : k.Ok) : Quiet k k :=
  ⟨ok, rfl, rfl, fun _ _ => rfl, fun _ => rfl, fun _ _ _ => rfl, Marks.refl k⟩

theorem Quiet.trans {k'' : Kernel} (first : Quiet k k') (second : Quiet k' k'') : Quiet k k'' := by
  refine ⟨second.ok, second.sb.trans first.sb, second.icache.trans first.icache, fun i area => ?_,
    fun i => (second.content i).trans (first.content i), fun i q there => ?_,
    first.marks.trans second.marks first.sb second.keeps⟩
  · rw [second.disk i (first.sb ▸ area), first.disk i area]
  · have kept := first.keeps i q there
    rw [second.keeps i q (kept ▸ there), kept]

theorem Kernel.Ok.quiet (ok : k.Ok) (held : (k.icache p).locked = true) (steady : Steady p k k')
    (same : k'.icache p = k.icache p) : Quiet k k' := by
  obtain ⟨ok', disk⟩ := ok.extend held steady.working steady.ext same
  have held' : (k'.icache p).locked = true := by rw [same]; exact held
  refine ⟨ok', steady.ext.sb, ?_, disk, fun i => ?_, fun i q there => ?_,
    steady.ext.allMarks (ok'.blk held')⟩
  · funext q
    by_cases eq : q = p
    · rw [eq, same]
    · exact steady.ext.others q eq
  · rw [← ok'.bytes held', ← ok.bytes held, steady.bytes]
  · rw [← ok'.blk held', ← ok.blk held]
    exact steady.ext.keeps i q (by rw [ok.blk held]; exact there)

/-- What `readi` returns: bytes of the inode, cut off at its size. -/
def ReadOutcome (k : Kernel) (p : IPtr) (off n : UInt32) : Io (List UInt8) → Prop
  | .done data => off.toNat ≤ k.size (k.icache p).inum ∧
      data = (k.content (k.icache p).inum).slice off.toNat
        (min n.toNat (k.size (k.icache p).inum - off.toNat))
  | _ => True

/-- The length `readi` works with. -/
theorem clip {off n size : UInt32} (inside : off ≤ size) (wraps : ¬ off + n < off) :
    (if off + n > size then size - off else n).toNat = min n.toNat (size.toNat - off.toNat) := by
  rw [UInt32.le_iff_toNat_le] at inside
  rw [UInt32.lt_iff_toNat_lt, UInt32.toNat_add] at wraps
  have := off.toNat_lt
  have := n.toNat_lt
  have := size.toNat_lt
  split
  · rename_i past
    rw [gt_iff_lt, UInt32.lt_iff_toNat_lt, UInt32.toNat_add] at past
    rw [UInt32.toNat_sub_of_le _ _ inside]
    omega
  · rename_i past
    rw [gt_iff_lt, UInt32.lt_iff_toNat_lt, UInt32.toNat_add] at past
    omega

theorem readi_spec (ok : k.Ok) (held : (k.icache p).locked = true) (off n : UInt32) :
    wp (readi p off n) (fun r k' => Quiet k k' ∧ ReadOutcome k p off n r) Harmless k := by
  obtain ⟨ref, valid⟩ := ok.locked p held
  obtain ⟨area, copy, -⟩ := ok.cache p ref valid
  have size : (k.icache p).dinode.size.toNat = k.size (k.icache p).inum := by
    rw [copy]
    rfl
  unfold readi
  simp only [wp_bind, wp_get]
  refine wp_ite (fun _ => ?_) fun _ => wp_ite (fun _ => ⟨Quiet.refl ok, trivial⟩)
    fun inside => ?_
  · refine ⟨Quiet.refl ok, ?_⟩
    unfold toDevice
    split <;> trivial
  obtain ⟨within, wraps⟩ := not_or.mp inside
  have clipped := clip (UInt32.not_lt.mp within) wraps
  rw [size] at clipped
  have low : off.toNat ≤ k.size (k.icache p).inum := by
    rw [← size]
    exact UInt32.le_iff_toNat_le.mp (UInt32.not_lt.mp within)
  rw [wp_bind, clipped]
  generalize len : min n.toNat (k.size (k.icache p).inum - off.toNat) = m
  by_cases none_left : m = 0
  · -- nothing is read, so `bmap` is not called
    subst none_left
    unfold readLoop
    exact ⟨Quiet.refl ok, low, by rw [len]; rfl⟩
  · have head : (k.icache p).dinode.addrs 0 ≠ 0 := by
      rw [copy]
      refine ok.blocks.headed _ area fun zero => ?_
      have : k.size (k.icache p).inum = 0 := by
        rw [Kernel.size, zero]
        rfl
      omega
    refine wp_post (readLoop_spec (ok.working held) off.toNat m) ?_
    rintro data k' ⟨steady, bytes⟩
    rw [wp_pure]
    refine ⟨ok.quiet held steady (steady.ext.inode_same area head), low, ?_⟩
    rw [len, bytes, ok.bytes held]

/-- The bytes, sizes and chains after `n` bytes have been written at `off`. -/
structure Stored (p : IPtr) (src : Bytes) (off n : Nat) (k k' : Kernel) : Prop where
  ok : k'.Ok
  sb : k'.sb = k.sb
  others : ∀ q, q ≠ p → k'.icache q = k.icache q
  /-- The holder's inode keeps everything but its size and its first block. -/
  inode : ∃ size h, k'.icache p = { k.icache p with
    dinode := { (k.icache p).dinode with
      size := size, addrs := update (k.icache p).dinode.addrs 0 h } }
  disk : ∀ i < k.sb.icap, i ≠ (k.icache p).inum → k'.disk i = k.disk i
  size : k'.size (k.icache p).inum = max (k.size (k.icache p).inum) (off + n)
  content : k'.content = overwrite k.content (k.icache p).inum src off n
  keeps : ∀ i q, k.block i q ≠ 0 → k'.block i q = k.block i q
  there : ∀ m, Spans off n m → k'.block (k.icache p).inum (.item m) ≠ 0
  outstanding : k'.log.outstanding = k.log.outstanding
  marks : Marks k k'

/-- What `writei` does, by what it returns. -/
def WriteOutcome (k : Kernel) (p : IPtr) (src : Bytes) (off n : UInt32) : Io UInt32 → Kernel → Prop
  | .done m, k' => m = n ∧ off.toNat ≤ k.size (k.icache p).inum ∧
      off.toNat + n.toNat ≤ maxfile * bsize ∧ Stored p src off.toNat n.toNat k k'
  | _, k' => k' = k

/-- The end of `writei`, when the write has gone past the end of the file. -/
theorem setSize_grown {src : Bytes} {off n : Nat} {size : UInt32} {k₁ : Kernel} (ok : k.Ok)
    (held : (k.icache p).locked = true) (wrote : Wrote p src off n k k₁) (some_bytes : 0 < n)
    (width : size.toNat = off + n) (grown : k.size (k.icache p).inum < off + n)
    (room : k₁.log.Room) :
    Stored p src off n k ((k₁.edit p { (k₁.icache p).dinode with size := size }).synced p) := by
  obtain ⟨work, ext, bytes, there, -⟩ := wrote
  obtain ⟨h, inode⟩ := ext.inode
  have inum := ext.inum
  have area : (k.icache p).inum < k.sb.icap := by
    rw [← inum, ← ext.sb]
    exact work.area
  have head : (k₁.icache p).dinode.addrs 0 ≠ 0 := by
    intro zero
    have item := there (off / bsize) ⟨off, Nat.le_refl off, by omega, rfl⟩
    have first := Chain.idx_ne_zero_of_le (Nat.zero_le _) (Kernel.blk_index (j := _) rfl item)
    refine first ?_
    simp [idx, Superblock.heads, Kernel.cur, inum, zero]
  generalize new : { (k₁.icache p).dinode with size := size } = d
  have addrs : d.addrs = (k₁.icache p).dinode.addrs := by rw [← new]
  have typed : d.type ≠ 0 := by rw [← new]; exact work.typed
  have area₂ : ((k₁.edit p d).icache p).inum < (k₁.edit p d).sb.icap := by
    rw [icache_edit]
    exact work.area
  have blocks₂ := blocks_edit addrs work.blocks (fun zero => absurd zero typed)
    fun _ => by rwa [addrs]
  have disk' : ∀ i < k.sb.icap, ((k₁.edit p d).synced p).disk i =
      if i = (k.icache p).inum then d else k.disk i := by
    intro i inside
    rw [disk_synced, cur_edit, inum]
    by_cases here : i = (k.icache p).inum
    · subst here
      simp
    · rw [if_neg here, update_of_ne here, Kernel.cur, inum, update_of_ne here, ext.sb]
      exact ext.dinodes i inside
  have others : ∀ q, q ≠ p → ((k₁.edit p d).synced p).icache q = k.icache q := by
    intro q other
    show (k₁.edit p d).icache q = _
    rw [icache_edit_ne k₁ other, ext.others q other]
  have inode' : ((k₁.edit p d).synced p).icache p = { k.icache p with dinode := d } := by
    show (k₁.edit p d).icache p = _
    rw [icache_edit, inode]
  refine ⟨?_, ext.sb, others, ⟨size, h, ?_⟩, fun i inside other => ?_, ?_, ?_,
    fun i q there' => ?_, fun m span => ?_, ext.outstanding, fun b data => ?_⟩
  · refine ok.resync held ext.sb others inode' typed ?_
      (log_synced blocks₂ area₂ (log_edit work.log d) room) disk'
    have := blocks_synced blocks₂ area₂
    rw [disk_synced, ← cur_synced] at this
    rwa [show ((k₁.edit p d).synced p).sb = k.sb from ext.sb] at this
  · rw [inode', ← new, inode]
  · rw [disk' i inside, if_neg other]
  · rw [Kernel.size, disk' _ area, if_pos rfl, ← new, width]
    omega
  · rw [content_synced blocks₂ area₂, bytes_edit work.area addrs, bytes, ok.bytes held]
  · rw [block_synced blocks₂ area₂, blk_edit work.area addrs, ← ok.blk held]
    exact ext.keeps i q (by rw [ok.blk held]; exact there')
  · rw [block_synced blocks₂ area₂, blk_edit work.area addrs]
    exact there m span
  · rw [block_synced blocks₂ area₂, blk_edit work.area addrs]
    refine (ext.marks b ⟨data.low, data.high, ?_⟩).imp_right fun here => ⟨_, here⟩
    have kept := used_synced blocks₂.layout area₂ (ext.sb ▸ data.high)
    rw [show (k₁.edit p d).sb = k.sb from ext.sb] at kept
    exact kept.symm.trans data.used

/-- The end of `writei`, when the write has stayed inside the file. -/
theorem setSize_kept {src : Bytes} {off n : Nat} {k₁ : Kernel} (ok : k.Ok)
    (held : (k.icache p).locked = true) (wrote : Wrote p src off n k k₁) (some_bytes : 0 < n)
    (inside : off + n ≤ k.size (k.icache p).inum) : Stored p src off n k k₁ := by
  obtain ⟨work, ext, bytes, there, -⟩ := wrote
  obtain ⟨ref, valid⟩ := ok.locked p held
  obtain ⟨area, copy, -⟩ := ok.cache p ref valid
  have head : (k.icache p).dinode.addrs 0 ≠ 0 := by
    rw [copy]
    refine ok.blocks.headed _ area fun zero => ?_
    have : k.size (k.icache p).inum = 0 := by
      rw [Kernel.size, zero]
      rfl
    omega
  have same := ext.inode_same area head
  obtain ⟨ok', disk⟩ := ok.extend held work ext same
  have held' : (k₁.icache p).locked = true := by rw [same]; exact held
  refine ⟨ok', ext.sb, ext.others, ⟨(k.icache p).dinode.size, (k.icache p).dinode.addrs 0, ?_⟩,
    fun i area _ => disk i area, ?_, ?_, fun i q there' => ?_, fun m span => ?_,
    ext.outstanding, ext.allMarks (ok'.blk held')⟩
  · rw [same]
    simp
  · rw [Kernel.size, disk _ area]
    exact (Nat.max_eq_left inside).symm
  · rw [← ok'.bytes held', bytes, ok.bytes held]
  · rw [← ok'.blk held', ← ok.blk held]
    exact ext.keeps i q (by rw [ok.blk held]; exact there')
  · rw [← ok'.blk held']
    exact there m span

/-- A write of no bytes. -/
theorem Stored.refl (ok : k.Ok) (src : Bytes) {off : Nat}
    (inside : off ≤ k.size (k.icache p).inum) : Stored p src off 0 k k := by
  refine ⟨ok, rfl, fun _ _ => rfl, ⟨(k.icache p).dinode.size, (k.icache p).dinode.addrs 0, ?_⟩,
    fun _ _ _ => rfl, ?_, ?_, fun _ _ _ => rfl, fun m ⟨o, low, high, _⟩ => ?_, rfl, Marks.refl k⟩
  · simp
  · omega
  · rw [overwrite, Bytes.copy_zero, update_eq_self]
  · omega

theorem writei_spec (ok : k.Ok) (held : (k.icache p).locked = true) (src : Bytes)
    (off n : UInt32) : wp (writei p src off n) (WriteOutcome k p src off n) Harmless k := by
  obtain ⟨ref, valid⟩ := ok.locked p held
  obtain ⟨area, copy, -⟩ := ok.cache p ref valid
  have size : (k.icache p).dinode.size.toNat = k.size (k.icache p).inum := by
    rw [copy]
    rfl
  unfold writei
  simp only [wp_bind, wp_get]
  refine wp_ite (fun _ => ?_) fun _ => wp_ite (fun _ => rfl) fun inside =>
    wp_ite (fun _ => rfl) fun fits => ?_
  · rw [wp_pure]
    unfold toDevice
    split <;> rfl
  obtain ⟨within, wraps⟩ := not_or.mp inside
  have low : off.toNat ≤ k.size (k.icache p).inum := by
    rw [← size]
    exact UInt32.le_iff_toNat_le.mp (UInt32.not_lt.mp within)
  have total : (off + n).toNat = off.toNat + n.toNat := by
    rw [UInt32.lt_iff_toNat_lt, UInt32.toNat_add] at wraps
    rw [UInt32.toNat_add]
    have := off.toNat_lt
    have := n.toNat_lt
    omega
  have bound : off.toNat + n.toNat ≤ maxfile * bsize := by
    rw [gt_iff_lt, UInt32.lt_iff_toNat_lt, total] at fits
    exact Nat.not_lt.mp fits
  refine wp_ite (fun none_left => ?_) fun some_left => ?_
  · subst none_left
    exact ⟨rfl, low, bound, Stored.refl ok src low⟩
  · have some_bytes : 0 < n.toNat := by
      refine Nat.pos_of_ne_zero fun zero => some_left (UInt32.toNat_inj.mp zero)
    refine wp_seq (writeLoop_spec (ok.working held) src off.toNat n.toNat) ?_
    intro _ k₁ wrote
    have kept : (k₁.icache p).dinode.size = (k.icache p).dinode.size := by
      obtain ⟨h, inode⟩ := wrote.ext.inode
      rw [inode]
    unfold setSize
    simp only [wp_bind, wp_get]
    refine wp_ite (fun grown => ?_) fun not_grown => ?_
    · rw [wp_bind, wp_modify]
      refine iupdate_wp fun room => ⟨rfl, low, bound, ?_⟩
      refine setSize_grown ok held wrote some_bytes total ?_ room
      rw [kept, gt_iff_lt, UInt32.lt_iff_toNat_lt, total, size] at grown
      exact grown
    · refine ⟨rfl, low, bound, setSize_kept ok held wrote some_bytes ?_⟩
      rw [kept, gt_iff_lt, UInt32.lt_iff_toNat_lt, total, size] at not_grown
      exact Nat.not_lt.mp not_grown

end Between

end BasicOS
