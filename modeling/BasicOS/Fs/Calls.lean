/-
# BasicOS.Fs.Calls — every call of fs.c keeps the file system in order

One lemma for each call: from a state in order, called as fs.c expects to be
called, it ends in a state in order (`Sound`), or it stops, and never with the
panic of `bfree`.  `Covered` says that the blocks below an inode's size are all
there; every call keeps that too.
-/
import BasicOS.Fs.File
import BasicOS.Fs.Dir

namespace BasicOS

open Lib Function
open Lib.Chain (Pos addr idx Placed Fresh)
open Lib.Prog

set_option autoImplicit false

/-- Every block below the size of an inode is there. -/
def Kernel.Covered (k : Kernel) : Prop :=
  ∀ i < k.sb.icap, ∀ n, n * bsize < k.size i → k.block i (.item n) ≠ 0

/-- What every call keeps. -/
structure Sound (k k' : Kernel) : Prop where
  ok : k'.Ok
  sb : k'.sb = k.sb
  covered : k.Covered → k'.Covered

/-- Every block stays in its chain, and what is newly in use is in one. -/
structure Grows (k k' : Kernel) : Prop extends Sound k k' where
  keeps : ∀ i q, k.block i q ≠ 0 → k'.block i q = k.block i q
  marks : Marks k k'

section

variable {k k' k'' : Kernel} {p : IPtr}

theorem Grows.trans (first : Grows k k') (second : Grows k' k'') : Grows k k'' where
  toSound := ⟨second.ok, second.sb.trans first.sb, fun h => second.covered (first.covered h)⟩
  keeps i q there := by
    have same := first.keeps i q there
    rw [second.keeps i q (by rwa [same]), same]
  marks := first.marks.trans second.marks first.sb second.keeps

/-- A change of the inode cache. -/
theorem Sound.grows {ip : Inode} (sound : Sound k (k.setInode p ip)) :
    Grows k (k.setInode p ip) :=
  ⟨sound, fun _ _ _ => rfl, Marks.refl k⟩

theorem Sound.refl (ok : k.Ok) : Sound k k :=
  ⟨ok, rfl, id⟩

theorem Sound.trans (first : Sound k k') (second : Sound k' k'') : Sound k k'' :=
  ⟨second.ok, second.sb.trans first.sb, fun h => second.covered (first.covered h)⟩

/-- Inodes keep their size and their blocks, or have size zero. -/
theorem covered_of (sb : k'.sb = k.sb)
    (inodes : ∀ i < k.sb.icap, k'.size i = 0 ∨
      k'.size i = k.size i ∧ ∀ n, k.block i (.item n) ≠ 0 → k'.block i (.item n) ≠ 0)
    (covered : k.Covered) : k'.Covered := by
  intro i area n inside
  rw [sb] at area
  rcases inodes i area with empty | ⟨size, keeps⟩
  · omega
  · exact keeps n (covered i area n (size ▸ inside))

theorem Quiet.size (quiet : Quiet k k') {i : Nat} (area : i < k.sb.icap) :
    k'.size i = k.size i := by
  rw [Kernel.size, quiet.disk i area, Kernel.size]

theorem Quiet.sound (quiet : Quiet k k') : Sound k k' :=
  ⟨quiet.ok, quiet.sb, covered_of quiet.sb fun i area => .inr ⟨quiet.size area, fun n there => by
    rwa [quiet.keeps i _ there]⟩⟩

theorem Quiet.grows (quiet : Quiet k k') : Grows k k' :=
  ⟨quiet.sound, quiet.keeps, quiet.marks⟩

theorem Stored.sound {src : Bytes} {off n : Nat} (stored : Stored p src off n k k')
    (inside : off ≤ k.size (k.icache p).inum) : Sound k k' := by
  refine ⟨stored.ok, stored.sb, fun covered i area m below => ?_⟩
  rw [stored.sb] at area
  by_cases mine : i = (k.icache p).inum
  · subst mine
    rw [stored.size] at below
    by_cases old : m * bsize < k.size (k.icache p).inum
    · have there := covered _ area m old
      rwa [stored.keeps _ _ there]
    · -- past the old end, so in the range that was written
      exact stored.there m ⟨m * bsize, by omega, by omega, Nat.mul_div_cancel m bsize_pos⟩
  · have size : k'.size i = k.size i := by rw [Kernel.size, stored.disk i area mine, Kernel.size]
    have there := covered i area m (size ▸ below)
    rwa [stored.keeps i _ there]

/-! ## Changes outside the chains -/

/-- A call that leaves the superblock, the inodes, the free map and the data
blocks alone. -/
theorem Kernel.Ok.frame (ok : k.Ok) (sb : k'.sb = k.sb) (icache : k'.icache = k.icache)
    (log : k'.LogOk) (super : k'.store 1 = k.store 1)
    (store : ∀ b, k.sb.inodestart ≤ b → k'.store b = k.store b) : Quiet k k' := by
  have order := ok.blocks.layout.inodes
  have past := k.sb.datastart_gt
  have disk : ∀ i < k.sb.icap, k'.disk i = k.disk i := by
    intro i area
    have block := ok.blocks.layout.iblock area
    rw [Kernel.disk, sb]
    exact k.sb.dinode_congr k.store (store _ (by omega))
  have owned : ∀ i q, k.block i q ≠ 0 → k'.store (k.block i q) = k.store (k.block i q) := by
    intro i q there
    have low := (ok.blocks.owned there).low
    exact store _ (by unfold Kernel.block; omega)
  have block : ∀ i q, k'.block i q = k.block i q := by
    intro i q
    rw [Kernel.block, sb, blockAt_heads (heads_congr disk)]
    exact blockAt_congr (fun j there => owned i (.index j) there) q
  refine ⟨⟨?_, log, ?_, ?_, ?_⟩, sb, icache, disk, fun i => ?_, fun i q _ => block i q,
    fun b data => .inl ?_⟩
  · rw [sb]
    refine (ok.blocks.frame super (fun b bound => ?_) fun i j there => ?_).congr_cur disk
    · have := (ok.blocks.layout.bblock bound).1
      exact store _ (by omega)
    · exact owned i (.index j) there
  · intro q used valid
    rw [icache] at used valid ⊢
    obtain ⟨area, copy, typed⟩ := ok.cache q used valid
    rw [sb, disk _ area]
    exact ⟨area, copy, typed⟩
  · rw [icache]
    exact ok.unique
  · rw [icache]
    exact ok.locked
  · funext o
    have same := block i (.item (o / bsize))
    unfold Kernel.content Superblock.contents
    unfold Kernel.block at same owned
    rw [sb] at same ⊢
    rw [same]
    split
    · rfl
    · rename_i there
      rw [owned i _ there]
  · have := ok.blocks.layout.bblock data.high
    rw [← data.used]
    exact (k.sb.used_congr k.store (store _ (by omega))).symm

theorem beginOp_spec (ok : k.Ok) : wp beginOp (fun _ k' => Quiet k k') Harmless k := by
  unfold beginOp
  simp only [wp_bind, wp_get]
  cases admitted : k.log.beginOp with
  | none => simp [Harmless]
  | some log =>
    rw [wp_set]
    have fields : log = { k.log with outstanding := k.log.outstanding + 1 } := by
      unfold Log.beginOp at admitted
      split at admitted
      · cases admitted
      · split at admitted
        · cases admitted
        · exact (Option.some.inj admitted).symm
    refine ok.frame rfl rfl ?_ rfl fun _ _ => rfl
    subst fields
    exact ⟨ok.log.start, ok.log.size, ok.log.idle, ok.log.distinct, ok.log.home, ok.log.fits,
      ok.log.short⟩

theorem endOp_spec (ok : k.Ok) : wp endOp (fun _ k' => Quiet k k') Harmless k := by
  unfold endOp
  simp only [wp_bind, wp_get, Log.endOp, ok.log.idle]
  by_cases last : k.log.outstanding - 1 = 0
  · simp only [Bool.false_eq_true, if_false, if_pos last, wp_set]
    -- the commit writes the log area and the blocks of the transaction
    have home : ∀ b, b = 1 ∨ k.sb.inodestart ≤ b →
        (exec (commit { k.log with outstanding := k.log.outstanding - 1, committing := true })
          k.dev).bread b = k.dev.bread b := by
      intro b which
      have boot := ok.blocks.layout.boot
      have header := ok.blocks.layout.header
      have area := ok.blocks.layout.log
      have fits := ok.log.fits
      have start := ok.log.start
      refine bread_commit ok.log.distinct (fun c mem => ?_) ?_
      · have := ok.log.home c mem
        show c < k.log.start ∨ k.log.start + k.log.lh.length < c
        omega
      · show b < k.log.start ∨ k.log.start + k.log.lh.length < b
        omega
    refine ok.frame rfl rfl ?_ (home 1 (.inl rfl)) fun b low => home b (.inr low)
    exact ⟨ok.log.start, ok.log.size, rfl, List.nodup_nil, by simp, by simp, by simp⟩
  · simp only [Bool.false_eq_true, if_false, if_neg last, wp_set]
    exact ok.frame rfl rfl ⟨ok.log.start, ok.log.size, rfl, ok.log.distinct, ok.log.home,
      ok.log.fits, ok.log.short⟩ rfl fun _ _ => rfl

/-! ## The inode cache -/

/-- A change of one entry of the inode cache. -/
theorem Kernel.Ok.setInode (ok : k.Ok) {ip : Inode}
    (cache : 0 < ip.ref → ip.valid = true → ip.inum < k.sb.icap ∧
      ip.dinode = k.disk ip.inum ∧ ip.dinode.type ≠ 0)
    (unique : 0 < ip.ref → ∀ q ≠ p, 0 < (k.icache q).ref → (k.icache q).inum ≠ ip.inum)
    (locked : ip.locked = true → 0 < ip.ref ∧ ip.valid = true) :
    Sound k (k.setInode p ip) := by
  have log := ok.log
  refine ⟨⟨ok.blocks, ⟨log.start, log.size, log.idle, log.distinct, log.home, log.fits,
    log.short⟩, fun q => ?_, fun q r => ?_, fun q => ?_⟩, rfl, fun covered => covered⟩
  · by_cases here : q = p
    · subst here
      simp only [Kernel.icache_setInode, update_self]
      exact cache
    · simp only [Kernel.icache_setInode, update_of_ne here]
      exact ok.cache q
  · simp only [Kernel.icache_setInode]
    by_cases first : q = p
    · by_cases second : r = p
      · rw [first, second]
        exact fun _ _ _ => rfl
      · subst first
        rw [update_self, update_of_ne second]
        exact fun used used' same => absurd same.symm (unique used r second used')
    · by_cases second : r = p
      · subst second
        rw [update_self, update_of_ne first]
        exact fun used used' same => absurd same (unique used' q first used)
      · rw [update_of_ne first, update_of_ne second]
        exact ok.unique q r
  · by_cases here : q = p
    · subst here
      simp only [Kernel.icache_setInode, update_self]
      exact locked
    · simp only [Kernel.icache_setInode, update_of_ne here]
      exact ok.locked q

/-- A change of the reference count of an entry in use. -/
theorem Kernel.Ok.setRef (ok : k.Ok) (used : 0 < (k.icache p).ref) {ref : Nat}
    (held : (k.icache p).locked = true → 0 < ref) :
    Sound k (k.setInode p { k.icache p with ref }) :=
  ok.setInode (fun _ => ok.cache p used) (fun _ q other used' same => other
    (ok.unique q p used' used same)) fun locked => ⟨held locked, (ok.locked p locked).2⟩

/-- What `iget` has done: one more reference to the cached inode, or an unused
entry taken for it. -/
structure Got (inum : Nat) (p : IPtr) (k k' : Kernel) : Prop where
  state : k' = k.setInode p (if 0 < (k.icache p).ref
    then { k.icache p with ref := (k.icache p).ref + 1 }
    else { k.icache p with inum, ref := 1, valid := false })
  cached : 0 < (k.icache p).ref → (k.icache p).inum = inum
  absent : (k.icache p).ref = 0 → ∀ q, 0 < (k.icache q).ref → (k.icache q).inum ≠ inum

/-- `iget` stops only when every entry of the cache is in use. -/
theorem iget_got (k : Kernel) (inum : Nat) :
    wp (iget inum) (fun p k' => Got inum p k k')
      (fun e => e = .panic "iget: no inodes" ∧ ∀ q, 0 < (k.icache q).ref) k := by
  unfold iget
  simp only [wp_bind, wp_get]
  cases cached : (List.finRange ninode).find?
      fun p => decide (0 < (k.icache p).ref ∧ (k.icache p).inum = inum) with
  | some p =>
    obtain ⟨used, same⟩ : 0 < (k.icache p).ref ∧ (k.icache p).inum = inum := by
      simpa using List.find?_some cached
    simp only [wp_bind, wp_set, wp_pure]
    exact ⟨by rw [if_pos used], fun _ => same, fun free => by omega⟩
  | none =>
    have absent : ∀ q, 0 < (k.icache q).ref → (k.icache q).inum ≠ inum := by
      intro q used same
      have := List.find?_eq_none.mp cached q (List.mem_finRange q)
      simp [used, same] at this
    cases empty : (List.finRange ninode).find? fun p => decide ((k.icache p).ref = 0) with
    | none =>
      refine ⟨rfl, fun q => Nat.pos_of_ne_zero fun free => ?_⟩
      have := List.find?_eq_none.mp empty q (List.mem_finRange q)
      simp [free] at this
    | some p =>
      have free : (k.icache p).ref = 0 := by simpa using List.find?_some empty
      simp only [wp_bind, wp_set, wp_pure]
      exact ⟨by rw [if_neg (by omega)], fun used => by omega, fun _ => absent⟩

section Got

variable {i : Nat} (got : Got i p k k')

include got

theorem Got.others {q : IPtr} (other : q ≠ p) : k'.icache q = k.icache q := by
  rw [got.state, Kernel.icache_setInode, update_of_ne other]

theorem Got.ref : (k'.icache p).ref = (k.icache p).ref + 1 := by
  rw [got.state, Kernel.icache_setInode, update_self]
  split
  · rfl
  · show 1 = _
    omega

theorem Got.inum : (k'.icache p).inum = i := by
  rw [got.state, Kernel.icache_setInode, update_self]
  split
  · next used => exact got.cached used
  · rfl

theorem Got.locked : (k'.icache p).locked = (k.icache p).locked := by
  rw [got.state, Kernel.icache_setInode, update_self]
  split <;> rfl

theorem Got.log : k'.log = k.log := by
  rw [got.state]
  rfl

/-- A first reference has not read the inode. -/
theorem Got.unread (free : (k.icache p).ref = 0) : (k'.icache p).valid = false := by
  rw [got.state, Kernel.icache_setInode, update_self, if_neg (by omega)]

theorem Got.sound (ok : k.Ok) : Sound k k' := by
  rw [got.state]
  split
  · next used => exact ok.setRef used fun _ => Nat.succ_pos _
  · next free =>
      refine ok.setInode (fun _ valid => ?_) (fun _ q _ used => ?_) fun held => ?_
      · cases valid
      · exact got.absent (by omega) q used
      · exact absurd (ok.locked p held).1 free

theorem Got.grows (ok : k.Ok) : Grows k k' := by
  have sound := got.sound ok
  rw [got.state] at sound ⊢
  exact sound.grows

end Got

theorem iget_spec (k : Kernel) (inum : Nat) :
    wp (iget inum) (fun p k' => Got inum p k k') Harmless k := by
  refine wp_mono (iget_got k inum) (fun _ _ => id) ?_
  rintro _ ⟨rfl, -⟩
  simp [Harmless]

theorem ilock_spec (ok : k.Ok) (area : (k.icache p).inum < k.sb.icap) :
    wp (ilock p) (fun _ k' => Sound k k' ∧
      ∃ d, k' = k.setInode p { k.icache p with locked := true, valid := true, dinode := d })
      Harmless k := by
  unfold ilock
  simp only [wp_bind, wp_get]
  refine wp_ite (fun _ => by simp [Harmless]) fun used => ?_
  refine wp_ite (fun _ => by simp [Harmless]) fun _ => ?_
  have alone : ∀ q ≠ p, 0 < (k.icache q).ref → (k.icache q).inum ≠ (k.icache p).inum :=
    fun q other used' same => other (ok.unique q p used' (by omega) same)
  refine wp_ite (fun valid => ⟨?_, ?_⟩) fun _ => ?_
  · exact ok.setInode (fun used => ok.cache p used) (fun _ => alone)
      fun _ => ⟨by simp only; omega, valid⟩
  · exact ⟨(k.icache p).dinode, by rw [← valid]⟩
  · refine wp_ite (fun _ => by simp [Harmless]) fun typed => ⟨?_, _, rfl⟩
    exact ok.setInode (fun _ _ => ⟨area, rfl, typed⟩) (fun _ => alone)
      fun _ => ⟨by simp only; omega, rfl⟩

theorem iunlock_spec (ok : k.Ok) :
    wp (iunlock p) (fun _ k' => Sound k k' ∧
      k' = k.setInode p { k.icache p with locked := false }) Harmless k := by
  unfold iunlock
  simp only [wp_bind, wp_get]
  refine wp_ite (fun _ => by simp [Harmless]) fun held => ⟨?_, rfl⟩
  have used : 0 < (k.icache p).ref := by omega
  exact ok.setInode (fun used => ok.cache p used)
    (fun _ q other used' same => other (ok.unique q p used' used same)) fun no => by cases no

/-! ## Writing inodes -/

/-- A locked inode gets new fields, but keeps its size and addresses, and is
written back. -/
theorem Kernel.Ok.refield (ok : k.Ok) (held : (k.icache p).locked = true) {d : Dinode}
    (addrs : d.addrs = (k.icache p).dinode.addrs) (size : d.size = (k.icache p).dinode.size)
    (typed : d.type ≠ 0) (room : k.log.Room) :
    Grows k ((k.edit p d).synced p) := by
  obtain ⟨used, valid⟩ := ok.locked p held
  obtain ⟨area, copy, -⟩ := ok.cache p used valid
  have work := ok.working held
  have blocks := blocks_edit addrs work.blocks (fun zero => absurd zero typed) fun big => by
    rw [addrs, copy]
    rw [size, copy] at big
    exact ok.blocks.headed _ area big
  have area' : ((k.edit p d).icache p).inum < (k.edit p d).sb.icap := by
    rw [icache_edit]
    exact area
  have disk : ∀ i < k.sb.icap, ((k.edit p d).synced p).disk i =
      if i = (k.icache p).inum then d else k.disk i := by
    intro i _
    rw [disk_synced, cur_edit, ok.cur held, update_apply]
  have blocks' := blocks_synced blocks area'
  rw [disk_synced, ← cur_synced] at blocks'
  have block : ∀ i q, ((k.edit p d).synced p).block i q = k.block i q := by
    intro i q
    rw [block_synced blocks area', blk_edit area addrs, ok.blk held]
  refine ⟨⟨ok.resync held rfl (fun q other => icache_edit_ne k other d) (icache_edit k p d) typed
    blocks' (log_synced blocks area' (log_edit ok.log d) room) disk, rfl,
    covered_of rfl fun i inside => .inr ⟨?_, fun n => ?_⟩⟩, fun i q _ => block i q,
    fun b data => .inl ?_⟩
  · rw [Kernel.size, disk i inside]
    split
    · rename_i here
      rw [here, size, copy]
      rfl
    · rfl
  · rw [block]
    exact id
  · exact (used_synced (k := k.edit p d) blocks.layout area' data.high).symm.trans data.used

/-- The inode `ialloc` takes is in the inode blocks, and free. -/
theorem firstFreeInode_spec {sb : Superblock} {store : Nat → Block} {i : Nat}
    (layout : sb.Layout) (found : firstFreeInode sb store = some i) :
    i < sb.icap ∧ (sb.dinode store i).type = 0 := by
  have mem := List.mem_of_find?_eq_some found
  have free := List.find?_some found
  rw [List.mem_range'_1] at mem
  have := layout.ninodes
  exact ⟨by omega, by simpa using free⟩

section Fill

variable (ok : k.Ok) {i : Nat} (area : i < k.sb.icap) (free : (k.disk i).type = 0) {d : Dinode}
  (addrs : ∀ j, d.addrs j = 0)

theorem disk_fill (k : Kernel) (i : Nat) (d : Dinode) :
    (k.put (k.sb.iblock i) (d.put (k.store (k.sb.iblock i)) (inodeOffset i))).disk =
      update k.disk i d := by
  funext j
  rw [Kernel.disk, Kernel.store_put, Kernel.sb_put, Superblock.dinode_put, update_apply]
  rfl

include ok area free addrs

/-- A free inode has no blocks either. -/
theorem addrs_fill : d.addrs = (k.disk i).addrs := by
  funext j
  rw [addrs]
  by_cases first : j = 0
  · rw [first, ok.blocks.free i area free]
  · rw [ok.blocks.tail i area j first]

theorem block_fill :
    (k.put (k.sb.iblock i) (d.put (k.store (k.sb.iblock i)) (inodeOffset i))).block = k.block := by
  have heads : k.sb.heads (update k.disk i d) = k.sb.heads k.disk := by
    rw [heads_update area, addrs_fill ok area free addrs]
    funext j
    by_cases here : j = i
    · subst here
      simp [Superblock.heads, area]
    · rw [update_of_ne here]
  funext j q
  rw [Kernel.block, disk_fill, Kernel.sb_put, Kernel.store_put, blockAt_heads heads,
    blockAt_inode ok.blocks area]
  rfl

/-- An unused inode is replaced by one without blocks. -/
theorem Kernel.Ok.fill (size : d.size = 0)
    (room : k.log.Room) :
    Grows k (k.put (k.sb.iblock i) (d.put (k.store (k.sb.iblock i)) (inodeOffset i))) := by
  have same := addrs_fill ok area free addrs
  have disk := disk_fill k i d
  have block := ok.blocks.layout.iblock area
  have high := ok.blocks.layout.data
  have past := k.sb.datastart_gt
  refine ⟨⟨⟨?_, ok.log.put _ (by omega) room, fun q used valid => ?_, ok.unique, ok.locked⟩, rfl,
    covered_of rfl fun j inside => ?_⟩, fun j q _ => by rw [block_fill ok area free addrs],
    fun b data => .inl ?_⟩
  · rw [disk, Kernel.store_put, Kernel.sb_put]
    exact (ok.blocks.fields same (fun _ => addrs 0) fun big => absurd size big).inode area
  · obtain ⟨inside, copy, typed⟩ := ok.cache q used valid
    refine ⟨inside, ?_, typed⟩
    rw [Kernel.icache_put, disk, update_of_ne, copy]
    -- a valid entry is a copy of an allocated inode
    intro here
    rw [copy, here] at typed
    exact typed free
  · by_cases here : j = i
    · subst here
      left
      rw [Kernel.size, disk, update_self, size]
      rfl
    · right
      refine ⟨by rw [Kernel.size, disk, update_of_ne here, Kernel.size], fun n there => ?_⟩
      rw [block_fill ok area free addrs]
      exact there
  · -- the inode is not in the free map
    have bitmap := ok.blocks.layout.bblock data.high
    rw [← data.used, Kernel.store_put]
    exact (k.sb.used_congr k.store (update_of_ne (by omega) _ _)).symm

end Fill

theorem ialloc_spec (ok : k.Ok) (type : Int16) :
    wp (ialloc type) (fun _ k' => Grows k k') Harmless k := by
  unfold ialloc
  simp only [wp_bind, wp_get]
  cases found : firstFreeInode k.sb k.store with
  | none => simp [Harmless]
  | some inum =>
    obtain ⟨area, free⟩ := firstFreeInode_spec ok.blocks.layout found
    simp only [wp_bind]
    refine logWrite_wp fun room _ => ?_
    have filled := ok.fill area free (d := { Dinode.zero with type }) (fun _ => rfl) rfl room
    exact wp_post (iget_spec _ inum) fun _ _ got => filled.trans (got.grows filled.ok)

theorem ialloc_run {inum : Nat} (found : firstFreeInode k.sb k.store = some inum)
    (room : k.log.Room)
    (inside : 1 ≤ k.log.outstanding) (type : Int16) :
    ialloc type k = iget inum (k.put (k.sb.iblock inum)
      (Dinode.put { Dinode.zero with type } (k.store (k.sb.iblock inum)) (inodeOffset inum))) := by
  unfold ialloc
  rw [run_get, found]
  exact run_bind (logWrite_run _ _ room inside)

/-! ## Freeing an inode -/

theorem bfree_wp {cur : Nat → Dinode} {b : Nat} {Q : Unit → Kernel → Prop}
    (blocks : Blocks k.sb k.store cur) (used : k.sb.used k.store b = true)
    (ok : k.log.Room →
      Q () (k.put (k.sb.bblock b) ((k.store (k.sb.bblock b)).clearBit (b % bpb)))) :
    wp (bfree b) Q Harmless k := by
  unfold bfree
  simp only [wp_bind, wp_modify, wp_get, blocks.super]
  rw [if_pos (show (k.store (k.sb.bblock b)).testBit (b % bpb) = true from used)]
  exact logWrite_wp fun room _ => ok room

theorem bfree_of_super {b : Nat} (super : Superblock.decode (k.store 1) = k.sb)
    (used : k.sb.used k.store b = true)
    (room : k.log.Room)
    (inside : 1 ≤ k.log.outstanding) :
    bfree b k = .ok ((), k.put (k.sb.bblock b)
      ((k.store (k.sb.bblock b)).clearBit (b % bpb))) := by
  have read : (modify fun k => { k with sb := Superblock.decode (k.store 1) } : Fs Unit) k =
      .ok ((), k) := by
    show Except.ok ((), { k with sb := Superblock.decode (k.store 1) }) = _
    rw [super]
  unfold bfree
  rw [run_bind read]
  show (if (k.store (k.sb.bblock b)).testBit (b % bpb) then _ else _ : Fs Unit) k = _
  rw [if_pos (show (k.store (k.sb.bblock b)).testBit (b % bpb) = true from used)]
  exact logWrite_run _ _ room inside

theorem bfree_run {cur : Nat → Dinode} {b : Nat} (blocks : Blocks k.sb k.store cur)
    (used : k.sb.used k.store b = true)
    (room : k.log.Room)
    (inside : 1 ≤ k.log.outstanding) :
    bfree b k = .ok ((), k.put (k.sb.bblock b)
      ((k.store (k.sb.bblock b)).clearBit (b % bpb))) :=
  bfree_of_super blocks.super used room inside

theorem freeAddrs_skip {is : List (Fin (ndirect + 1))}
    (empty : ∀ i ∈ is, (k.icache p).dinode.addrs i = 0) : freeAddrs p is k = .ok ((), k) := by
  induction is with
  | nil => rfl
  | cons i is ih =>
    have skip : freeAddr p i k = .ok ((), k) := by
      unfold freeAddr
      show (if (k.icache p).dinode.addrs i = 0 then _ else _ : Fs Unit) k = _
      rw [if_pos (empty i List.mem_cons_self)]
      rfl
    rw [freeAddrs, run_bind skip]
    exact ih fun j mem => empty j (List.mem_cons_of_mem _ mem)

theorem freeIndirect_skip (empty : (k.icache p).dinode.addrs (Fin.last ndirect) = 0) :
    freeIndirect p k = .ok ((), k) := by
  unfold freeIndirect
  show (if (k.icache p).dinode.addrs (Fin.last ndirect) = 0 then _ else _ : Fs Unit) k = _
  rw [if_pos empty]
  rfl

/-- The inode behind `p` has lost its blocks; the other inodes are as in `k`. -/
structure Emptied (p : IPtr) (k k' : Kernel) : Prop where
  sb : k'.sb = k.sb
  others : ∀ q, q ≠ p → k'.icache q = k.icache q
  entry : ∃ d, k'.icache p = { k.icache p with dinode := d } ∧ (∀ j, d.addrs j = 0) ∧ d.size = 0
  blocks : Blocks k'.sb k'.store (k'.cur p)
  log : k'.LogOk
  dinodes : ∀ i < k.sb.icap, i ≠ (k.icache p).inum →
    k.sb.dinode k'.store i = k.sb.dinode k.store i
  apart : ∀ i q, i ≠ (k.icache p).inum → k'.blk p i q = k.blk p i q

theorem Emptied.inum (emptied : Emptied p k k') : (k'.icache p).inum = (k.icache p).inum := by
  obtain ⟨d, entry, -⟩ := emptied.entry
  rw [entry]

theorem Emptied.synced (emptied : Emptied p k k') (area : (k.icache p).inum < k.sb.icap)
    (room : k'.log.Room) :
    Emptied p k (k'.synced p) := by
  have area' : (k'.icache p).inum < k'.sb.icap := by rw [emptied.inum, emptied.sb]; exact area
  have blocks := blocks_synced emptied.blocks area'
  have block := block_synced emptied.blocks area'
  refine ⟨emptied.sb, emptied.others, emptied.entry, ?_, log_synced emptied.blocks area'
    emptied.log room, fun i inside other => ?_, fun i q other => ?_⟩
  · rw [cur_synced, ← disk_synced]
    exact blocks
  · have disk := congrFun (disk_synced k' p) i
    rw [Kernel.cur, emptied.inum, update_of_ne other, Kernel.disk] at disk
    rw [← emptied.dinodes i inside other, ← emptied.sb]
    exact disk
  · rw [← emptied.apart i q other, ← block, Kernel.blk, cur_synced, ← disk_synced]
    rfl

theorem Emptied.edit (emptied : Emptied p k k') (area : (k.icache p).inum < k.sb.icap)
    {d : Dinode} (addrs : ∀ j, d.addrs j = 0) (size : d.size = 0) :
    Emptied p k (k'.edit p d) := by
  obtain ⟨d', entry, addrs', -⟩ := emptied.entry
  have area' : (k'.icache p).inum < k'.sb.icap := by rw [emptied.inum, emptied.sb]; exact area
  have same : d.addrs = (k'.icache p).dinode.addrs := by
    funext j
    rw [addrs, entry]
    exact (addrs' j).symm
  refine ⟨emptied.sb, fun q other => ?_, ⟨d, ?_, addrs, size⟩, ?_, log_edit emptied.log d,
    emptied.dinodes, fun i q other => ?_⟩
  · rw [icache_edit_ne k' other, emptied.others q other]
  · rw [icache_edit, entry]
  · exact blocks_edit same emptied.blocks (fun _ => addrs 0) fun big => absurd size big
  · rw [blk_edit area' same, emptied.apart i q other]

theorem Kernel.cur_of_copy (copy : (k.icache p).dinode = k.disk (k.icache p).inum) :
    k.cur p = k.disk := by
  rw [Kernel.cur, copy]
  exact update_eq_self _ k.disk

section Trunc

variable (ok : k.Ok) (area : (k.icache p).inum < k.sb.icap)
  (copy : (k.icache p).dinode = k.disk (k.icache p).inum)

include ok area copy

theorem addrs_tail {j : Fin (ndirect + 1)} (rest : j ≠ 0) :
    (k.icache p).dinode.addrs j = 0 := by
  rw [copy]
  exact ok.blocks.tail _ area j rest

/-- An inode without a first index block has no blocks, and size zero. -/
theorem emptied_none (none_left : (k.icache p).dinode.addrs 0 = 0) : Emptied p k k := by
  refine ⟨rfl, fun _ _ => rfl, ⟨(k.icache p).dinode, rfl, fun j => ?_, ?_⟩, ?_, ok.log,
    fun _ _ _ => rfl, fun _ _ _ => rfl⟩
  · by_cases first : j = 0
    · rw [first, none_left]
    · exact addrs_tail ok area copy first
  · by_contra big
    rw [copy] at big none_left
    exact ok.blocks.headed _ area big none_left
  · rw [Kernel.cur_of_copy copy]
    exact ok.blocks

/-- The first index block has been freed, and the inode changed accordingly. -/
theorem emptied_freed (there : (k.icache p).dinode.addrs 0 ≠ 0)
    (room : k.log.Room) {d : Dinode}
    (addrs : ∀ j, d.addrs j = 0) (size : d.size = 0) :
    Emptied p k ((k.put (k.sb.bblock ((k.icache p).dinode.addrs 0).toNat)
      ((k.store (k.sb.bblock ((k.icache p).dinode.addrs 0).toNat)).clearBit
        (((k.icache p).dinode.addrs 0).toNat % bpb))).edit p d) := by
  rw [copy] at there ⊢
  have bitmap := ok.blocks.layout.bblock (ok.blocks.first area there).high
  have order := ok.blocks.layout.inodes
  have data := ok.blocks.layout.data
  have dinodes : ∀ i < k.sb.icap,
      k.sb.dinode (freed k.sb k.store ((k.disk (k.icache p).inum).addrs 0).toNat) i = k.disk i :=
    fun i inside => dinode_freed ok.blocks area there inside
  generalize log : k.put (k.sb.bblock ((k.disk (k.icache p).inum).addrs 0).toNat)
      ((k.store (k.sb.bblock ((k.disk (k.icache p).inum).addrs 0).toNat)).clearBit
        (((k.disk (k.icache p).inum).addrs 0).toNat % bpb)) = k₁
  have store : k₁.store = freed k.sb k.store ((k.disk (k.icache p).inum).addrs 0).toNat := by
    rw [← log, Kernel.store_put, freed]
  have sb : k₁.sb = k.sb := by rw [← log]; rfl
  have icache : k₁.icache = k.icache := by rw [← log]; rfl
  have seen : ∀ i < k.sb.icap, (k₁.edit p d).cur p i = update k.disk (k.icache p).inum d i := by
    intro i inside
    rw [cur_edit, Kernel.cur, icache, sb, store, update_idem]
    by_cases here : i = (k.icache p).inum
    · subst here
      simp
    · rw [update_of_ne here, update_of_ne here, dinodes i inside]
  refine ⟨sb, fun q other => ?_, ⟨d, ?_, addrs, size⟩, ?_, ?_, fun i inside other => ?_,
    fun i q other => ?_⟩
  · rw [icache_edit_ne k₁ other, icache]
  · rw [icache_edit, icache]
  · show Blocks k₁.sb k₁.store _
    rw [sb, store]
    exact (ok.blocks.freeHead area there addrs size).congr_cur seen
  · rw [← log]
    exact log_edit (ok.log.put _ (by omega) room) d
  · show k.sb.dinode k₁.store i = _
    rw [store]
    exact dinodes i inside
  · show k₁.sb.blockAt k₁.store _ i q = _
    rw [sb, store, blockAt_heads (heads_congr seen), blockAt_freed ok.blocks area there addrs,
      if_neg other, Kernel.blk, Kernel.cur_of_copy copy]

/-- The two ways through `itrunc`: there is no first index block, or it is freed.
Either way the inode ends without blocks and is written back. -/
theorem itrunc_wp {Q : Unit → Kernel → Prop}
    (none_left : (k.icache p).dinode.addrs 0 = 0 →
      k.log.Room →
      Q () ((k.edit p { (k.icache p).dinode with size := 0 }).synced p))
    (freed : (k.icache p).dinode.addrs 0 ≠ 0 → ∀ k₁,
      k₁ = k.put (k.sb.bblock ((k.icache p).dinode.addrs 0).toNat)
        ((k.store (k.sb.bblock ((k.icache p).dinode.addrs 0).toNat)).clearBit
          (((k.icache p).dinode.addrs 0).toNat % bpb)) →
      k.log.Room →
      k₁.log.Room →
      Q () ((k₁.edit p { (k.icache p).dinode with
        addrs := update (k.icache p).dinode.addrs 0 0, size := 0 }).synced p)) :
    wp (itrunc p) Q Harmless k := by
  have list : (List.finRange ndirect).map Fin.castSucc =
      0 :: (List.finRange 11).map fun i => i.succ.castSucc := by decide
  have rest : ∀ i ∈ (List.finRange 11).map fun i : Fin 11 => i.succ.castSucc,
      i ≠ (0 : Fin (ndirect + 1)) := by decide
  unfold itrunc
  rw [wp_bind, list, freeAddrs, wp_bind]
  unfold freeAddr
  simp only [wp_bind, wp_get]
  refine wp_ite (fun empty => ?_) fun there => ?_
  · rw [wp_pure]
    refine wp_of_run (freeAddrs_skip fun i mem => addrs_tail ok area copy (rest i mem)) ?_
    refine wp_of_run (freeIndirect_skip (addrs_tail ok area copy (by decide))) ?_
    rw [wp_modify]
    exact iupdate_wp fun room => none_left empty room
  · rw [wp_bind]
    have own : k.sb.used k.store ((k.icache p).dinode.addrs 0).toNat = true := by
      rw [copy] at there ⊢
      exact (ok.blocks.first area there).used
    refine bfree_wp ok.blocks own fun room => ?_
    rw [wp_modify]
    have cleared : ∀ j, update (k.icache p).dinode.addrs 0 0 j = 0 := by
      intro j
      by_cases first : j = 0
      · rw [first, update_self]
      · rw [update_of_ne first]
        exact addrs_tail ok area copy first
    refine wp_of_run (freeAddrs_skip fun i mem => ?_) ?_
    · simpa using cleared i
    refine wp_of_run (freeIndirect_skip ?_) ?_
    · simpa using cleared (Fin.last ndirect)
    rw [wp_modify]
    -- the two changes of the inode are one
    refine Eq.mp (congrArg (wp (iupdate p) _ Harmless) ?_)
      (iupdate_wp fun room' => freed there _ rfl room room')
    simp [Kernel.edit, Kernel.setInode]

theorem itrunc_spec : wp (itrunc p) (fun _ k' => Emptied p k k') Harmless k := by
  refine itrunc_wp ok area copy (fun none_left room => ?_) ?_
  · have emptied := emptied_none ok area copy none_left
    obtain ⟨d, entry, addrs, -⟩ := emptied.entry
    have edited := emptied.edit area (d := { (k.icache p).dinode with size := 0 })
      (fun j => by rw [entry]; exact addrs j) rfl
    exact edited.synced area room
  · rintro there k₁ rfl room room'
    refine (emptied_freed ok area copy there room (fun j => ?_) rfl).synced area room'
    show update (k.icache p).dinode.addrs 0 0 j = 0
    by_cases first : j = 0
    · rw [first, update_self]
    · rw [update_of_ne first]
      exact addrs_tail ok area copy first

theorem ifree_spec : wp (ifree p) (fun _ k' => ∃ k₁, Emptied p k k₁ ∧ k₁.disk = k₁.cur p ∧
    k' = k₁.setInode p { k₁.icache p with valid := false }) Harmless k := by
  unfold ifree
  refine wp_seq (itrunc_spec ok area copy) fun _ k₁ emptied => ?_
  rw [wp_bind, wp_modify, wp_bind]
  obtain ⟨d, entry, addrs, size⟩ := emptied.entry
  have edited := emptied.edit area (d := { (k₁.icache p).dinode with type := 0 })
    (by rw [entry]; exact addrs) (by rw [entry]; exact size)
  refine iupdate_wp fun room => ?_
  rw [wp_modify]
  exact ⟨_, edited.synced area room, by rw [disk_synced, cur_synced], rfl⟩

end Trunc

theorem setInode_setInode (k : Kernel) (p : IPtr) (ip ip' : Inode) :
    (k.setInode p ip).setInode p ip' = k.setInode p ip' := by
  simp [Kernel.setInode]

/-- An entry whose inode has been freed is given up. -/
theorem Emptied.sound (emptied : Emptied p k k') (ok : k.Ok) (used : 0 < (k.icache p).ref)
    (copy : (k.icache p).dinode = k.disk (k.icache p).inum) (written : k'.disk = k'.cur p)
    {ip : Inode} (gone : ip.ref = 0) (free : ip.locked = false) : Sound k (k'.setInode p ip) := by
  obtain ⟨d, entry, -, size⟩ := emptied.entry
  have log := emptied.log
  have disk : ∀ i < k.sb.icap, i ≠ (k.icache p).inum → k'.disk i = k.disk i := by
    intro i inside other
    rw [Kernel.disk, emptied.sb]
    exact emptied.dinodes i inside other
  have alone : ∀ q, 0 < ((k'.setInode p ip).icache q).ref →
      q ≠ p ∧ (k'.setInode p ip).icache q = k.icache q := by
    intro q used'
    have other : q ≠ p := by
      rintro rfl
      rw [Kernel.icache_setInode, update_self] at used'
      omega
    rw [Kernel.icache_setInode, update_of_ne other, emptied.others q other]
    exact ⟨other, rfl⟩
  refine ⟨⟨?_, ⟨log.start, log.size, log.idle, log.distinct, log.home, log.fits, log.short⟩,
    fun q used' valid => ?_, fun q r used' used'' same => ?_, fun q held => ?_⟩, emptied.sb,
    covered_of emptied.sb fun i inside => ?_⟩
  · show Blocks k'.sb k'.store k'.disk
    rw [written]
    exact emptied.blocks
  · obtain ⟨other, entry⟩ := alone q used'
    rw [entry] at used' valid ⊢
    obtain ⟨inside, copy', typed⟩ := ok.cache q used' valid
    refine ⟨by rw [Kernel.sb_setInode, emptied.sb]; exact inside, ?_, typed⟩
    rw [copy']
    exact (disk _ inside fun same => other (ok.unique q p used' used same)).symm
  · have first := (alone q used').2
    have second := (alone r used'').2
    rw [first] at used' same
    rw [second] at used'' same
    exact ok.unique q r used' used'' same
  · by_cases here : q = p
    · subst here
      rw [Kernel.icache_setInode, update_self, free] at held
      cases held
    · rw [Kernel.icache_setInode, update_of_ne here, emptied.others q here] at held ⊢
      exact ok.locked q held
  · by_cases here : i = (k.icache p).inum
    · left
      show (k'.disk i).size.toNat = 0
      rw [written, here, Kernel.cur, entry, update_self, size]
      rfl
    · right
      refine ⟨congrArg (·.size.toNat) (disk i inside here), fun n there => ?_⟩
      have same : k'.block i (.item n) = k.block i (.item n) := by
        have apart := emptied.apart i (.item n) here
        rw [Kernel.blk, Kernel.blk, ← written, Kernel.cur_of_copy copy] at apart
        exact apart
      show k'.block i (.item n) ≠ 0
      rwa [same]

/-- A reference that is not the last one to an inode without links. -/
theorem iput_kept (ok : k.Ok) (used : 0 < (k.icache p).ref)
    (kept : ¬((k.icache p).valid = true ∧ (k.icache p).dinode.nlink = 0 ∧ (k.icache p).ref = 1)) :
    wp (iput p) (fun _ k' => Grows k k') Harmless k := by
  unfold iput
  simp only [wp_bind, wp_get]
  refine wp_ite (fun _ => by simp [Harmless]) fun unlocked => ?_
  rw [if_neg kept]
  exact (ok.setRef used fun held => absurd held unlocked).grows

theorem iput_spec (ok : k.Ok) (used : 0 < (k.icache p).ref) :
    wp (iput p) (fun _ k' => Sound k k') Harmless k := by
  by_cases last : (k.icache p).valid = true ∧ (k.icache p).dinode.nlink = 0 ∧ (k.icache p).ref = 1
  · obtain ⟨area, copy, -⟩ := ok.cache p used last.1
    unfold iput
    simp only [wp_bind, wp_get]
    refine wp_ite (fun _ => by simp [Harmless]) fun unlocked => ?_
    rw [if_pos last]
    refine wp_seq (ifree_spec ok area copy) ?_
    rintro _ _ ⟨k₁, emptied, written, rfl⟩
    obtain ⟨d, entry, -⟩ := emptied.entry
    unfold dropRef
    rw [wp_modify, setInode_setInode]
    refine emptied.sound ok used copy written ?_ ?_
    · simp [entry, last.2.2]
    · simpa [entry] using unlocked
  · exact wp_post (iput_kept ok used last) fun _ _ grown => grown.toSound

/-! ## Reading, writing and directories -/

/-- What `writei` does to the file system as a whole. -/
theorem WriteOutcome.grows {src : Bytes} {off n : UInt32} {r : Io UInt32} (ok : k.Ok)
    (outcome : WriteOutcome k p src off n r k') : Grows k k' := by
  cases r with
  | failed =>
    rw [show k' = k from outcome]
    exact (Quiet.refl ok).grows
  | device major =>
    rw [show k' = k from outcome]
    exact (Quiet.refl ok).grows
  | done m =>
    obtain ⟨-, inside, -, stored⟩ := outcome
    exact ⟨stored.sound inside, stored.keeps, stored.marks⟩

section Directory

variable {dp : IPtr}

theorem readDirent_spec (ok : k.Ok) (held : (k.icache dp).locked = true) (off : Nat)
    {message : Panic} (harmless : Harmless (.panic message)) :
    wp (readDirent dp off message) (fun _ k' => Quiet k k') Harmless k := by
  unfold readDirent
  refine wp_seq (readi_spec ok held _ _) ?_
  rintro r k' ⟨quiet, -⟩
  cases r with
  | failed => exact harmless
  | device major => exact harmless
  | done data => exact wp_ite (fun _ => quiet) fun _ => harmless

/-- What a lookup leaves: an entry in use, if it has found one, and not for the last time if
its inode has been read. -/
def Looked (k : Kernel) : Option (IPtr × Nat) → Kernel → Prop
  | none, k' => Quiet k k'
  | some (p, _), k' => Grows k k' ∧ 0 < (k'.icache p).ref ∧
      ¬((k'.icache p).valid = true ∧ (k'.icache p).ref = 1)

theorem dirlookupLoop_spec (ok : k.Ok) (held : (k.icache dp).locked = true) (name : Bytes)
    (size off : Nat) : wp (dirlookupLoop dp name size off) (Looked k) Harmless k := by
  induction left : size - off using Nat.strong_induction_on generalizing off k with
  | _ left ih =>
  unfold dirlookupLoop
  refine wp_ite (fun inside => ?_) fun _ => Quiet.refl ok
  refine wp_seq (readDirent_spec ok held off (by simp [Harmless])) fun de k₁ quiet => ?_
  refine wp_ite (fun _ => ?_) fun _ => ?_
  · refine wp_seq (iget_spec k₁ _) fun p k₂ got => ?_
    have ref := got.ref
    refine ⟨quiet.grows.trans (got.grows quiet.ok), by omega, ?_⟩
    rintro ⟨valid, one⟩
    rw [got.unread (by omega)] at valid
    cases valid
  · have held₁ : (k₁.icache dp).locked = true := by rw [quiet.icache]; exact held
    refine wp_post (ih (size - (off + direntSize)) ?_ quiet.ok held₁ (off + direntSize) rfl)
      fun r k₂ looked => ?_
    · simp only [direntSize, dirsiz]
      omega
    · cases r with
      | none => exact quiet.trans looked
      | some _ => exact ⟨quiet.grows.trans looked.1, looked.2⟩

theorem dirlookup_spec (ok : k.Ok) (held : (k.icache dp).locked = true) (name : Bytes) :
    wp (dirlookup dp name) (Looked k) Harmless k := by
  unfold dirlookup
  simp only [wp_bind, wp_get]
  exact wp_ite (fun _ => by simp [Harmless]) fun _ => dirlookupLoop_spec ok held name _ 0

theorem dirSlot_spec (ok : k.Ok) (held : (k.icache dp).locked = true) (size off : Nat) :
    wp (dirSlot dp size off) (fun _ k' => Quiet k k') Harmless k := by
  induction left : size - off using Nat.strong_induction_on generalizing off k with
  | _ left ih =>
  unfold dirSlot
  refine wp_ite (fun inside => ?_) fun _ => Quiet.refl ok
  refine wp_seq (readDirent_spec ok held off (by simp [Harmless])) fun de k₁ quiet => ?_
  refine wp_ite (fun _ => quiet) fun _ => ?_
  have held₁ : (k₁.icache dp).locked = true := by rw [quiet.icache]; exact held
  refine wp_post (ih (size - (off + direntSize)) ?_ quiet.ok held₁ (off + direntSize) rfl)
    fun _ _ => quiet.trans
  simp only [direntSize, dirsiz]
  omega

theorem writeDirent_spec (ok : k.Ok) (held : (k.icache dp).locked = true) (de : Bytes) (off : Nat)
    {message : Panic} (harmless : Harmless (.panic message)) :
    wp (writeDirent dp de off message) (fun _ k' => Grows k k') Harmless k := by
  unfold writeDirent
  refine wp_seq (writei_spec ok held de _ _) fun r k' outcome => ?_
  exact wp_ite (fun _ => outcome.grows ok) fun _ => harmless

theorem dirlink_spec (ok : k.Ok) (held : (k.icache dp).locked = true) (name : Bytes) (inum : Nat) :
    wp (dirlink dp name inum) (fun _ k' => Grows k k') Harmless k := by
  unfold dirlink
  refine wp_seq (dirlookup_spec ok held name) fun present k₁ looked => ?_
  match present, looked with
  | some (p, _), ⟨grown, used, fresh⟩ =>
    refine (wp_seq (iput_kept grown.ok used fun last => ?_) ?_)
    · exact fresh ⟨last.1, last.2.2⟩
    · exact fun _ _ put => grown.trans put
  | none, quiet =>
    have held₁ : (k₁.icache dp).locked = true := by rw [Quiet.icache quiet]; exact held
    simp only [wp_bind, wp_get]
    refine wp_post (dirSlot_spec (Quiet.ok quiet) held₁ _ 0) fun off k₂ quiet₂ => ?_
    have held₂ : (k₂.icache dp).locked = true := by rw [quiet₂.icache]; exact held₁
    refine wp_post (writeDirent_spec quiet₂.ok held₂ _ off (by simp [Harmless])) ?_
    exact fun _ _ written => (Quiet.grows quiet).trans (quiet₂.grows.trans written)

end Directory

end

end BasicOS
