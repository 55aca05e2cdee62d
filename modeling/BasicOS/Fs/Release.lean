/-
# BasicOS.Fs.Release — what iput does

Dropping a reference is a change of one count, unless it is the last reference
to an inode without links.  Then the inode is truncated and freed on disk; the
other inodes keep their fields, their bytes and their blocks (`Freed`).
-/
import BasicOS.Fs.Waits
import BasicOS.Fs.Calls

namespace BasicOS

open Lib Function
open Lib.Chain (Pos)
open Lib.Prog

set_option autoImplicit false

section

variable {k k' : Kernel} {p : IPtr}

/-- The blocks after the bitmap are as they were. -/
def SameData (k k' : Kernel) : Prop :=
  ∀ b, k.sb.datastart ≤ b → k'.store b = k.store b

theorem SameData.trans {k'' : Kernel} (first : SameData k k') (second : SameData k' k'')
    (sb : k'.sb = k.sb) : SameData k k'' := by
  intro b high
  rw [second b (by rwa [sb]), first b high]

/-- Writing an inode back stays below the data blocks. -/
theorem sameData_synced (layout : k.sb.Layout) (area : (k.icache p).inum < k.sb.icap) :
    SameData k (k.synced p) := by
  intro b high
  have block := layout.iblock area
  have past := k.sb.datastart_gt
  rw [Kernel.synced, Kernel.store_put, update_of_ne (by omega)]

theorem itrunc_data (ok : k.Ok) (area : (k.icache p).inum < k.sb.icap)
    (copy : (k.icache p).dinode = k.disk (k.icache p).inum) :
    wp (itrunc p) (fun _ k' => SameData k k') Harmless k := by
  have layout := ok.blocks.layout
  refine itrunc_wp ok area copy (fun _ _ => ?_) ?_
  · refine sameData_synced (k := k.edit p _) layout ?_
    rw [icache_edit]
    exact area
  · intro there k₁ cleared _ _
    have sb : k₁.sb = k.sb := by rw [cleared, Kernel.sb_put]
    have icache : k₁.icache = k.icache := by rw [cleared, Kernel.icache_put]
    have bitmap : k.sb.bblock ((k.icache p).dinode.addrs 0).toNat < k.sb.datastart := by
      rw [copy] at there ⊢
      exact (layout.bblock (ok.blocks.first area there).high).2
    have marked : SameData k k₁ := by
      intro b high
      rw [cleared, Kernel.store_put, update_of_ne (by omega)]
    refine marked.trans (fun b high => ?_) sb
    refine sameData_synced (k := k₁.edit p _) (sb ▸ layout) ?_ b high
    rw [icache_edit]
    show (k₁.icache p).inum < k₁.sb.icap
    rwa [icache, sb]

/-- The inode behind `p` has been freed with its last reference. -/
structure Freed (p : IPtr) (k k' : Kernel) : Prop where
  sound : Sound k k'
  others : ∀ q, q ≠ p → k'.icache q = k.icache q
  ref : (k'.icache p).ref = 0
  disk : ∀ i < k.sb.icap, i ≠ (k.icache p).inum → k'.disk i = k.disk i
  gone : (k'.disk (k.icache p).inum).type = 0
  content : ∀ i, i ≠ (k.icache p).inum → k'.content i = k.content i
  outstanding : k'.log.outstanding = k.log.outstanding

theorem ifree_data (ok : k.Ok) (area : (k.icache p).inum < k.sb.icap)
    (copy : (k.icache p).dinode = k.disk (k.icache p).inum) :
    wp (ifree p) (fun _ k' => SameData k k' ∧ (k'.disk (k.icache p).inum).type = 0)
      Harmless k := by
  unfold ifree
  refine wp_seq_mono (wp_and (itrunc_spec ok area copy) (itrunc_data ok area copy)) (fun _ stop => stop.1) ?_
  rintro _ k₁ ⟨emptied, data⟩
  rw [wp_bind, wp_modify, wp_bind]
  refine iupdate_wp fun _ => ?_
  rw [wp_modify]
  have inum := emptied.inum
  have layout : k₁.sb.Layout := emptied.blocks.layout
  have area₁ : (k₁.icache p).inum < k₁.sb.icap := by
    rw [inum, emptied.sb]
    exact area
  refine ⟨data.trans (fun b high => ?_) emptied.sb, ?_⟩
  · exact sameData_synced (k := k₁.edit p _) layout (by rw [icache_edit]; exact area₁) b high
  · have disk := congrFun (disk_synced (k₁.edit p { (k₁.icache p).dinode with type := 0 }) p)
      (k.icache p).inum
    rw [cur_edit, inum, update_self] at disk
    exact congrArg Dinode.type disk

/-- What dropping a reference does. -/
def Released (p : IPtr) (k k' : Kernel) : Prop :=
  if (k.icache p).valid = true ∧ (k.icache p).dinode.nlink = 0 ∧ (k.icache p).ref = 1 then
    Freed p k k'
  else k' = k.setInode p { k.icache p with ref := (k.icache p).ref - 1 }

/-- **`iput`** on an inode whose lock is free. -/
theorem iput_released (ok : k.Ok) (used : 0 < (k.icache p).ref)
    (unlocked : (k.icache p).locked = false) :
    wp (iput p) (fun _ k' => Released p k k') (Spent k.log.outstanding) k := by
  unfold iput Released
  simp only [wp_bind, wp_get]
  rw [if_neg (by rw [unlocked]; decide)]
  refine wp_ite (fun last => ?_) fun kept => ?_
  · rw [wp_bind]
    obtain ⟨area, copy, -⟩ := ok.cache p used last.1
    have calm := ifree_calm (List.mem_singleton_self _) p k
    refine wp_mono (wp_and (wp_and (ifree_spec ok area copy)
      (ifree_data ok area copy)) calm) ?_ fun e stop => ?_
    · rintro _ k₂ ⟨⟨⟨k₁, emptied, written, rfl⟩, data, gone⟩, outstanding⟩
      obtain ⟨d, entry, -⟩ := emptied.entry
      unfold dropRef
      rw [wp_modify, setInode_setInode, if_pos last]
      have disk : ∀ i < k.sb.icap, i ≠ (k.icache p).inum → k₁.disk i = k.disk i := by
        intro i inside other
        rw [Kernel.disk, emptied.sb]
        exact emptied.dinodes i inside other
      refine ⟨?_, fun q other => ?_, ?_, disk, gone, fun i other => ?_, outstanding.1⟩
      · refine emptied.sound ok used copy written ?_ ?_
        · simp [entry, last.2.2]
        · simp [entry, unlocked]
      · rw [Kernel.icache_setInode, update_of_ne other, emptied.others q other]
      · simp [entry, last.2.2]
      · -- its blocks are where they were, and so is what they hold
        have block : ∀ q, k₁.block i q = k.block i q := by
          intro q
          have apart := emptied.apart i q other
          rw [Kernel.blk, Kernel.blk, ← written, Kernel.cur_of_copy copy] at apart
          exact apart
        funext o
        show k₁.content i o = k.content i o
        have same := block (.item (o / bsize))
        unfold Kernel.content Superblock.contents
        unfold Kernel.block at same
        rw [same]
        split
        · rfl
        · next there =>
            have low := (ok.blocks.owned there).low
            exact congrFun (data _ low) _
    · rcases stop.2 with spent | ⟨message, mem, rfl⟩
      · exact spent
      · rw [List.mem_singleton] at mem
        exact absurd (congrArg Stop.panic mem) stop.1.1
  · show (if _ then _ else _)
    rw [if_neg kept]

end

end BasicOS
