/-
# BasicOS.Spec.Leak — what itrunc gives back

`bmap` keeps a file in a chain of index blocks behind `addrs[0]`; `itrunc` frees the
entries of `addrs` themselves and, as a single indirect block, the last one.  So of a file
it frees the first index block and nothing else (`itrunc_marks`), which is everything the
file has only if it has no other block (`Kernel.Bare`).

Every other call of fs.c marks a block in use only to put it in a chain
(`Grows`).  A run therefore leaks no block as long as the files it frees are bare
(`bare_files_do_not_leak`); the blocks of any other file stay in use for good.
-/
import BasicOS.Spec.DirMap

namespace BasicOS

open Lib Function
open Lib.Chain (Pos)
open Lib.Prog

set_option autoImplicit false

/-- The block is in the chain of inode `i`. -/
def Kernel.Owns (k : Kernel) (i b : Nat) : Prop :=
  b ≠ 0 ∧ ∃ q, k.block i q = b

/-- Every data block in use is a block of an allocated inode. -/
def Kernel.NoLeak (k : Kernel) : Prop :=
  ∀ b, k.sb.DataBlock k.store b → ∃ i < k.sb.icap, (k.disk i).type ≠ 0 ∧ k.Owns i b

/-- The inode has no block but its first index block. -/
def Kernel.Bare (k : Kernel) (i : Nat) : Prop :=
  ∀ q, q ≠ .index 0 → k.block i q = 0

section

variable {k k' : Kernel} {p : IPtr}

theorem DataBlock.ne_zero {sb : Superblock} {store : Nat → Block} {b : Nat}
    (data : sb.DataBlock store b) : b ≠ 0 := by
  have := sb.datastart_gt
  have := data.low
  omega

/-- An inode with a block is allocated. -/
theorem Kernel.Ok.noLeak_iff (ok : k.Ok) :
    k.NoLeak ↔ ∀ b, k.sb.DataBlock k.store b → ∃ i q, k.block i q = b := by
  constructor
  · intro kept b data
    obtain ⟨i, -, -, -, q, here⟩ := kept b data
    exact ⟨i, q, here⟩
  · intro kept b data
    have nonzero := DataBlock.ne_zero data
    obtain ⟨i, q, here⟩ := kept b data
    have area : i < k.sb.icap := by
      by_contra outside
      have none_left : k.block i q = 0 := by
        rw [Kernel.block, Superblock.blockAt, Superblock.heads, if_neg outside, Chain.addr_zero]
      exact nonzero (here.symm.trans none_left)
    refine ⟨i, area, fun free => ?_, nonzero, q, here⟩
    have none_left : k.block i q = 0 := by
      rw [Kernel.block, Superblock.blockAt, Superblock.heads, if_pos area, ok.blocks.free i area free]
      exact Chain.addr_zero _
    exact nonzero (here.symm.trans none_left)

/-! ## Truncating -/

/-- The inode behind `p` is empty, and of the blocks in use those that meet `released` are
free. -/
structure Cut (released : Nat → Prop) (p : IPtr) (k k' : Kernel) : Prop where
  marks : ∀ b < k.sb.size, k.sb.used k'.store b = true ↔
    k.sb.used k.store b = true ∧ ¬ released b
  size : (k'.icache p).dinode.size = 0
  addrs : ∀ j, (k'.icache p).dinode.addrs j = 0
  disk : k'.disk (k.icache p).inum = (k'.icache p).dinode

/-- The inode is emptied in memory and written back. -/
theorem Cut.synced {released : Nat → Prop} {k₁ : Kernel} {d : Dinode} (layout : k.sb.Layout)
    (area : (k.icache p).inum < k.sb.icap) (sb : k₁.sb = k.sb) (icache : k₁.icache = k.icache)
    (marks : ∀ b < k.sb.size, k.sb.used k₁.store b = true ↔
      k.sb.used k.store b = true ∧ ¬ released b)
    (size : d.size = 0) (addrs : ∀ j, d.addrs j = 0) :
    Cut released p k ((k₁.edit p d).synced p) := by
  have entry : ((k₁.edit p d).synced p).icache p = { k.icache p with dinode := d } := by
    rw [← icache]
    exact icache_edit k₁ p d
  have area₁ : ((k₁.edit p d).icache p).inum < (k₁.edit p d).sb.icap := by
    rw [icache_edit, icache]
    show (k.icache p).inum < k₁.sb.icap
    rwa [sb]
  refine ⟨fun b inside => ?_, by rw [entry]; exact size, fun j => by rw [entry]; exact addrs j, ?_⟩
  · have same : k₁.sb.used ((k₁.edit p d).synced p).store b = k₁.sb.used k₁.store b :=
      used_synced (k := k₁.edit p d) (sb ▸ layout) area₁ (sb ▸ inside)
    rw [sb] at same
    rw [same]
    exact marks b inside
  · rw [disk_synced, cur_edit, icache, update_self, entry]

section Trunc

variable (ok : k.Ok) (area : (k.icache p).inum < k.sb.icap)
  (copy : (k.icache p).dinode = k.disk (k.icache p).inum)

include ok area copy

/-- `itrunc` frees the first index block. -/
theorem itrunc_marks :
    wp (itrunc p) (fun _ k' => Cut (fun b => b ≠ 0 ∧ k.block (k.icache p).inum (.index 0) = b) p k k')
      Harmless k := by
  have layout := ok.blocks.layout
  have head : k.block (k.icache p).inum (.index 0) = ((k.icache p).dinode.addrs 0).toNat := by
    rw [copy]
    exact blockAt_first area
  refine itrunc_wp ok area copy (fun none_left _ => ?_) ?_
  · refine Cut.synced layout area rfl rfl (fun b _ => ?_) rfl fun j => ?_
    · rw [head, none_left]
      exact ⟨fun used => ⟨used, fun ⟨some_block, zero⟩ => some_block zero.symm⟩, And.left⟩
    · by_cases first : j = 0
      · rw [first]
        exact none_left
      · exact addrs_tail ok area copy first
  · rintro there k₁ rfl _ _
    refine Cut.synced layout area rfl rfl (fun b _ => ?_) rfl fun j => ?_
    · have nonzero : ((k.icache p).dinode.addrs 0).toNat ≠ 0 :=
        fun zero => there (UInt32.toNat_inj.mp zero)
      rw [Kernel.store_put, Superblock.used_clearBit, head, Bool.and_eq_true, decide_eq_true_eq]
      constructor
      · rintro ⟨other, used⟩
        exact ⟨used, fun same => other same.2.symm⟩
      · rintro ⟨used, other⟩
        exact ⟨fun same => other ⟨same ▸ nonzero, same.symm⟩, used⟩
    · show update (k.icache p).dinode.addrs 0 0 j = 0
      by_cases first : j = 0
      · rw [first, update_self]
      · rw [update_of_ne first]
        exact addrs_tail ok area copy first

/-- A bare file has no other block. -/
theorem itrunc_bare (bare : k.Bare (k.icache p).inum) :
    wp (itrunc p) (fun _ k' => Cut (k.Owns (k.icache p).inum) p k k') Harmless k := by
  refine wp_post (itrunc_marks ok area copy) fun _ k' cut => ?_
  refine ⟨fun b inside => (cut.marks b inside).trans (and_congr_right fun _ => not_congr ?_),
    cut.size, cut.addrs, cut.disk⟩
  refine and_congr_right fun nonzero => ⟨fun here => ⟨_, here⟩, fun ⟨q, here⟩ => ?_⟩
  by_cases first : q = .index 0
  · rw [← here, first]
  · exact absurd (here.symm.trans (bare q first)) nonzero

/-- In a transaction with room for two blocks, `itrunc` returns. -/
theorem itrunc_run (inside : 1 ≤ k.log.outstanding)
    (room : k.log.lh.length + 1 < logsize ∧ k.log.lh.length + 1 < k.log.size - 1) :
    ∃ k', itrunc p k = .ok ((), k') := by
  by_cases there : (k.icache p).dinode.addrs 0 = 0
  · have empty : ∀ j, (k.icache p).dinode.addrs j = 0 := fun j =>
      if first : j = 0 then first ▸ there else addrs_tail ok area copy first
    unfold itrunc
    rw [run_bind (freeAddrs_skip fun j _ => empty j),
      run_bind (freeIndirect_skip (empty _))]
    exact ⟨_, logWrite_run _ _ (show k.log.Room
      by omega) inside⟩
  have list : (List.finRange ndirect).map Fin.castSucc =
      0 :: (List.finRange 11).map fun i => i.succ.castSucc := by decide
  have rest : ∀ i ∈ (List.finRange 11).map fun i : Fin 11 => i.succ.castSucc,
      i ≠ (0 : Fin (ndirect + 1)) := by decide
  have own : k.sb.used k.store ((k.icache p).dinode.addrs 0).toNat = true := by
    rw [copy] at there ⊢
    exact (ok.blocks.first area there).used
  have freed := bfree_run ok.blocks own (by omega) inside
  generalize shape : k.put (k.sb.bblock ((k.icache p).dinode.addrs 0).toNat)
    ((k.store (k.sb.bblock ((k.icache p).dinode.addrs 0).toNat)).clearBit
      (((k.icache p).dinode.addrs 0).toNat % bpb)) = k₁ at freed
  have icache : k₁.icache = k.icache := by rw [← shape]; rfl
  have log : k₁.log.lh.length ≤ k.log.lh.length + 1 ∧ k₁.log.size = k.log.size ∧
      k₁.log.outstanding = k.log.outstanding := by
    rw [← shape]
    exact ⟨Log.length_absorb_le _ _, rfl, rfl⟩
  have first : freeAddr p 0 k = .ok ((), k₁.edit p { (k₁.icache p).dinode with
      addrs := update (k₁.icache p).dinode.addrs 0 0 }) := by
    unfold freeAddr
    show (if (k.icache p).dinode.addrs 0 = 0 then _ else _ : Fs Unit) k = _
    rw [if_neg there, run_bind freed]
    rfl
  have empty : ∀ j, j ≠ 0 → ((k₁.edit p { (k₁.icache p).dinode with
      addrs := update (k₁.icache p).dinode.addrs 0 0 }).icache p).dinode.addrs j = 0 := by
    intro j other
    rw [icache_edit, icache]
    show update (k.icache p).dinode.addrs 0 0 j = 0
    rw [update_of_ne other]
    exact addrs_tail ok area copy other
  unfold itrunc
  rw [list, freeAddrs, run_bind (run_bind first |>.trans
    (freeAddrs_skip fun j mem => empty j (rest j mem))),
    run_bind (freeIndirect_skip (empty _ (by decide)))]
  exact ⟨_, logWrite_run _ _ (show k₁.log.Room by omega)
    (show 1 ≤ k₁.log.outstanding by omega)⟩

/-- Every block of a file but the first index block stays in use and is in no file. -/
theorem itrunc_loses (inside : 1 ≤ k.log.outstanding)
    (room : k.log.lh.length + 1 < logsize ∧ k.log.lh.length + 1 < k.log.size - 1) {q : Pos}
    (deep : q ≠ .index 0) (there : k.block (k.icache p).inum q ≠ 0) :
    ∃ k', itrunc p k = .ok ((), k') ∧ k.sb.used k'.store (k.block (k.icache p).inum q) = true ∧
      ∀ i, ¬ k'.Owns i (k.block (k.icache p).inum q) := by
  obtain ⟨k', ran⟩ := itrunc_run ok area copy inside room
  have cut := wp_ok (m := itrunc p) (s := k) (itrunc_marks ok area copy) ran
  have emptied := wp_ok (m := itrunc p) (s := k) (itrunc_spec ok area copy) ran
  have data := ok.blocks.owned there
  refine ⟨k', ran, (cut.marks _ data.high).mpr ⟨data.used, fun ⟨_, same⟩ => ?_⟩, ?_⟩
  · obtain ⟨-, first⟩ := ok.blocks.placed.inj same.symm there
    exact deep first
  · rintro i ⟨-, q', here⟩
    have written : k'.cur p = k'.disk :=
      Kernel.cur_of_copy (by rw [emptied.inum]; exact cut.disk.symm)
    by_cases own : i = (k.icache p).inum
    · subst own
      refine there (here.symm.trans ?_)
      rw [Kernel.block, Superblock.blockAt, Superblock.heads, cut.disk, cut.addrs,
        UInt32.toNat_zero, ite_self]
      exact Chain.addr_zero _
    · have apart := emptied.apart i q' own
      rw [Kernel.blk, Kernel.blk, written, Kernel.cur_of_copy copy] at apart
      obtain ⟨other, -⟩ := ok.blocks.placed.inj (here.symm.trans apart) there
      exact own other.symm

end Trunc

/-- The blocks that were in chains still are, and those newly in use are too. -/
theorem Grows.noLeak (ok : k.Ok) (grown : Grows k k') (kept : k.NoLeak) : k'.NoLeak := by
  rw [grown.ok.noLeak_iff, grown.sb]
  intro b data
  rcases grown.marks b data with old | there
  · obtain ⟨i, q, here⟩ := ok.noLeak_iff.mp kept b ⟨data.low, data.high, old⟩
    exact ⟨i, q, by rw [grown.keeps i q (here ▸ DataBlock.ne_zero data), here]⟩
  · exact there

/-! ## Dropping a reference -/

/-- Freeing a bare file gives its blocks back. -/
theorem ifree_bare (ok : k.Ok) (area : (k.icache p).inum < k.sb.icap)
    (copy : (k.icache p).dinode = k.disk (k.icache p).inum) (bare : k.Bare (k.icache p).inum) :
    wp (ifree p) (fun _ k' => ∀ b < k.sb.size, k.sb.used k'.store b = true →
      k.sb.used k.store b = true ∧ ¬ k.Owns (k.icache p).inum b) Harmless k := by
  unfold ifree
  refine wp_seq_mono (wp_and (itrunc_spec ok area copy) (itrunc_bare ok area copy bare)) (fun _ stop => stop.1) ?_
  rintro _ k₁ ⟨emptied, cut⟩
  rw [wp_bind, wp_modify, wp_bind]
  refine iupdate_wp fun _ => ?_
  rw [wp_modify]
  intro b inside used
  have area₁ : (k₁.icache p).inum < k₁.sb.icap := by
    rw [emptied.inum, emptied.sb]
    exact area
  have same := used_synced (k := k₁.edit p { (k₁.icache p).dinode with type := 0 }) (p := p)
    emptied.blocks.layout (by rw [icache_edit]; exact area₁) (emptied.sb ▸ inside)
  refine (cut.marks b inside).mp ?_
  rw [show (k₁.edit p _).sb = k.sb from emptied.sb] at same
  exact same.symm.trans used

theorem iput_noLeak (ok : k.Ok) (used : 0 < (k.icache p).ref)
    (bare : (k.icache p).valid = true → (k.icache p).dinode.nlink = 0 → (k.icache p).ref = 1 →
      k.Bare (k.icache p).inum) (kept : k.NoLeak) :
    wp (iput p) (fun _ k' => k'.NoLeak) Harmless k := by
  by_cases last : (k.icache p).valid = true ∧ (k.icache p).dinode.nlink = 0 ∧ (k.icache p).ref = 1
  · obtain ⟨valid, unlinked, one⟩ := last
    obtain ⟨area, copy, -⟩ := ok.cache p used valid
    unfold iput
    simp only [wp_bind, wp_get]
    refine wp_ite (fun _ => by simp [Harmless]) fun unlocked => ?_
    rw [if_pos ⟨valid, unlinked, one⟩]
    refine wp_seq_mono (wp_and (ifree_spec ok area copy)
      (ifree_bare ok area copy (bare valid unlinked one))) (fun _ stop => stop.1) ?_
    rintro _ _ ⟨⟨k₁, emptied, written, rfl⟩, marks⟩
    obtain ⟨d, entry, -⟩ := emptied.entry
    unfold dropRef
    rw [wp_modify, setInode_setInode]
    have sound := emptied.sound ok used copy written
      (show ({ k₁.icache p with valid := false, ref := (k₁.icache p).ref - 1 } : Inode).ref = 0 by
        simp [entry, one]) (by simpa [entry] using unlocked)
    have block : ∀ i q, i ≠ (k.icache p).inum → k₁.block i q = k.block i q := by
      intro i q other
      have apart := emptied.apart i q other
      rw [Kernel.blk, Kernel.blk, ← written, Kernel.cur_of_copy copy] at apart
      exact apart
    have released : (k₁.setInode p { k₁.icache p with
        valid := false, ref := (k₁.icache p).ref - 1 }).NoLeak := by
      refine sound.ok.noLeak_iff.mpr fun b data => ?_
      rw [sound.sb] at data
      obtain ⟨old, others⟩ := marks b data.high data.used
      obtain ⟨i, q, here⟩ := ok.noLeak_iff.mp kept b ⟨data.low, data.high, old⟩
      refine ⟨i, q, (block i q ?_).trans here⟩
      rintro rfl
      exact others ⟨DataBlock.ne_zero data, q, here⟩
    simpa using released
  · exact wp_post (iput_kept ok used last) fun _ _ grown => grown.noLeak ok kept

/-! ## Runs -/

/-- A file that is freed is bare. -/
def FreesBare (k : Kernel) : FsEvent → Prop
  | (.iput p, _) => (k.icache p).valid = true → (k.icache p).dinode.nlink = 0 →
      (k.icache p).ref = 1 → k.Bare (k.icache p).inum
  | _ => True

theorem freesBare_of {es : List FsEvent} (others : ∀ e ∈ es, ∀ p, e.1 ≠ .iput p) :
    Along fsStep FreesBare k es := by
  refine along_mono _ (fun k e other => ?_) (along_of_all fsStep others)
  obtain ⟨c, r⟩ := e
  cases c with
  | iput p => exact absurd rfl (other p)
  | _ => trivial

theorem exec_noLeak {c : Call} {r : Reply} (ok : k.Ok) (legal : c.Legal k)
    (bare : FreesBare k (c, r)) (kept : k.NoLeak) :
    wp c.exec (fun _ k' => k'.NoLeak) Harmless k := by
  by_cases put : ∃ p, c = .iput p
  · obtain ⟨p, rfl⟩ := put
    exact (wp_bind _ _ _ _ _).mpr (iput_noLeak ok legal bare kept)
  · exact wp_post (exec_grows ok legal (not_exists.mp put)) fun _ _ grown => grown.noLeak ok kept

theorem fsRun_noLeak (ok : k.Ok) (kept : k.NoLeak) {es : List FsEvent}
    (bare : Along fsStep FreesBare k es) (done : run fsStep k es = some k') : k'.NoLeak := by
  have both : k'.Ok ∧ k'.NoLeak := by
    refine run_invariant_along fsStep (I := fun k => k.Ok ∧ k.NoLeak) (fun k e k' inv bare step => ?_)
      ⟨ok, kept⟩ bare done
    obtain ⟨legal, ran⟩ := fsStep_iff.mp step
    exact ⟨(fsStep_sound inv.1 step).ok,
      wp_ok (m := e.1.exec) (s := k) (exec_noLeak inv.1 legal bare inv.2) ran⟩
  exact both.2

end

namespace Mkfs

variable {img : Image} {fs : List InputFile}

theorem boot_noLeak (finished : Finished img fs) : (boot img.sector).NoLeak := by
  rw [(boot_ok finished).noLeak_iff, boot_block finished, boot_sb finished, boot_store finished]
  exact finished.chained

/-- **A file that is only its first index block is released completely**: `itrunc` clears the
bits of its blocks and no other, and empties it.  So from an image from mkfs no block is lost
as long as the files that are freed are such files. -/
theorem bare_files_do_not_leak {k : Kernel} {p : IPtr} (ok : k.Ok)
    (area : (k.icache p).inum < k.sb.icap) (copy : (k.icache p).dinode = k.disk (k.icache p).inum)
    (inside : 1 ≤ k.log.outstanding)
    (room : k.log.lh.length + 1 < logsize ∧ k.log.lh.length + 1 < k.log.size - 1)
    (bare : k.Bare (k.icache p).inum) {es : List FsEvent} {k' : Kernel} (made : mkfs fs = some img)
    (few : fs.length ≤ 206) (freed : Along fsStep FreesBare (boot img.sector) es)
    (done : run fsStep (boot img.sector) es = some k') :
    (∃ k₁, itrunc p k = .ok ((), k₁) ∧ Cut (k.Owns (k.icache p).inum) p k k₁) ∧ k'.NoLeak := by
  constructor
  · obtain ⟨k₁, ran⟩ := itrunc_run ok area copy inside room
    exact ⟨k₁, ran, Prog.wp_ok (m := itrunc p) (s := k) (itrunc_bare ok area copy bare) ran⟩
  · have finished := mkfs_finished made few
    exact fsRun_noLeak (boot_ok finished) (boot_noLeak finished) freed done

/-! ## A new file and a file with bytes -/

theorem firstFreeInode_boot (finished : Finished img []) :
    firstFreeInode (boot img.sector).sb (boot img.sector).store = some 2 := by
  have disk : ∀ i, (boot img.sector).sb.dinode (boot img.sector).store i = img.disk i :=
    fun i => congrFun (boot_disk finished) i
  have root : (img.disk 1).type ≠ 0 := by
    rw [finished.rootType]
    decide
  have free : (img.disk 2).type = 0 := by
    rw [finished.unused 2 (by decide) (.inr (Nat.le_refl 2))]
    rfl
  have inodes : List.range' 1 ((boot img.sector).sb.ninodes - 1) = 1 :: 2 :: List.range' 3 197 := by
    rw [boot_sb finished]
    rfl
  rw [firstFreeInode, inodes, List.find?_cons_of_neg (by simpa [disk] using root),
    List.find?_cons_of_pos (by simpa [disk] using free)]

/-- A new file on the image without files. -/
theorem created_run (finished : Finished img []) : ∃ k,
    run fsStep (boot img.sector) [(.beginOp, .unit), (.ialloc tFile, .inode 0), (.ilock 0, .unit)] =
      some k ∧
    (k.icache 0).inum = 2 ∧ k.sb = sb ∧ (k.icache 0).dinode = k.disk 2 ∧
    (∀ j, (k.disk 2).addrs j = 0) ∧ k.log.outstanding = 1 ∧ k.log.lh.length ≤ 1 ∧
    k.log.size = sb.nlog := by
  generalize begun : ({ boot img.sector with
    log := { (boot img.sector).log with outstanding := 1 } } : Kernel) = k₀
  have super : k₀.sb = sb := by
    rw [← begun]
    exact boot_sb finished
  have log : k₀.log.lh = [] ∧ k₀.log.outstanding = 1 ∧ k₀.log.size = sb.nlog := by
    rw [← begun]
    exact ⟨rfl, rfl, congrArg Superblock.nlog (boot_sb finished)⟩
  have free : firstFreeInode k₀.sb k₀.store = some 2 := by
    rw [← begun]
    exact firstFreeInode_boot finished
  have allocated := ialloc_run free (by rw [Log.Room, log.1, log.2.2]; decide) (by rw [log.2.1]) tFile
  have disk := disk_fill k₀ 2 { Dinode.zero with type := tFile }
  have short := Log.length_absorb_le k₀.log.lh (k₀.sb.iblock 2)
  generalize filled : k₀.put (k₀.sb.iblock 2) (Dinode.put { Dinode.zero with type := tFile }
    (k₀.store (k₀.sb.iblock 2)) (inodeOffset 2)) = k₁ at allocated disk
  have got : iget 2 k₁ = .ok (0, k₁.setInode 0 ⟨2, 1, false, false, Dinode.zero⟩) := by
    rw [← filled, ← begun]
    rfl
  have here : k₁.disk 2 = { Dinode.zero with type := tFile } := by
    rw [disk, update_self]
  have entry : (k₁.setInode 0 ⟨2, 1, false, false, Dinode.zero⟩).icache 0 =
      ⟨2, 1, false, false, Dinode.zero⟩ := by simp
  have locked := ilock_fresh (k := k₁.setInode 0 ⟨2, 1, false, false, Dinode.zero⟩) (p := 0)
    (by rw [entry]; exact Nat.one_pos) (by rw [entry]) (by rw [entry])
    (by rw [entry]; show (k₁.disk 2).type ≠ 0; rw [here]; decide)
  rw [entry] at locked
  refine ⟨_, (run_cons _).mpr ⟨k₀, fsStep_iff.mpr ⟨trivial, ?_⟩, (run_cons _).mpr ⟨_,
    fsStep_iff.mpr ⟨trivial, run_bind (allocated.trans got)⟩, (run_cons _).mpr ⟨_,
      fsStep_iff.mpr ⟨?_, run_bind locked⟩, rfl⟩⟩⟩, ?_, ?_, ?_, ?_, ?_, ?_, ?_⟩
  · rw [← begun]
    rfl
  · show ((k₁.setInode 0 ⟨2, 1, false, false, Dinode.zero⟩).icache 0).inum < k₁.sb.icap
    rw [entry, ← filled]
    show 2 < k₀.sb.icap
    rw [super]
    decide
  · simp
  · rw [← super, ← filled]
    rfl
  · rw [Kernel.icache_setInode, update_self]
    rfl
  · intro j
    show (k₁.disk 2).addrs j = 0
    rw [here]
    rfl
  · rw [← log.2.1, ← filled]
    rfl
  · have length : k₀.log.lh.length = 0 := by rw [log.1]; rfl
    rw [← filled]
    refine Nat.le_trans short ?_
    rw [length]
  · rw [← log.2.2, ← filled]
    rfl

/-- Truncating a new file. -/
theorem new_file_is_released : ∃ img k k₁, mkfs [] = some img ∧
    run fsStep (boot img.sector) [(.beginOp, .unit), (.ialloc tFile, .inode 0), (.ilock 0, .unit)] =
      some k ∧
    itrunc 0 k = .ok ((), k₁) ∧ Cut (k.Owns 2) 0 k k₁ ∧ k.NoLeak := by
  obtain ⟨img, made⟩ := empty_image
  have finished := mkfs_finished made (Nat.zero_le _)
  obtain ⟨k, done, inum, super, copy, addrs, inside, short, size⟩ := created_run finished
  have ok := (fsRun_sound (boot_ok finished) done).ok
  have room : k.log.lh.length + 1 < logsize ∧ k.log.lh.length + 1 < k.log.size - 1 := by
    rw [size]
    have : sb.nlog = 30 := rfl
    simp only [logsize, maxopblocks]
    omega
  have bare : k.Bare 2 := by
    intro q _
    rw [Kernel.block, Superblock.blockAt, Superblock.heads, addrs, UInt32.toNat_zero, ite_self]
    exact Chain.addr_zero _
  obtain ⟨⟨k₁, ran, cut⟩, kept⟩ := bare_files_do_not_leak (p := 0) ok
    (by rw [inum, super]; decide) (by rw [inum]; exact copy) (by omega) room (by rwa [inum]) made
    (Nat.zero_le _) (freesBare_of (by simp)) done
  rw [inum] at cut
  exact ⟨img, k, k₁, made, done, ran, cut, kept⟩

/-- The kernel with inode `i` locked, in a transaction. -/
def begun (img : Image) (i : Nat) : Kernel :=
  { opened img i with log := { (opened img i).log with outstanding := 1 } }

theorem begun_run (finished : Finished img fs) {i : Nat} (area : i < 208)
    (typed : (img.disk i).type ≠ 0) :
    run fsStep (boot img.sector) [(.iget i, .inode 0), (.ilock 0, .unit), (.beginOp, .unit)] =
      some (begun img i) := by
  show run fsStep _ ([(.iget i, .inode 0), (.ilock 0, .unit)] ++ [(.beginOp, .unit)]) = _
  refine (run_append fsStep).mpr
    ⟨_, open_run finished area typed, (run_cons _).mpr ⟨_, fsStep_iff.mpr ⟨trivial, ?_⟩, rfl⟩⟩
  rfl

/-- **Only `iput` takes blocks from files**: from any state that a run on an image from mkfs
reaches, calls without `iput` leave every block of every file where it is, and every block
that they mark in use they give to a file. -/
theorem blocks_stay (made : mkfs fs = some img) (few : fs.length ≤ 206) {es es' : List FsEvent}
    {k k' : Kernel} (reached : run fsStep (boot img.sector) es = some k)
    (others : ∀ e ∈ es', ∀ p, e.1 ≠ .iput p) (done : run fsStep k es' = some k') :
    (∀ i q, k.block i q ≠ 0 → k'.block i q = k.block i q) ∧ Marks k k' := by
  have ok := (fsRun_sound (boot_ok (mkfs_finished made few)) reached).ok
  have grown : Grows k k' := by
    refine run_invariant_along fsStep (I := Grows k) (fun k₁ e k₂ grown other step => ?_)
      (Quiet.refl ok).grows (along_of_all fsStep others) done
    obtain ⟨legal, ran⟩ := fsStep_iff.mp step
    exact grown.trans (Prog.wp_ok (m := e.1.exec) (s := k₁) (exec_grows grown.ok legal other) ran)
  exact ⟨grown.keeps, grown.marks⟩

theorem opening_blocks_stay : ∃ img k, mkfs oneFile = some img ∧
    run fsStep (boot img.sector) [(.iget 2, .inode 0), (.ilock 0, .unit), (.beginOp, .unit)] =
      some k ∧ (boot img.sector).block 2 (.item 0) ≠ 0 ∧ Marks (boot img.sector) k ∧
    ∀ i q, (boot img.sector).block i q ≠ 0 → k.block i q = (boot img.sector).block i q := by
  obtain ⟨img, made⟩ := oneFile_image
  have finished := mkfs_finished made (by decide)
  have file := finished.files 0 (by decide)
  have done := begun_run finished (i := 2) (by decide) (by rw [file.type]; decide)
  have start : run fsStep (boot img.sector) [] = some (boot img.sector) := rfl
  obtain ⟨stay, marks⟩ := blocks_stay made (by decide) start (by simp) done
  refine ⟨img, _, made, done, ?_, marks, stay⟩
  rw [boot_block finished, finished.otherBlocks 2 (by decide) (by decide), file.size]
  decide

/-- The file `a` of one byte: `itrunc` leaves the block of that byte in use, in no file. -/
theorem itrunc_leaks : ∃ img k k' b, mkfs oneFile = some img ∧
    run fsStep (boot img.sector) [(.iget 2, .inode 0), (.ilock 0, .unit), (.beginOp, .unit)] =
      some k ∧
    k.NoLeak ∧ itrunc 0 k = .ok ((), k') ∧ k.Owns 2 b ∧ k.sb.used k'.store b = true ∧
    ∀ i, ¬ k'.Owns i b := by
  obtain ⟨img, made⟩ := oneFile_image
  have finished := mkfs_finished made (by decide)
  have file := finished.files 0 (by decide)
  have done := begun_run finished (i := 2) (by decide) (by rw [file.type]; decide)
  have ok := (fsRun_sound (boot_ok finished) done).ok
  have there : (begun img 2).block 2 (.item 0) ≠ 0 := by
    show (boot img.sector).block 2 (.item 0) ≠ 0
    rw [boot_block finished, finished.otherBlocks 2 (by decide) (by decide), file.size]
    decide
  have copy : ((begun img 2).icache 0).dinode = (begun img 2).disk 2 := by
    show img.disk 2 = (boot img.sector).disk 2
    rw [boot_disk finished]
  have room : (begun img 2).log.lh.length + 1 < logsize ∧
      (begun img 2).log.lh.length + 1 < (begun img 2).log.size - 1 := by
    show 0 + 1 < logsize ∧ 0 + 1 < (boot img.sector).sb.nlog - 1
    rw [boot_sb finished]
    decide
  obtain ⟨k', ran, used, lost⟩ := itrunc_loses (p := 0) ok
    (show 2 < (boot img.sector).sb.icap by rw [boot_sb finished]; decide) copy
    (Nat.le_refl 1) room (nofun : Pos.item 0 ≠ .index 0) there
  refine ⟨img, _, k', _, made, done, ?_, ran, ⟨there, _, rfl⟩, used, lost⟩
  exact fsRun_noLeak (boot_ok finished) (boot_noLeak finished)
    (freesBare_of (by simp)) done

end Mkfs

end BasicOS
