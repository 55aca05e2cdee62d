/-
# BasicOS.Mkfs.Mount — the kernel on an image from mkfs

Booting on a finished image gives a kernel state in order, so everything that
runs from states in order keep holds in every state reachable from the image.
The size of the root directory is the exception: `mkfs` rounds it up past a full
last block too, and then the directory has a hole at its end.
-/
import BasicOS.Fs.Machine
import BasicOS.Fs.Reads
import BasicOS.Mkfs.Main

namespace BasicOS.Mkfs

open Lib Function
open Lib.Chain (Pos)

set_option autoImplicit false

variable {img : Image} {fs : List InputFile}

/-! ## Booting -/

theorem decode_sector (finished : Finished img fs) : Superblock.decode (img.sector 1) = sb := by
  rw [finished.sector]
  exact finished.blocks.super

/-- Recovery finds nothing to do. -/
theorem boot_store (finished : Finished img fs) : (boot img.sector).store = img.marked := by
  have header := finished.header
  have start : (Superblock.decode (img.sector 1)).logstart = 2 := by
    rw [decode_sector finished]
    rfl
  have idle : recoverFromLog 2 ⟨img.sector, fun _ => none⟩ = [writeHead 2 []] := by
    have none_logged : readHead (img.sector 2) = [] := by
      rw [finished.sector, header]
      rfl
    unfold recoverFromLog
    show installTrans 2 0 (readHead (img.sector 2)) ++ _ = _
    rw [none_logged]
    rfl
  have cleared : putHead (img.sector 2) [] = img.marked 2 := by
    rw [finished.sector, header]
    exact Bytes.put32_zero _
  show (exec (recoverFromLog (Superblock.decode (img.sector 1)).logstart _) _).bread = _
  rw [start, idle, exec_cons, exec_nil, Dev.bread_bwrite]
  show update img.sector 2 (putHead (img.sector 2) []) = _
  rw [cleared, finished.sector, update_eq_self]

section Boot

variable (finished : Finished img fs)

include finished

theorem boot_sb : (boot img.sector).sb = sb :=
  decode_sector finished

theorem boot_disk : (boot img.sector).disk = img.disk := by
  funext i
  rw [Kernel.disk, boot_store finished, boot_sb finished]
  rfl

theorem boot_size (i : Nat) : (boot img.sector).size i = (img.disk i).size.toNat := by
  rw [Kernel.size, boot_disk finished]

theorem boot_content : (boot img.sector).content = img.content := by
  funext i
  rw [Kernel.content, boot_store finished, boot_sb finished, boot_disk finished]
  rfl

theorem boot_block : (boot img.sector).block = img.block := by
  funext i q
  rw [Kernel.block, boot_store finished, boot_sb finished, boot_disk finished]
  rfl

theorem boot_ok : (boot img.sector).Ok := by
  refine ⟨?_, ⟨rfl, rfl, rfl, List.nodup_nil, ?_, Nat.zero_le _, Nat.zero_le _⟩, ?_, ?_, ?_⟩
  · rw [boot_sb finished, boot_store finished, boot_disk finished]
    exact finished.blocks
  · intro b mem
    cases mem
  · intro p used
    cases used
  · intro p q used
    cases used
  · intro p held
    cases held

/-- The blocks below the sizes are there, unless the entries of the root directory
fill its last block. -/
theorem boot_covered (spare : (fs.length + 2) % 32 ≠ 0) : (boot img.sector).Covered := by
  intro i area n below
  rw [boot_sb finished] at area
  rw [boot_size finished] at below
  rw [boot_block finished]
  by_cases root : i = 1
  · subst root
    rw [finished.rootBlocks]
    rw [finished.rootSize] at below
    simp only [rootSize, bsize] at *
    omega
  · exact (finished.otherBlocks i area root n).mpr below

end Boot

/-! ## Opening an inode -/

/-- The booted kernel with inode `i` locked. -/
def opened (img : Image) (i : Nat) : Kernel :=
  (boot img.sector).setInode 0 ⟨i, 1, true, true, img.disk i⟩

theorem ilock_boot (finished : Finished img fs) {i : Nat} (typed : (img.disk i).type ≠ 0) :
    ilock 0 ((boot img.sector).setInode 0 ⟨i, 1, false, false, Dinode.zero⟩) =
      .ok ((), opened img i) := by
  have disk : (boot img.sector).sb.dinode (boot img.sector).store i = img.disk i :=
    congrFun (boot_disk finished) i
  have first : ((boot img.sector).setInode 0 ⟨i, 1, false, false, Dinode.zero⟩).icache 0 =
      ⟨i, 1, false, false, Dinode.zero⟩ := by simp
  have locked := ilock_fresh (k := (boot img.sector).setInode 0 ⟨i, 1, false, false, Dinode.zero⟩)
    (p := 0) (by rw [first]; exact Nat.one_pos) (by rw [first]) (by rw [first])
    (by rw [first, Kernel.sb_setInode, Kernel.store_setInode, disk]; exact typed)
  rw [locked, first, Kernel.sb_setInode, Kernel.store_setInode, disk]
  simp [Kernel.setInode, opened]

/-- `iget` and `ilock` on the booted kernel. -/
theorem open_run (finished : Finished img fs) {i : Nat} (area : i < 208)
    (typed : (img.disk i).type ≠ 0) :
    run fsStep (boot img.sector) [(.iget i, .inode 0), (.ilock 0, .unit)] =
      some (opened img i) := by
  have got : (Call.iget i).exec (boot img.sector) = .ok (.inode 0,
      (boot img.sector).setInode 0 ⟨i, 1, false, false, Dinode.zero⟩) := rfl
  refine (run_cons _).mpr ⟨_, fsStep_iff.mpr ⟨trivial, got⟩, (run_cons _).mpr ⟨_,
    fsStep_iff.mpr ⟨?_, Prog.run_bind (ilock_boot finished typed)⟩, rfl⟩⟩
  show i < (boot img.sector).sb.icap
  rw [boot_sb finished]
  exact area

/-! ## No block is shared -/

/-- **In every state reachable from an image**, a block number in a chain is a
data block that is marked in use, and is in that place only; and `bfree` never
finds a block free. -/
theorem no_block_shared {es : List FsEvent} {k : Kernel} (made : mkfs fs = some img)
    (few : fs.length ≤ 206) (done : run fsStep (boot img.sector) es = some k) :
    (∀ i q, k.block i q ≠ 0 → k.sb.DataBlock k.store (k.block i q)) ∧
    (∀ i q i' q', k.block i q ≠ 0 → k.block i q = k.block i' q' → i = i' ∧ q = q') ∧
    ∀ c : Call, c.Legal k → c.exec k ≠ .error (.panic "freeing free block") := by
  have ok := (fsRun_sound (boot_ok (mkfs_finished made few)) done).ok
  refine ⟨fun i q there => ok.blocks.owned there,
    fun i q i' q' there same => ok.blocks.placed.inj same there, fun c legal stopped => ?_⟩
  exact (Prog.wp_iff.mp (exec_spec ok legal)).2 _ stopped rfl

theorem empty_image : ∃ img, mkfs [] = some img :=
  mkfs_completes (Nat.zero_le _) (fun _ mem => nomatch mem) (by decide)

/-- The image without files: the root directory has a block, and it is its own. -/
theorem root_block_not_shared : ∃ img k, mkfs [] = some img ∧
    run fsStep (boot img.sector) [(.iget 1, .inode 0), (.ilock 0, .unit)] = some k ∧
    k.block 1 (.item 0) ≠ 0 ∧ k.sb.DataBlock k.store (k.block 1 (.item 0)) ∧
    ∀ i q, k.block 1 (.item 0) = k.block i q → i = 1 ∧ q = .item 0 := by
  obtain ⟨img, made⟩ := empty_image
  have finished := mkfs_finished made (Nat.zero_le _)
  have done := open_run finished (i := 1) (by decide) (by rw [finished.rootType]; decide)
  have there : (opened img 1).block 1 (.item 0) ≠ 0 := by
    show (boot img.sector).block 1 (.item 0) ≠ 0
    rw [boot_block finished, finished.rootBlocks]
    decide
  obtain ⟨data, once, -⟩ := no_block_shared made (Nat.zero_le _) done
  refine ⟨img, _, made, done, there, data _ _ there, fun i q same => ?_⟩
  obtain ⟨rfl, rfl⟩ := once 1 (.item 0) i q there same
  exact ⟨rfl, rfl⟩

/-! ## Reading never allocates, or does -/

/-- **In every state reachable from an image** whose root directory is not full to
the end of a block, the blocks below the sizes are there, and `readi` returns and
changes nothing. -/
theorem reading_never_allocates {es : List FsEvent} {k : Kernel} (made : mkfs fs = some img)
    (few : fs.length ≤ 206) (spare : (fs.length + 2) % 32 ≠ 0)
    (done : run fsStep (boot img.sector) es = some k) :
    (∀ i < k.sb.icap, ∀ n, n * bsize < k.size i → k.block i (.item n) ≠ 0) ∧
    ∀ p off n, (k.icache p).locked = true → ∃ r, readi p off n k = .ok (r, k) := by
  have finished := mkfs_finished made few
  have sound := fsRun_sound (boot_ok finished) done
  have covered := sound.covered (boot_covered finished spare)
  exact ⟨covered, fun p off n held => readi_covered sound.ok covered held off n⟩

/-- The image without files. -/
theorem empty_image_reads : ∃ img k, mkfs [] = some img ∧
    run fsStep (boot img.sector) [(.iget 1, .inode 0), (.ilock 0, .unit)] = some k ∧
    0 < k.size 1 ∧ k.block 1 (.item 0) ≠ 0 ∧ ∃ r, readi 0 0 16 k = .ok (r, k) := by
  obtain ⟨img, made⟩ := empty_image
  have finished := mkfs_finished made (Nat.zero_le _)
  have done := open_run finished (i := 1) (by decide) (by rw [finished.rootType]; decide)
  have size : (opened img 1).size 1 = 512 := by
    show (boot img.sector).size 1 = _
    rw [boot_size finished, finished.rootSize]
    rfl
  obtain ⟨covered, reads⟩ := reading_never_allocates made (Nat.zero_le _) (by decide) done
  refine ⟨img, _, made, done, by rw [size]; decide, covered 1 ?_ 0 (by rw [size]; decide),
    reads 0 0 16 (by rfl)⟩
  show 1 < (boot img.sector).sb.icap
  rw [boot_sb finished]
  decide

/-- Where the entries of the root directory fill its last block, reading past them
allocates. -/
theorem full_root_read (finished : Finished img fs) (few : fs.length ≤ 206)
    (full : (fs.length + 2) % 32 = 0) :
    readi 0 (UInt32.ofNat (16 * (fs.length + 2))) 16 (opened img 1) =
      .error (.panic "log_write outside of trans") := by
  have done := open_run finished (i := 1) (by decide) (by rw [finished.rootType]; decide)
  have ok := (fsRun_sound (boot_ok finished) done).ok
  have off : (UInt32.ofNat (16 * (fs.length + 2))).toNat = 16 * (fs.length + 2) := by
    rw [UInt32.toNat_ofNat']
    omega
  have sixteen : (16 : UInt32).toNat = 16 := rfl
  have block : ∀ q, (opened img 1).block 1 q = img.block 1 q := fun q =>
    congrFun (congrFun (boot_block finished) 1) q
  have first : img.block 1 (.item 0) ≠ 0 := (finished.rootBlocks 0).mpr (by omega)
  have level : 16 * (fs.length + 2) / bsize / perIndex = 0 := by
    simp only [bsize, perIndex, nindirect]
    omega
  have unused : sb.used img.marked img.freeblock = false := by
    rw [used_marked (Nat.lt_trans finished.room (by decide))]
    exact decide_eq_false (Nat.lt_irrefl _)
  obtain ⟨b, found⟩ := firstFree_isSome (Nat.lt_trans finished.room (by decide)) unused
  refine readi_hole (b := b) rfl ?_ rfl ok rfl _ _ ?_ ?_ ?_ ?_ ?_ ?_ ?_
  · show 1 < (Superblock.decode (img.sector 1)).nlog
    rw [decode_sector finished]
    decide
  · show firstFree (boot img.sector).sb (boot img.sector).store = _
    rw [boot_sb finished, boot_store finished, found]
  · show (img.disk 1).type ≠ tDev
    rw [finished.rootType]
    decide
  · show _ < (boot img.sector).size 1
    rw [off, boot_size finished, finished.rootSize]
    simp only [rootSize, bsize]
    omega
  · decide
  · rw [off, sixteen]
    omega
  · show (opened img 1).block 1 _ ≠ 0
    rw [off, block, level]
    exact Chain.idx_of_parent (p := .item 0) rfl first
  · show (opened img 1).block 1 _ = 0
    rw [off, block]
    by_contra there
    have := (finished.rootBlocks _).mp there
    simp only [bsize] at this
    omega

/-- An empty file with a name of one letter. -/
def emptyFile (n : Fin 30) : InputFile where
  name := [UInt8.ofNat (97 + n)]
  pieces := []
  string := by
    simp only [List.mem_singleton, forall_eq]
    revert n
    decide
  sizes := by simp

/-- With thirty files the root directory has thirty-two entries, one block; its
size says two, and reading the second one panics. -/
theorem thirty_files_read_panics : ∃ img k,
    mkfs ((List.finRange 30).map emptyFile) = some img ∧
    run fsStep (boot img.sector) [(.iget 1, .inode 0), (.ilock 0, .unit)] = some k ∧
    k.size 1 = 1024 ∧ k.block 1 (.item 1) = 0 ∧ (Call.readi 0 512 16).Legal k ∧
    (Call.readi 0 512 16).exec k = .error (.panic "log_write outside of trans") := by
  have few : ((List.finRange 30).map emptyFile).length ≤ 206 := by simp
  obtain ⟨img, made⟩ := mkfs_completes few (by decide) (by decide)
  have finished := mkfs_finished made few
  have done := open_run finished (i := 1) (by decide) (by rw [finished.rootType]; decide)
  have entries : ((List.finRange 30).map emptyFile).length = 30 := by simp
  have read := full_root_read finished few (by rw [entries])
  rw [entries] at read
  refine ⟨img, _, made, done, ?_, ?_, rfl, Prog.run_bind_error read⟩
  · show (boot img.sector).size 1 = _
    rw [boot_size finished, finished.rootSize, entries]
    rfl
  · show (boot img.sector).block 1 _ = 0
    rw [boot_block finished]
    by_contra there
    have := (finished.rootBlocks 1).mp there
    rw [entries] at this
    exact absurd this (by decide)

end BasicOS.Mkfs
