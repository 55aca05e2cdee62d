/-
# BasicOS.Spec.ByteFile — inodes are byte arrays

What a file is for: a size, and a byte at each offset.  Writing replaces a range
of bytes and may move the end; reading returns a range, cut off at the end.
`Files.step` is the file system in these terms: one byte array for each inode
number, and for each event the condition on its reply.

`readi` and `writei` on chains of index blocks refine it: every run of transfers
between inodes is a run of the byte arrays, with the same replies.
-/
import BasicOS.Fs.Machine
import BasicOS.Mkfs.Mount

namespace BasicOS

open Lib Function
open Lib.Prog

set_option autoImplicit false

/-! ## The abstract files -/

structure ByteFile where
  size : Nat
  bytes : Bytes

namespace ByteFile

/-- Put the first `n` bytes of `src` at `off`. -/
def write (f : ByteFile) (src : Bytes) (off n : Nat) : ByteFile where
  size := max f.size (off + n)
  bytes := f.bytes.copy off src n

/-- Up to `n` bytes from `off` on. -/
def read (f : ByteFile) (off n : Nat) : List UInt8 :=
  f.bytes.slice off (min n (f.size - off))

variable {f : ByteFile} {src src' : Bytes} {off m n : Nat}

theorem write_zero (inside : off ≤ f.size) : f.write src off 0 = f := by
  simp [write, inside]

/-- Only the bytes written matter. -/
theorem write_congr (same : ∀ j < n, src j = src' j) : f.write src off n = f.write src' off n := by
  have bytes : f.bytes.copy off src n = f.bytes.copy off src' n := by
    funext j
    unfold Bytes.copy
    split
    · exact same _ (by omega)
    · rfl
  rw [write, write, bytes]

/-- Two writes in a row are one. -/
theorem write_write :
    (f.write src off m).write (src.drop m) (off + m) n = f.write src off (m + n) := by
  have bytes : (f.bytes.copy off src m).copy (off + m) (src.drop m) n =
      f.bytes.copy off src (m + n) := by
    funext j
    by_cases later : off + m ≤ j ∧ j < off + m + n
    · rw [Bytes.copy_inside later.1 later.2, Bytes.copy_inside (by omega) (by omega)]
      show src (m + (j - (off + m))) = src (j - off)
      congr 1
      omega
    · rw [Bytes.copy_outside (by omega)]
      by_cases first : off ≤ j ∧ j < off + m
      · rw [Bytes.copy_inside first.1 first.2, Bytes.copy_inside (by omega) (by omega)]
      · rw [Bytes.copy_outside (by omega), Bytes.copy_outside (by omega)]
  unfold write
  simp only [bytes, mk.injEq, and_true]
  omega

/-- Lists written one after the other. -/
theorem write_append (f : ByteFile) (a b : List UInt8) (off : Nat) :
    (f.write (.ofList a) off a.length).write (.ofList b) (off + a.length) b.length =
      f.write (.ofList (a ++ b)) off (a ++ b).length := by
  rw [List.length_append, ← write_write]
  have first : f.write (.ofList a) off a.length = f.write (.ofList (a ++ b)) off a.length := by
    apply write_congr
    intro j inside
    simp [Bytes.ofList, List.getElem?_append_left inside]
  rw [first]
  apply write_congr
  intro j _
  simp [Bytes.ofList, Bytes.drop, List.getElem?_append_right]

end ByteFile

/-- A file for each inode number. -/
abbrev Files := Nat → ByteFile

/-- Events that only move bytes: transactions, locks, and successful reads and
writes. -/
def Transfer : FsEvent → Prop
  | (.beginOp, _) | (.endOp, _) | (.ilock _, _) | (.iunlock _, _) => True
  | (.readi _ _ _, .data (.done _)) | (.writei _ _ _ _, .wrote (.done _)) => True
  | _ => False

instance : DecidablePred Transfer := fun e => by
  unfold Transfer
  split <;> infer_instance

/-- The step of the byte arrays; `inum` says which file a pointer stands for.
A write starts inside the file or at its end, and keeps below the maximum. -/
def Files.step (inum : IPtr → Nat) (f : Files) : FsEvent → Option Files
  | (.readi p off n, .data (.done data)) =>
    if data = (f (inum p)).read off.toNat n.toNat ∧ off.toNat ≤ (f (inum p)).size then some f
    else none
  | (.writei p src off n, .wrote (.done m)) =>
    if m = n ∧ off.toNat ≤ (f (inum p)).size ∧ off.toNat + n.toNat ≤ maxfile * bsize then
      some (update f (inum p) ((f (inum p)).write src off.toNat n.toNat))
    else none
  | _ => some f

/-- Where a write to inode `i` ends. -/
def writeEnd (inum : IPtr → Nat) (i : Nat) : FsEvent → Option Nat
  | (.writei p _ off n, .wrote (.done _)) => if inum p = i then some (off.toNat + n.toNat) else none
  | _ => none

section Abstract

variable {inum : IPtr → Nat} {f f' : Files}

theorem size_of_step {e : FsEvent} (i : Nat) (step : f.step inum e = some f') :
    (f' i).size = ((writeEnd inum i e).elim id fun top size => max size top) (f i).size := by
  unfold Files.step at step
  split at step
  · split at step
    · cases step
      rfl
    · cases step
  · rename_i p src off n m
    split at step
    · cases step
      by_cases here : inum p = i
      · subst here
        simp [writeEnd, ByteFile.write]
      · simp [writeEnd, here, update_of_ne (Ne.symm here)]
    · cases step
  · rename_i other
    cases step
    unfold writeEnd
    split
    · exact absurd rfl (other _ _ _ _ _)
    · rfl

/-- The size of a byte array is the highest offset written, or what it was. -/
theorem size_of_run {es : List FsEvent} (i : Nat)
    (done : run (Files.step inum) f es = some f') :
    (f' i).size = (es.filterMap (writeEnd inum i)).foldl max (f i).size := by
  induction es generalizing f with
  | nil =>
    cases done
    rfl
  | cons e es ih =>
    obtain ⟨g, step, rest⟩ := (run_cons _).mp done
    rw [ih rest, size_of_step i step, List.filterMap_cons]
    cases writeEnd inum i e <;> rfl

end Abstract

/-! ## The simulation -/

/-- The byte array of inode `i`. -/
def Kernel.file (k : Kernel) (i : Nat) : ByteFile :=
  ⟨k.size i, k.content i⟩

/-- A kernel whose inodes hold the files `f`, and whose pointers stand for the
inodes `inum`. -/
structure Holds (cap : Nat) (inum : IPtr → Nat) (k : Kernel) (f : Files) : Prop where
  ok : k.Ok
  width : k.sb.icap = cap
  names : ∀ p, (k.icache p).inum = inum p
  files : ∀ i < cap, k.file i = f i

section

variable {cap : Nat} {inum : IPtr → Nat} {k k' : Kernel} {f : Files} {p : IPtr}

theorem Quiet.file (quiet : Quiet k k') {i : Nat} (inside : i < k.sb.icap) : k'.file i = k.file i := by
  rw [Kernel.file, Kernel.file, quiet.size inside, quiet.content]

theorem Stored.file {src : Bytes} {off n : Nat} (stored : Stored p src off n k k') :
    k'.file (k.icache p).inum = (k.file (k.icache p).inum).write src off n := by
  rw [Kernel.file, stored.content, stored.size]
  simp [overwrite, ByteFile.write, Kernel.file]

section

variable (holds : Holds cap inum k f)

include holds

theorem Holds.quiet (quiet : Quiet k k') : Holds cap inum k' f := by
  refine ⟨quiet.ok, by rw [quiet.sb, holds.width], fun p => ?_, fun i inside => ?_⟩
  · rw [quiet.icache, holds.names]
  · rw [← holds.files i inside, quiet.file (holds.width ▸ inside)]

/-- Locking changes flags of the inode cache, but no file. -/
theorem Holds.setInode {ip : Inode} (ok : (k.setInode p ip).Ok)
    (same : ip.inum = (k.icache p).inum) : Holds cap inum (k.setInode p ip) f := by
  refine ⟨ok, holds.width, fun q => ?_, holds.files⟩
  by_cases here : q = p
  · subst here
    rw [Kernel.icache_setInode, update_self, same, holds.names]
  · rw [Kernel.icache_setInode, update_of_ne here, holds.names]

/-- A write changes the file behind the pointer, and no other. -/
theorem Holds.stored {src : Bytes} {off n : Nat}
    (stored : Stored p src off n k k') :
    Holds cap inum k' (update f (inum p) ((f (inum p)).write src off n)) := by
  have mine := holds.names p
  refine ⟨stored.ok, by rw [stored.sb, holds.width], fun q => ?_, fun i inside => ?_⟩
  · by_cases here : q = p
    · subst here
      obtain ⟨size, h, entry⟩ := stored.inode
      rw [entry]
      exact mine
    · rw [stored.others q here, holds.names]
  · by_cases here : i = inum p
    · subst here
      rw [update_self, ← holds.files _ inside, ← mine, stored.file]
    · have other : i ≠ (k.icache p).inum := by rwa [mine]
      rw [update_of_ne here, ← holds.files i inside, Kernel.file, stored.content, overwrite,
        update_of_ne other, Kernel.size, stored.disk i (holds.width ▸ inside) other]
      rfl

/-- A step of the kernel that moves bytes is a step of the byte arrays. -/
theorem step_holds {e : FsEvent} (transfer : Transfer e)
    (step : fsStep k e = some k') : ∃ f', f.step inum e = some f' ∧ Holds cap inum k' f' := by
  obtain ⟨c, r⟩ := e
  obtain ⟨legal, done⟩ := fsStep_iff.mp step
  have ok := holds.ok
  unfold Transfer at transfer
  split at transfer
  case h_1 eq =>
    cases eq
    obtain ⟨_, _, call, ret⟩ := run_bind_ok done
    cases ret
    exact ⟨f, rfl, holds.quiet ((wp_iff.mp (beginOp_spec ok)).1 _ _ call)⟩
  case h_2 eq =>
    cases eq
    obtain ⟨_, _, call, ret⟩ := run_bind_ok done
    cases ret
    exact ⟨f, rfl, holds.quiet ((wp_iff.mp (endOp_spec ok)).1 _ _ call)⟩
  case h_3 eq =>
    cases eq
    obtain ⟨_, _, call, ret⟩ := run_bind_ok done
    cases ret
    obtain ⟨sound, d, rfl⟩ := wp_ok (ilock_spec ok legal) call
    exact ⟨f, rfl, holds.setInode sound.ok rfl⟩
  case h_4 eq =>
    cases eq
    obtain ⟨_, _, call, ret⟩ := run_bind_ok done
    cases ret
    obtain ⟨sound, rfl⟩ := wp_ok (iunlock_spec ok) call
    exact ⟨f, rfl, holds.setInode sound.ok rfl⟩
  case h_5 p off n data eq =>
    cases eq
    obtain ⟨_, _, call, ret⟩ := run_bind_ok done
    cases ret
    obtain ⟨quiet, inside, bytes⟩ := wp_ok (readi_spec ok legal off n) call
    have area := (ok.working legal).area
    have file := holds.files _ (holds.width ▸ area)
    refine ⟨f, if_pos ?_, holds.quiet quiet⟩
    rw [← holds.names p, ← file]
    exact ⟨bytes, inside⟩
  case h_6 p src off n m eq =>
    cases eq
    obtain ⟨_, _, call, ret⟩ := run_bind_ok done
    cases ret
    obtain ⟨all, inside, bound, stored⟩ := wp_ok (writei_spec ok legal src off n) call
    have area := (ok.working legal).area
    have file := holds.files _ (holds.width ▸ area)
    refine ⟨_, if_pos ⟨all, ?_, bound⟩, holds.stored stored⟩
    rw [← holds.names p, ← file]
    exact inside
  case h_7 => exact transfer.elim

end

/-! ## A write that fits -/

section Fits

variable (ok : k.Ok) (held : (k.icache p).locked = true) (src : Bytes) (off n : UInt32)
  (file : (k.icache p).dinode.type ≠ tDev)
  (inside : off.toNat ≤ k.size (k.icache p).inum)
  (small : off.toNat + n.toNat ≤ maxfile * bsize)

theorem toNat_end {off n : UInt32} (small : off.toNat + n.toNat ≤ maxfile * bsize) :
    (off + n).toNat = off.toNat + n.toNat := by
  rw [UInt32.toNat_add]
  refine Nat.mod_eq_of_lt (Nat.lt_of_le_of_lt small ?_)
  decide

theorem Kernel.Ok.size_held (ok : k.Ok) (held : (k.icache p).locked = true) :
    (k.icache p).dinode.size.toNat = k.size (k.icache p).inum := by
  obtain ⟨used, valid⟩ := ok.locked p held
  rw [(ok.cache p used valid).2.1]
  rfl

include ok held file inside small

/-- Inside the limits `writei` goes into its loop. -/
theorem writei_fits : writei p src off n k =
    (if n = 0 then return .done n else do
      writeLoop p src off.toNat n.toNat
      setSize p (off + n)
      return .done n : Fs (Io UInt32)) k := by
  have bound : (UInt32.ofNat (maxfile * bsize)).toNat = maxfile * bsize := rfl
  have fits : ¬ (off > (k.icache p).dinode.size ∨ off + n < off) := by
    rw [gt_iff_lt, UInt32.lt_iff_toNat_lt, UInt32.lt_iff_toNat_lt, ok.size_held held,
      toNat_end small]
    omega
  have low : ¬ off + n > UInt32.ofNat (maxfile * bsize) := by
    rw [gt_iff_lt, UInt32.lt_iff_toNat_lt, toNat_end small, bound]
    omega
  unfold writei
  show (if _ then _ else if _ then _ else if _ then _ else _ : Fs (Io UInt32)) k = _
  rw [if_neg file, if_neg fits, if_neg low]

/-- What fits is written in full. -/
theorem writei_whole : wp (writei p src off n) (fun r _ => r = .done n) (fun _ => True) k := by
  unfold wp
  rw [writei_fits ok held src off n file inside small]
  refine wp_ite (fun _ => rfl) fun _ => ?_
  rw [wp_bind]
  refine wp_any fun _ _ => ?_
  rw [wp_bind]
  exact wp_any fun _ _ => rfl

end Fits

/-! ## A write and a read, within one block of a file -/

section OneBlock

variable (ok : k.Ok) (held : (k.icache p).locked = true) (src : Bytes) (off n : UInt32)
  (file : (k.icache p).dinode.type ≠ tDev) (some_bytes : 0 < n.toNat)
  (one : off.toNat % bsize + n.toNat ≤ bsize)
  (inside : off.toNat + n.toNat ≤ k.size (k.icache p).inum)
  (small : off.toNat + n.toNat ≤ maxfile * bsize)
  (there : k.block (k.icache p).inum (.item (off.toNat / bsize)) ≠ 0)

include ok held file some_bytes one inside small there

theorem writei_one (room : k.log.logWriteCheck = .ok ()) :
    ∃ k', writei p src off n k = .ok (.done n, k') := by
  have area := (ok.working held).area
  have more : n ≠ 0 := by
    rintro rfl
    exact Nat.lt_irrefl _ some_bytes
  rw [← ok.blk held] at there
  generalize blk : k.blk p (k.icache p).inum (.item (off.toNat / bsize)) = b at there
  have found : bmap p (off.toNat / bsize) k = .ok (b, k) := by
    rw [← blk]
    exact bmap_there area (by rw [blk]; exact there)
  generalize new : k.put b ((k.store b).copy (off.toNat % bsize) src n.toNat) = k'
  have written : logWrite b ((k.store b).copy (off.toNat % bsize) src n.toNat) k = .ok ((), k') := by
    unfold logWrite
    rw [run_get, room, ← new]
    rfl
  have loop : writeLoop p src off.toNat n.toNat k = .ok ((), k') := by
    have piece : min n.toNat (bsize - off.toNat % bsize) = n.toNat := by omega
    unfold writeLoop
    rw [dif_neg (by omega), piece, run_bind found]
    show (logWrite b ((k.store b).copy (off.toNat % bsize) src n.toNat) >>= fun _ =>
      writeLoop p (src.drop n.toNat) (off.toNat + n.toNat) (n.toNat - n.toNat)) k = _
    rw [run_bind written, Nat.sub_self]
    unfold writeLoop
    rfl
  have kept : setSize p (off + n) k' = .ok ((), k') := by
    have same : (k'.icache p).dinode.size = (k.icache p).dinode.size := by rw [← new]; rfl
    unfold setSize
    show (if off + n > (k'.icache p).dinode.size then _ else _ : Fs Unit) k' = _
    rw [if_neg]
    · rfl
    · rw [same, gt_iff_lt, UInt32.lt_iff_toNat_lt, toNat_end small, ok.size_held held]
      omega
  refine ⟨k', ?_⟩
  rw [writei_fits ok held src off n file (by omega) small, if_neg more, run_bind loop,
    run_bind kept]
  rfl

/-- A transaction with one write, and a read of the same bytes. -/
theorem write_then_read (empty : k.log.lh = []) (outside : k.log.outstanding = 0)
    (roomy : 1 < k.log.size) :
    ∃ k', run fsStep k [(.beginOp, .unit), (.writei p src off n, .wrote (.done n)),
      (.endOp, .unit), (.readi p off n, .data (.done (src.slice 0 n.toNat)))] = some k' := by
  have idle := ok.log.idle
  generalize entered : { k with log := { k.log with outstanding := 1 } } = k₁
  have begun : beginOp k = .ok ((), k₁) := by
    have admitted : k.log.beginOp = some { k.log with outstanding := 1 } := by
      rw [Log.beginOp, if_neg (by rw [idle]; decide), if_neg (by rw [empty, outside]; decide),
        outside]
    unfold beginOp
    rw [run_get, admitted, ← entered]
    rfl
  have quiet₁ := (wp_iff.mp (beginOp_spec ok)).1 _ _ begun
  have room : k₁.log.logWriteCheck = .ok () := by
    rw [← entered]
    show Log.logWriteCheck { k.log with outstanding := 1 } = _
    rw [Log.logWriteCheck, if_neg, if_neg (Nat.lt_irrefl 1)]
    rw [empty]
    simp only [List.length_nil, logsize, maxopblocks]
    omega
  have held₁ : (k₁.icache p).locked = true := by rw [quiet₁.icache]; exact held
  obtain ⟨k₂, wrote⟩ : ∃ k', writei p src off n k₁ = .ok (.done n, k') := by
    refine writei_one quiet₁.ok held₁ src off n ?_ some_bytes one ?_ small ?_ room
    · rw [quiet₁.icache]
      exact file
    · rw [← entered]
      exact inside
    · rw [← entered]
      exact there
  obtain ⟨-, -, -, stored⟩ :=
    (wp_iff.mp (writei_spec quiet₁.ok held₁ src off n)).1 _ _ wrote
  have one_open : k₂.log.outstanding = 1 := by
    rw [stored.outstanding, ← entered]
  obtain ⟨k₃, ended⟩ : ∃ k₃, endOp k₂ = .ok ((), k₃) := by
    have last : k₂.log.endOp = .ok (true, { k₂.log with outstanding := 0, committing := true }) := by
      rw [Log.endOp, stored.ok.log.idle, one_open]
      rfl
    unfold endOp
    rw [run_get, last]
    exact ⟨_, rfl⟩
  have quiet₃ := (wp_iff.mp (endOp_spec stored.ok)).1 _ _ ended
  obtain ⟨size, h, entry⟩ := stored.inode
  rw [← quiet₃.icache, quiet₁.icache] at entry
  have inum : (k₃.icache p).inum = (k.icache p).inum := by rw [entry]
  have held₃ : (k₃.icache p).locked = true := by rw [entry]; exact held
  have area := (ok.working held).area
  have long : off.toNat + n.toNat ≤ k₃.size (k.icache p).inum := by
    have grown := stored.size
    rw [quiet₁.icache] at grown
    rw [quiet₃.size (by rw [stored.sb, quiet₁.sb]; exact area), grown]
    exact Nat.le_max_right _ _
  have read := readi_there quiet₃.ok held₃ off n (by rw [entry]; exact file)
    (by rw [inum]; omega) (Nat.lt_of_le_of_lt small (by decide)) fun o low high _ => by
      have item := stored.there (o / bsize) ⟨o, low, high, rfl⟩
      rw [quiet₁.icache] at item
      rw [inum, quiet₃.keeps _ _ item]
      exact item
  rw [inum, Nat.min_eq_left (by omega), quiet₃.content, stored.content, quiet₁.icache, overwrite,
    update_self, Bytes.slice_copy] at read
  refine ⟨k₃, ?_⟩
  have legal₃ : 1 ≤ k₂.log.outstanding := Nat.le_of_eq one_open.symm
  refine (run_cons _).mpr ⟨k₁, fsStep_iff.mpr ⟨trivial, run_bind begun⟩, ?_⟩
  refine (run_cons _).mpr ⟨k₂, fsStep_iff.mpr ⟨held₁, run_bind wrote⟩, ?_⟩
  refine (run_cons _).mpr ⟨k₃, fsStep_iff.mpr ⟨legal₃, run_bind ended⟩, ?_⟩
  exact (run_cons _).mpr ⟨k₃, fsStep_iff.mpr ⟨held₃, run_bind read⟩, rfl⟩

end OneBlock

/-- **Linked-list files refine byte arrays.**  Any run of reads and writes on any
inodes of a file system in order is a run of the byte arrays that the inodes hold
at its start, with the same replies; at its end the inodes hold the byte arrays
of its end, and the size in a locked inode is the highest offset written to it. -/
theorem files_refine_byte_arrays (ok : k.Ok) {es : List FsEvent}
    (transfers : ∀ e ∈ es, Transfer e) (done : run fsStep k es = some k') :
    ∃ f', run (Files.step fun p => (k.icache p).inum) k.file es = some f' ∧
      (∀ i < k.sb.icap, k'.file i = f' i) ∧
      ∀ p, (k'.icache p).locked = true →
        (k'.icache p).inum = (k.icache p).inum ∧
        (k'.icache p).dinode.size.toNat =
          (es.filterMap (writeEnd (fun p => (k.icache p).inum) (k.icache p).inum)).foldl max
            (k.size (k.icache p).inum) := by
  obtain ⟨f', abstract, holds⟩ := run_simulation fsStep
    (R := Holds k.sb.icap fun p => (k.icache p).inum) (fun _ _ _ _ holds => step_holds holds)
    ⟨ok, rfl, fun _ => rfl, fun _ _ => rfl⟩ transfers done
  refine ⟨f', abstract, holds.files, fun p held => ⟨holds.names p, ?_⟩⟩
  obtain ⟨used, valid⟩ := holds.ok.locked p held
  obtain ⟨area, copy, -⟩ := holds.ok.cache p used valid
  rw [holds.width, holds.names] at area
  have size := size_of_run (k.icache p).inum abstract
  rw [copy, holds.names]
  rw [← holds.files _ area] at size
  exact size

/-- Sixteen bytes of the root directory of the image without files are written and
read back. -/
theorem root_refines_byte_array : ∃ img k k' f' es, Mkfs.mkfs [] = some img ∧
    k = Mkfs.opened img 1 ∧
    es = [(.beginOp, .unit), (.writei 0 UInt8.ofNat 0 16, .wrote (.done 16)), (.endOp, .unit),
      (.readi 0 0 16, .data (.done [0, 1, 2, 3, 4, 5, 6, 7, 8, 9, 10, 11, 12, 13, 14, 15]))] ∧
    run fsStep k es = some k' ∧ run (Files.step fun p => (k.icache p).inum) k.file es = some f' ∧
    k'.file 1 = f' 1 := by
  obtain ⟨img, made⟩ := Mkfs.empty_image
  have finished := Mkfs.mkfs_finished made (Nat.zero_le _)
  have opening := Mkfs.open_run finished (i := 1) (by decide) (by rw [finished.rootType]; decide)
  have ok := (fsRun_sound (Mkfs.boot_ok finished) opening).ok
  have size : (Mkfs.opened img 1).size 1 = 512 := by
    show (boot img.sector).size 1 = _
    rw [Mkfs.boot_size finished, finished.rootSize]
    rfl
  have block : (Mkfs.opened img 1).block 1 (.item 0) ≠ 0 := by
    show (boot img.sector).block 1 (.item 0) ≠ 0
    rw [Mkfs.boot_block finished, finished.rootBlocks]
    decide
  have type : ((Mkfs.opened img 1).icache 0).dinode.type = tDir := finished.rootType
  have log : 1 < (Mkfs.opened img 1).log.size := by
    show 1 < (Superblock.decode (img.sector 1)).nlog
    rw [Mkfs.decode_sector finished]
    decide
  have icap : (Mkfs.opened img 1).sb.icap = 208 := by
    show (boot img.sector).sb.icap = _
    rw [Mkfs.boot_sb finished]
    rfl
  obtain ⟨k', done⟩ := write_then_read (p := 0) ok rfl UInt8.ofNat 0 16 (by rw [type]; decide) (by decide)
    (by decide) (by show 16 ≤ (Mkfs.opened img 1).size 1; rw [size]; decide) (by decide) block rfl
    rfl log
  obtain ⟨f', abstract, files, -⟩ := files_refine_byte_arrays ok (by simp [Transfer]) done
  exact ⟨img, _, k', f', _, made, rfl, rfl, done, abstract, files 1 (by rw [icap]; decide)⟩

end

end BasicOS
