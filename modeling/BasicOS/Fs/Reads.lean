/-
# BasicOS.Fs.Reads — reading what is there

`readi` goes through `bmap`, which allocates.  Where the blocks of the range are
there, it allocates nothing: the call returns the bytes and leaves the whole
kernel state as it is.  The same holds for a lookup in a directory, up to the
entry it finds.
-/
import BasicOS.Fs.Calls

namespace BasicOS

open Lib Function
open Lib.Chain (Pos)

set_option autoImplicit false

section

variable {k : Kernel} {p : IPtr}

/-- `ilock` on an inode that has to be read from disk. -/
theorem ilock_fresh (used : 0 < (k.icache p).ref) (free : (k.icache p).locked = false)
    (unread : (k.icache p).valid = false)
    (typed : (k.sb.dinode k.store (k.icache p).inum).type ≠ 0) :
    ilock p k = .ok ((), k.setInode p { k.icache p with
      locked := true, valid := true, dinode := k.sb.dinode k.store (k.icache p).inum }) := by
  unfold ilock
  show (if _ then _ else if _ then _ else if _ then _ else if _ then _ else _ : Fs Unit) k = _
  rw [if_neg (by omega), if_neg (by rw [free]; decide), if_neg (by rw [unread]; decide),
    if_neg typed]
  rfl

theorem iunlock_run (used : 0 < (k.icache p).ref) (held : (k.icache p).locked = true) :
    iunlock p k = .ok ((), k.setInode p { k.icache p with locked := false }) := by
  unfold iunlock
  show (if (k.icache p).locked = false ∨ (k.icache p).ref < 1 then _ else _ : Fs Unit) k = _
  rw [if_neg (by simp [held]; omega)]
  rfl

/-- `readi` on a range that starts inside the file. -/
theorem readi_eq (ok : k.Ok) (held : (k.icache p).locked = true) (off n : UInt32)
    (file : (k.icache p).dinode.type ≠ tDev) (inside : off.toNat ≤ k.size (k.icache p).inum)
    (narrow : off.toNat + n.toNat < 2 ^ 32) :
    readi p off n k = (readLoop p off.toNat
      (min n.toNat (k.size (k.icache p).inum - off.toNat)) >>= fun data => pure (.done data)) k := by
  obtain ⟨used, valid⟩ := ok.locked p held
  have size : (k.icache p).dinode.size.toNat = k.size (k.icache p).inum := by
    rw [(ok.cache p used valid).2.1]
    rfl
  have within : off ≤ (k.icache p).dinode.size := by
    rw [UInt32.le_iff_toNat_le, size]
    exact inside
  have wraps : ¬ off + n < off := by
    rw [UInt32.lt_iff_toNat_lt, UInt32.toNat_add, Nat.mod_eq_of_lt narrow]
    omega
  have length := clip within wraps
  rw [size] at length
  unfold readi
  show (if _ then _ else if _ then _ else _ : Fs (Io (List UInt8))) k = _
  rw [if_neg file, if_neg (not_or.mpr ⟨UInt32.not_lt.mpr within, wraps⟩)]
  simp only [length]

/-- `readi` on a range whose blocks are there. -/
theorem readi_there (ok : k.Ok) (held : (k.icache p).locked = true) (off n : UInt32)
    (file : (k.icache p).dinode.type ≠ tDev) (inside : off.toNat ≤ k.size (k.icache p).inum)
    (narrow : off.toNat + n.toNat < 2 ^ 32)
    (there : ∀ o, off.toNat ≤ o → o < off.toNat + n.toNat → o < k.size (k.icache p).inum →
      k.block (k.icache p).inum (.item (o / bsize)) ≠ 0) :
    readi p off n k = .ok (.done ((k.content (k.icache p).inum).slice off.toNat
      (min n.toNat (k.size (k.icache p).inum - off.toNat))), k) := by
  obtain ⟨used, valid⟩ := ok.locked p held
  have read := readLoop_there (ok.cache p used valid).1 off.toNat
    (min n.toNat (k.size (k.icache p).inum - off.toNat)) fun o low high => by
      rw [ok.blk held]
      exact there o low (by omega) (by omega)
  rw [ok.bytes held] at read
  rw [readi_eq ok held off n file inside narrow, Prog.run_bind read]
  rfl

/-- `readi` where every block below the size is there: it returns, and changes
nothing. -/
theorem readi_covered (ok : k.Ok) (covered : k.Covered) (held : (k.icache p).locked = true)
    (off n : UInt32) : ∃ r, readi p off n k = .ok (r, k) := by
  obtain ⟨used, valid⟩ := ok.locked p held
  obtain ⟨area, copy, -⟩ := ok.cache p used valid
  have size : (k.icache p).dinode.size.toNat = k.size (k.icache p).inum := by
    rw [copy]
    rfl
  by_cases device : (k.icache p).dinode.type = tDev
  · refine ⟨toDevice (k.icache p).dinode.major, ?_⟩
    unfold readi
    show (if _ then _ else _ : Fs (Io (List UInt8))) k = _
    rw [if_pos device]
    rfl
  · by_cases outside : off > (k.icache p).dinode.size ∨ off + n < off
    · refine ⟨.failed, ?_⟩
      unfold readi
      show (if _ then _ else if _ then _ else _ : Fs (Io (List UInt8))) k = _
      rw [if_neg device, if_pos outside]
      rfl
    · obtain ⟨within, wraps⟩ := not_or.mp outside
      refine ⟨_, readi_there ok held off n device ?_ ?_ fun o _ _ below => ?_⟩
      · rw [← size]
        exact UInt32.le_iff_toNat_le.mp (UInt32.not_lt.mp within)
      · rw [UInt32.lt_iff_toNat_lt, UInt32.toNat_add] at wraps
        have := off.toNat_lt
        have := n.toNat_lt
        omega
      · refine covered _ area _ (Nat.lt_of_le_of_lt ?_ below)
        exact Nat.div_mul_le_self o bsize

/-! ## Holes -/

section Hole

variable (empty : k.log.lh = []) (roomy : 1 < k.log.size) (outside : k.log.outstanding = 0)

include empty roomy outside

theorem logWrite_outside (b : Nat) (data : Block) :
    logWrite b data k = .error (.panic "log_write outside of trans") := by
  have room : ¬ (k.log.lh.length ≥ logsize ∨ k.log.lh.length ≥ k.log.size - 1) := by
    rw [empty]
    simp only [List.length_nil, logsize, maxopblocks]
    omega
  have check : k.log.logWriteCheck = .error "log_write outside of trans" := by
    rw [Log.logWriteCheck, if_neg room, if_pos (by omega)]
  unfold logWrite
  rw [Prog.run_get, check]
  rfl

theorem balloc_outside {b : Nat} (found : firstFree k.sb k.store = some b) :
    balloc k = .error (.panic "log_write outside of trans") := by
  unfold balloc
  rw [Prog.run_get, found]
  exact Prog.run_bind_error (logWrite_outside empty roomy outside _ _)

/-- A block that is not there, behind an index block that is. -/
theorem bmap_hole {n b : Nat} (area : (k.icache p).inum < k.sb.icap)
    (found : firstFree k.sb k.store = some b)
    (index : k.blk p (k.icache p).inum (.index (n / perIndex)) ≠ 0)
    (hole : k.blk p (k.icache p).inum (.item n) = 0) :
    bmap p n k = .error (.panic "log_write outside of trans") := by
  have first : k.blk p (k.icache p).inum (.index 0) ≠ 0 :=
    Chain.idx_ne_zero_of_le (Nat.zero_le _) index
  have walk := bmapWalk_there (j := 0) (m := n / perIndex) (by rwa [Nat.zero_add])
  have zero : (k.store (k.blk p (k.icache p).inum (.index (n / perIndex)))).get32
      (4 * (n % perIndex)) = 0 := UInt32.toNat_inj.mp ((item_word index).trans hole)
  unfold bmap
  rw [Prog.run_bind (bmapHead_there area first), chainSplit_eq, Nat.zero_add, Prog.run_bind walk,
    Nat.zero_add]
  unfold bmapItem
  show (if (k.store (k.blk p (k.icache p).inum (.index (n / perIndex)))).get32
      (4 * (n % perIndex)) = 0 then _ else _ : Fs Nat) k = _
  rw [if_pos zero]
  exact Prog.run_bind_error (balloc_outside empty roomy outside found)

/-- A read that comes to a hole, outside of a transaction. -/
theorem readi_hole {b : Nat} (ok : k.Ok) (held : (k.icache p).locked = true) (off n : UInt32)
    (found : firstFree k.sb k.store = some b) (file : (k.icache p).dinode.type ≠ tDev)
    (inside : off.toNat < k.size (k.icache p).inum) (some_bytes : 0 < n.toNat)
    (narrow : off.toNat + n.toNat < 2 ^ 32)
    (index : k.block (k.icache p).inum (.index (off.toNat / bsize / perIndex)) ≠ 0)
    (hole : k.block (k.icache p).inum (.item (off.toNat / bsize)) = 0) :
    readi p off n k = .error (.panic "log_write outside of trans") := by
  obtain ⟨used, valid⟩ := ok.locked p held
  rw [← ok.blk held] at index hole
  rw [readi_eq ok held off n file (by omega) narrow]
  refine Prog.run_bind_error ?_
  unfold readLoop
  rw [dif_neg (by omega)]
  exact Prog.run_bind_error
    (bmap_hole empty roomy outside (ok.cache p used valid).1 found index hole)

end Hole

/-! ## Directories -/

/-- Entry `e` of directory `i`. -/
def Kernel.direntAt (k : Kernel) (i e : Nat) : Bytes :=
  Bytes.ofList ((k.content i).slice (direntSize * e) direntSize)

/-- A used entry with the name. -/
def NamedBy (name de : Bytes) : Prop :=
  de.get16 0 ≠ 0 ∧ namecmp name (de.drop 2) = true

variable {dp : IPtr}

theorem readDirent_there (ok : k.Ok) (held : (k.icache dp).locked = true)
    (dir : (k.icache dp).dinode.type = tDir) {e : Nat} {message : Panic}
    (inside : direntSize * (e + 1) ≤ k.size (k.icache dp).inum)
    (there : k.block (k.icache dp).inum (.item (direntSize * e / bsize)) ≠ 0) :
    readDirent dp (direntSize * e) message k = .ok (k.direntAt (k.icache dp).inum e, k) := by
  have width : k.size (k.icache dp).inum < 2 ^ 32 := (k.disk _).size.toNat_lt
  have off : (UInt32.ofNat (direntSize * e)).toNat = direntSize * e := by
    rw [UInt32.toNat_ofNat']
    refine Nat.mod_eq_of_lt ?_
    simp only [direntSize, dirsiz] at *
    omega
  have length : (UInt32.ofNat direntSize).toNat = direntSize := rfl
  have all : min direntSize (k.size (k.icache dp).inum - direntSize * e) = direntSize := by
    simp only [direntSize, dirsiz] at *
    omega
  have read := readi_there ok held (UInt32.ofNat (direntSize * e))
    (UInt32.ofNat direntSize) (by rw [dir]; decide) (by rw [off]; simp only [direntSize, dirsiz] at *; omega)
    (by rw [off, length]; simp only [direntSize, dirsiz] at *; omega) fun o low high _ => by
      rw [off] at low high
      rw [length] at high
      have block : o / bsize = direntSize * e / bsize := by
        simp only [direntSize, dirsiz, bsize] at *
        omega
      rw [block]
      exact there
  rw [off, length, all] at read
  unfold readDirent
  rw [Prog.run_bind read]
  show (if _ then _ else _ : Fs Bytes) k = _
  rw [if_pos (Bytes.length_slice _ _ _)]
  rfl

/-- A lookup stops at the first entry with the name. -/
theorem dirlookupLoop_there (ok : k.Ok) (held : (k.icache dp).locked = true)
    (dir : (k.icache dp).dinode.type = tDir) {name : Bytes} {m e : Nat} (le : e ≤ m)
    (inside : direntSize * (m + 1) ≤ k.size (k.icache dp).inum)
    (there : ∀ e' ≤ m, k.block (k.icache dp).inum (.item (direntSize * e' / bsize)) ≠ 0)
    (before : ∀ e' < m, ¬ NamedBy name (k.direntAt (k.icache dp).inum e'))
    (here : NamedBy name (k.direntAt (k.icache dp).inum m)) :
    dirlookupLoop dp name (k.size (k.icache dp).inum) (direntSize * e) k =
      (iget ((k.direntAt (k.icache dp).inum m).get16 0).toNat >>= fun ip =>
        pure (some (ip, direntSize * m))) k := by
  induction left : m - e generalizing e with
  | zero =>
    obtain rfl : e = m := by omega
    have more : direntSize * e < k.size (k.icache dp).inum := by
      simp only [direntSize, dirsiz] at *
      omega
    unfold dirlookupLoop
    rw [if_pos more, Prog.run_bind (readDirent_there ok held dir inside (there e le))]
    show (if _ then _ else _ : Fs (Option (IPtr × Nat))) k = _
    rw [if_pos (show _ ∧ _ from here)]
  | succ left ih =>
    have lower : e < m := by omega
    have more : direntSize * (e + 1) ≤ k.size (k.icache dp).inum := by
      simp only [direntSize, dirsiz] at *
      omega
    have some_left : direntSize * e < k.size (k.icache dp).inum := by
      simp only [direntSize, dirsiz] at *
      omega
    unfold dirlookupLoop
    rw [if_pos some_left, Prog.run_bind (readDirent_there ok held dir more (there e le))]
    show (if _ then _ else _ : Fs (Option (IPtr × Nat))) k = _
    rw [if_neg (show ¬ (_ ∧ _) from before e lower)]
    exact ih (e := e + 1) (by omega) (by omega)

theorem dirlookup_there (ok : k.Ok) (held : (k.icache dp).locked = true)
    (dir : (k.icache dp).dinode.type = tDir) (name : Bytes) {m : Nat}
    (inside : direntSize * (m + 1) ≤ k.size (k.icache dp).inum)
    (there : ∀ e' ≤ m, k.block (k.icache dp).inum (.item (direntSize * e' / bsize)) ≠ 0)
    (before : ∀ e' < m, ¬ NamedBy name (k.direntAt (k.icache dp).inum e'))
    (here : NamedBy name (k.direntAt (k.icache dp).inum m)) :
    dirlookup dp name k =
      (iget ((k.direntAt (k.icache dp).inum m).get16 0).toNat >>= fun ip =>
        pure (some (ip, direntSize * m))) k := by
  obtain ⟨used, valid⟩ := ok.locked dp held
  obtain ⟨-, copy, -⟩ := ok.cache dp used valid
  have size : (k.icache dp).dinode.size.toNat = k.size (k.icache dp).inum := by
    rw [copy]
    rfl
  unfold dirlookup
  show (if _ then _ else _ : Fs (Option (IPtr × Nat))) k = _
  rw [if_neg (not_not.mpr dir), size]
  exact dirlookupLoop_there ok held dir (Nat.zero_le m) inside there before here

end

end BasicOS
