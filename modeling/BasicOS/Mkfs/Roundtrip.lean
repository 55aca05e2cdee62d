/-
# BasicOS.Mkfs.Roundtrip — the kernel reads what mkfs was given

The root directory of an image has one entry for each input file, after its own
two.  The kernel looks names up from the front and compares fourteen bytes, so a
name leads to the first file stored under the same fourteen bytes.  Reading that
file returns the bytes of the input file.
-/
import BasicOS.Mkfs.Mount

namespace BasicOS.Mkfs

open Lib Function
open Lib.Chain (Pos)

set_option autoImplicit false

/-! ## Names -/

/-- Comparing stops after a zero byte. -/
theorem strncmpEq_iff (s t : Bytes) (n i : Nat) :
    strncmpEq s t n i = true ↔ ∀ j < n, (∀ l < j, s (i + l) ≠ 0) → s (i + j) = t (i + j) := by
  induction n generalizing i with
  | zero => simp [strncmpEq]
  | succ n ih =>
    unfold strncmpEq
    split
    · rename_i head
      rw [ih]
      constructor
      · intro rest j small before
        cases j with
        | zero => exact head.2
        | succ j =>
          have next := rest j (by omega) fun l lower => by
            have := before (l + 1) (by omega)
            rwa [← Nat.add_assoc, Nat.add_right_comm] at this
          rwa [← Nat.add_assoc, Nat.add_right_comm]
      · intro all j small before
        have next := all (j + 1) (by omega) fun l lower => by
          cases l with
          | zero => exact head.1
          | succ l =>
            have := before l (by omega)
            rwa [← Nat.add_assoc, Nat.add_right_comm]
        rwa [← Nat.add_assoc, Nat.add_right_comm] at next
    · rename_i head
      rw [beq_iff_eq]
      constructor
      · intro same j small before
        cases j with
        | zero => exact same
        | succ j => exact absurd ⟨before 0 (by omega), same⟩ head
      · intro all
        exact all 0 (by omega) fun l lower => absurd lower (Nat.not_lt_zero l)

section Names

variable {name name' : List UInt8} (string : ∀ c ∈ name, c ≠ 0) (string' : ∀ c ∈ name', c ≠ 0)

include string in
theorem ofList_eq_zero {i : Nat} : Bytes.ofList name i = 0 ↔ name.length ≤ i := by
  unfold Bytes.ofList
  constructor
  · intro zero
    by_contra short
    rw [List.getD_eq_getElem _ _ (by omega)] at zero
    exact string _ (List.getElem_mem (by omega)) zero
  · intro past
    exact List.getD_eq_default _ _ past

include string' in
/-- `strncpy` stores a short name as it is. -/
theorem strncpy_ofList : strncpy (Bytes.ofList name') = Bytes.ofList name' := by
  funext i
  unfold strncpy
  split
  · rename_i ended
    obtain ⟨j, lower, zero⟩ := List.any_eq_true.mp ended
    rw [List.mem_range] at lower
    have past := (ofList_eq_zero string').mp (eq_of_beq zero)
    exact ((ofList_eq_zero string').mpr (by omega)).symm
  · rfl

include string string' in
/-- Nonzero bytes tell where a name ends. -/
theorem getElem?_of_ofList {i : Nat} (same : Bytes.ofList name i = Bytes.ofList name' i) :
    name[i]? = name'[i]? := by
  have ends : name.length ≤ i ↔ name'.length ≤ i := by
    rw [← ofList_eq_zero string, ← ofList_eq_zero string', same]
  by_cases past : name.length ≤ i
  · rw [List.getElem?_eq_none past, List.getElem?_eq_none (ends.mp past)]
  · have past' := mt ends.mpr past
    have inside : i < name.length := by omega
    have inside' : i < name'.length := by omega
    rw [List.getElem?_eq_getElem inside, List.getElem?_eq_getElem inside']
    rw [Bytes.ofList, Bytes.ofList, List.getD_eq_getElem _ _ inside,
      List.getD_eq_getElem _ _ inside'] at same
    rw [same]

include string string' in
/-- Two names are the same to the kernel when their first fourteen bytes are. -/
theorem namecmp_iff : namecmp (Bytes.ofList name) (strncpy (Bytes.ofList name')) = true ↔
    name.take dirsiz = name'.take dirsiz := by
  rw [strncpy_ofList string', namecmp, strncmpEq_iff]
  simp only [Nat.zero_add]
  constructor
  · intro same
    have bytes : ∀ j < dirsiz, Bytes.ofList name j = Bytes.ofList name' j := by
      intro j small
      by_cases past : name.length < j
      · -- the other name ends where this one does, or before
        have last := same name.length (by omega) fun l lower zero => by
          have := (ofList_eq_zero string).mp zero
          omega
        rw [(ofList_eq_zero string).mpr (Nat.le_refl _)] at last
        have ended := (ofList_eq_zero string').mp last.symm
        rw [(ofList_eq_zero string).mpr (by omega), (ofList_eq_zero string').mpr (by omega)]
      · refine same j small fun l lower zero => ?_
        have := (ofList_eq_zero string).mp zero
        omega
    refine List.ext_getElem? fun j => ?_
    rw [List.getElem?_take, List.getElem?_take]
    split
    · exact getElem?_of_ofList string string' (bytes j ‹_›)
    · rfl
  · intro same j small _
    have at_j := congrArg (fun l : List UInt8 => l.getD j 0) same
    simpa [List.getD_eq_getElem?_getD, List.getElem?_take, small, Bytes.ofList] using at_j

end Names

/-! ## Entries -/

theorem stored_string (f : InputFile) : ∀ c ∈ f.stored, c ≠ 0 := by
  intro c mem
  unfold InputFile.stored at mem
  split at mem
  · exact f.string c (List.mem_of_mem_tail mem)
  · exact f.string c mem

theorem ofList_direntBytes {inum i : Nat} {name : List UInt8} (small : i < direntSize) :
    Bytes.ofList (direntBytes inum name) i =
      dirent (UInt16.ofNat inum) (Bytes.ofList name) i := by
  have inside : i < (direntBytes inum name).length := by
    rw [length_direntBytes]
    exact small
  rw [Bytes.ofList, List.getD_eq_getElem _ _ inside]
  exact (Bytes.getElem_slice inside).trans (by rw [Nat.zero_add])

theorem get16_direntBytes (inum : Nat) (name : List UInt8) :
    (Bytes.ofList (direntBytes inum name)).get16 0 = UInt16.ofNat inum := by
  refine Bytes.get16_of_bytes fun c small => ?_
  rw [Nat.zero_add, ofList_direntBytes (by simp only [direntSize, dirsiz]; omega), dirent,
    if_pos small]

/-- An entry that `mkfs` wrote is found under its first fourteen bytes. -/
theorem namedBy_direntBytes {inum : Nat} {name name' : List UInt8} (string : ∀ c ∈ name, c ≠ 0)
    (string' : ∀ c ∈ name', c ≠ 0) (low : 0 < inum) (high : inum < 2 ^ 16) :
    NamedBy (Bytes.ofList name) (Bytes.ofList (direntBytes inum name')) ↔
      name.take dirsiz = name'.take dirsiz := by
  have used : UInt16.ofNat inum ≠ 0 := by
    intro zero
    have := congrArg UInt16.toNat zero
    rw [UInt16.toNat_ofNat', Nat.mod_eq_of_lt high] at this
    have : (0 : UInt16).toNat = 0 := rfl
    omega
  have same : namecmp (Bytes.ofList name) ((Bytes.ofList (direntBytes inum name')).drop 2) =
      namecmp (Bytes.ofList name) (strncpy (Bytes.ofList name')) := by
    rw [Bool.eq_iff_iff, namecmp, namecmp, strncmpEq_iff, strncmpEq_iff]
    refine forall₂_congr fun j small => imp_congr_right fun _ => ?_
    have entry : (Bytes.ofList (direntBytes inum name')).drop 2 (0 + j) =
        strncpy (Bytes.ofList name') (0 + j) := by
      rw [Nat.zero_add, Bytes.drop, ofList_direntBytes (by simp only [direntSize]; omega), dirent,
        if_neg (by omega), Nat.add_sub_cancel_left]
    rw [entry]
  rw [NamedBy, get16_direntBytes, same, namecmp_iff string string']
  exact and_iff_right used

/-- The inode numbers and names in the root directory. -/
def rootEntries (fs : List InputFile) : List (Nat × List UInt8) :=
  (1, [46]) :: (1, [46, 46]) :: (fs.zipIdx 2).map fun e => (e.2, e.1.stored)

theorem rootBytes_entries (fs : List InputFile) :
    rootBytes fs = (rootEntries fs).flatMap fun e => direntBytes e.1 e.2 := by
  simp [rootBytes, rootEntries, List.flatMap_map]

theorem length_rootEntries (fs : List InputFile) : (rootEntries fs).length = fs.length + 2 := by
  simp [rootEntries]

theorem rootEntries_file {fs : List InputFile} {j : Nat} (inside : j < fs.length)
    (low : j + 2 < (rootEntries fs).length) :
    (rootEntries fs)[j + 2] = (j + 2, fs[j].stored) := by
  simp [rootEntries, Nat.add_comm]

theorem rootEntries_sound {fs : List InputFile} {x : Nat × List UInt8} (mem : x ∈ rootEntries fs) :
    0 < x.1 ∧ x.1 < fs.length + 2 ∧ ∀ c ∈ x.2, c ≠ 0 := by
  simp only [rootEntries, List.mem_cons, List.mem_map] at mem
  rcases mem with rfl | rfl | ⟨⟨f, i⟩, mem, rfl⟩
  · simp
  · simp
  · obtain ⟨low, high, -⟩ := List.mem_zipIdx mem
    exact ⟨by simp only; omega, by simp only; omega, stored_string f⟩

/-- Entries are all of one size, so the `e`th is at its place. -/
theorem take_drop_entries (l : List (Nat × List UInt8)) {e : Nat} (inside : e < l.length) :
    ((l.flatMap fun x => direntBytes x.1 x.2).drop (direntSize * e)).take direntSize =
      direntBytes l[e].1 l[e].2 := by
  induction l generalizing e with
  | nil => cases inside
  | cons x l ih =>
    have length : (direntBytes x.1 x.2).length = direntSize := length_direntBytes _ _
    rw [List.flatMap_cons]
    cases e with
    | zero => rw [Nat.mul_zero, List.drop_zero, ← length, List.take_left, List.getElem_cons_zero]
    | succ e =>
      rw [Nat.mul_succ, Nat.add_comm, ← List.drop_drop, ← length, List.drop_left, length,
        ih (by simpa using inside), List.getElem_cons_succ]

variable {img : Image} {fs : List InputFile}

theorem direntAt_root (finished : Finished img fs) {e : Nat} (inside : e < (rootEntries fs).length) :
    (opened img 1).direntAt 1 e =
      Bytes.ofList (direntBytes (rootEntries fs)[e].1 (rootEntries fs)[e].2) := by
  have length := length_rootEntries fs
  have content : (opened img 1).content 1 = img.content 1 := congrFun (boot_content finished) 1
  have part := Bytes.drop_take_slice (img.content 1) (direntSize * e) direntSize
    (16 * (fs.length + 2))
  rw [finished.rootBytes, rootBytes_entries, take_drop_entries _ inside] at part
  have all : min direntSize (16 * (fs.length + 2) - direntSize * e) = direntSize := by
    simp only [direntSize, dirsiz]
    omega
  rw [Kernel.direntAt, content, part, all]

/-! ## Reading a file by name -/

/-- The calls that look a name up in the root directory and read from the file:
the entry is that of file `j`. -/
def readCalls (name : List UInt8) (j : Nat) (off n : UInt32) (data : List UInt8) : List FsEvent :=
  [(.iget 1, .inode 0), (.ilock 0, .unit)] ++
    [(.dirlookup 0 (Bytes.ofList name), .entry (some (1, direntSize * (j + 2)))),
    (.iunlock 0, .unit), (.ilock 1, .unit), (.readi 1 off n, .data (.done data))]

/-- `iget` on the kernel that has the root directory open. -/
theorem iget_opened (img : Image) (j : Nat) : iget (j + 2) (opened img 1) =
    .ok (1, (opened img 1).setInode 1 ⟨j + 2, 1, false, false, Dinode.zero⟩) := by
  rfl

section Read

variable (finished : Finished img fs) (few : fs.length ≤ 206) {j : Nat} (inside : j < fs.length)
  {name : List UInt8} (string : ∀ c ∈ name, c ≠ 0)
  (dots : name.take dirsiz ≠ [46] ∧ name.take dirsiz ≠ [46, 46])
  (here : name.take dirsiz = fs[j].stored.take dirsiz)
  (before : ∀ i, i < j → ∀ _ : i < fs.length, name.take dirsiz ≠ fs[i].stored.take dirsiz)

include finished few string dots here before

/-- A name leads to the first file that is stored under it. -/
theorem dirlookup_opened : dirlookup 0 (Bytes.ofList name) (opened img 1) =
    .ok (some (1, direntSize * (j + 2)),
      (opened img 1).setInode 1 ⟨j + 2, 1, false, false, Dinode.zero⟩) := by
  have done := open_run finished (i := 1) (by decide) (by rw [finished.rootType]; decide)
  have ok := (fsRun_sound (boot_ok finished) done).ok
  have length := length_rootEntries fs
  have named : ∀ e (low : e < (rootEntries fs).length),
      NamedBy (Bytes.ofList name) ((opened img 1).direntAt 1 e) ↔
        name.take dirsiz = (rootEntries fs)[e].2.take dirsiz := by
    intro e low
    obtain ⟨used, small, string'⟩ := rootEntries_sound (List.getElem_mem low)
    rw [direntAt_root finished low]
    exact namedBy_direntBytes string string' used (by omega)
  have low : j + 2 < (rootEntries fs).length := by omega
  have mine := rootEntries_file inside low
  have number : ((opened img 1).direntAt 1 (j + 2)).get16 0 = UInt16.ofNat (j + 2) := by
    rw [direntAt_root finished low, mine, get16_direntBytes]
  have narrow : (UInt16.ofNat (j + 2)).toNat = j + 2 := by
    rw [UInt16.toNat_ofNat', Nat.mod_eq_of_lt (by omega)]
  have size : (opened img 1).size 1 = rootSize fs.length := by
    show (boot img.sector).size 1 = _
    rw [boot_size finished, finished.rootSize]
  have root : ((opened img 1).icache 0).dinode.type = tDir := finished.rootType
  have looked := dirlookup_there ok rfl root (Bytes.ofList name) (m := j + 2) ?_ ?_ ?_ ?_
  · rw [looked]
    show (iget (((opened img 1).direntAt 1 (j + 2)).get16 0).toNat >>= _) _ = _
    rw [number, narrow, Prog.run_bind (iget_opened img j)]
    rfl
  · show direntSize * (j + 2 + 1) ≤ (opened img 1).size 1
    rw [size]
    simp only [direntSize, dirsiz, rootSize, bsize]
    omega
  · intro e le
    show (boot img.sector).block 1 _ ≠ 0
    rw [boot_block finished, finished.rootBlocks]
    simp only [direntSize, dirsiz, bsize]
    omega
  · intro e lower
    show ¬ NamedBy _ ((opened img 1).direntAt 1 e)
    rw [named e (by omega)]
    obtain _ | _ | i := e
    · exact dots.1
    · exact dots.2
    · rw [rootEntries_file (j := i) (by omega)]
      exact before i (by omega) (by omega)
  · show NamedBy _ ((opened img 1).direntAt 1 (j + 2))
    rw [named _ low, mine]
    exact here

/-- Reading by name returns the bytes of the first file stored under the name. -/
theorem read_first (off n : UInt32) (low : off.toNat ≤ fs[j].content.length)
    (narrow : off.toNat + n.toNat < 2 ^ 32) :
    ∃ k, run fsStep (boot img.sector)
      (readCalls name j off n ((fs[j].content.drop off.toNat).take n.toNat)) = some k ∧
      (k.icache 1).inum = j + 2 ∧
      (k.icache 1).dinode.size.toNat = fs[j].content.length := by
  have keeps := finished.files j inside
  have area : j + 2 < 208 := by omega
  have opening := open_run finished (i := 1) (by decide) (by rw [finished.rootType]; decide)
  have ok := (fsRun_sound (boot_ok finished) opening).ok
  have looked := dirlookup_opened finished few inside string dots here before
  generalize state₂ : (opened img 1).setInode 1 ⟨j + 2, 1, false, false, Dinode.zero⟩ = k₂ at looked
  have found : fsStep (opened img 1) (.dirlookup 0 (Bytes.ofList name),
      .entry (some (1, direntSize * (j + 2)))) = some k₂ :=
    fsStep_iff.mpr ⟨rfl, Prog.run_bind looked⟩
  have ok₂ := (fsStep_sound ok found).ok
  generalize state₃ : k₂.setInode 0 { k₂.icache 0 with locked := false } = k₃
  have unlocked : fsStep k₂ (.iunlock 0, .unit) = some k₃ := by
    rw [← state₃, ← state₂]
    exact fsStep_iff.mpr ⟨trivial, rfl⟩
  have ok₃ := (fsStep_sound ok₂ unlocked).ok
  have entry₃ : k₃.icache 1 = ⟨j + 2, 1, false, false, Dinode.zero⟩ := by
    rw [← state₃, ← state₂]
    rfl
  -- only the inode cache differs from the booted kernel
  obtain ⟨cache₃, shape₃⟩ : ∃ cache, k₃ = { boot img.sector with icache := cache } :=
    ⟨_, by rw [← state₃, ← state₂]; rfl⟩
  have disk₃ : k₃.sb.dinode k₃.store (j + 2) = img.disk (j + 2) := by
    rw [shape₃]
    exact congrFun (boot_disk finished) (j + 2)
  have locked := ilock_fresh (k := k₃) (p := 1) (by rw [entry₃]; exact Nat.one_pos)
    (by rw [entry₃]) (by rw [entry₃]) (by rw [entry₃, disk₃, keeps.type]; decide)
  rw [entry₃, disk₃] at locked
  generalize state₄ : k₃.setInode 1 ⟨j + 2, 1, true, true, img.disk (j + 2)⟩ = k₄ at locked
  have opened₄ : fsStep k₃ (.ilock 1, .unit) = some k₄ := by
    refine fsStep_iff.mpr ⟨?_, Prog.run_bind locked⟩
    show (k₃.icache 1).inum < k₃.sb.icap
    have sb₃ : k₃.sb = sb := by rw [shape₃]; exact boot_sb finished
    rw [entry₃, sb₃]
    exact area
  have ok₄ := (fsStep_sound ok₃ opened₄).ok
  have entry₄ : k₄.icache 1 = ⟨j + 2, 1, true, true, img.disk (j + 2)⟩ := by
    rw [← state₄]
    simp
  obtain ⟨cache₄, shape₄⟩ : ∃ cache, k₄ = { boot img.sector with icache := cache } :=
    ⟨_, by rw [← state₄, shape₃]; rfl⟩
  have size₄ : k₄.size (j + 2) = fs[j].content.length := by
    rw [shape₄, ← keeps.size]
    exact boot_size finished (j + 2)
  have content₄ : k₄.content (j + 2) = img.content (j + 2) := by
    rw [shape₄]
    exact congrFun (boot_content finished) (j + 2)
  have block₄ : ∀ q, k₄.block (j + 2) q = img.block (j + 2) q := by
    rw [shape₄]
    exact congrFun (congrFun (boot_block finished) (j + 2))
  have read := readi_there (k := k₄) (p := 1) ok₄ (by rw [entry₄]) off n
    (by rw [entry₄, keeps.type]; decide) (by rw [entry₄, size₄]; exact low) narrow
    fun o _ _ below => by
      rw [entry₄] at below ⊢
      rw [size₄, ← keeps.size] at below
      rw [block₄, finished.otherBlocks _ area (by omega)]
      exact Nat.lt_of_le_of_lt (Nat.div_mul_le_self o bsize) below
  rw [entry₄, size₄, content₄, ← Bytes.drop_take_slice, keeps.bytes] at read
  refine ⟨k₄, ?_, by rw [entry₄], by rw [entry₄, keeps.size]⟩
  refine (run_append _).mpr ⟨_, opening, ?_⟩
  refine (run_cons _).mpr ⟨k₂, found, (run_cons _).mpr ⟨k₃, unlocked, (run_cons _).mpr
    ⟨k₄, opened₄, (run_cons _).mpr ⟨k₄, fsStep_iff.mpr ⟨?_, Prog.run_bind read⟩, rfl⟩⟩⟩⟩
  show (k₄.icache 1).locked = true
  rw [entry₄]

end Read

/-- **The kernel reads what mkfs was given**: the bytes and the size of every input
file whose first fourteen bytes of name no earlier file has, and that is not
called `.` or `..`. -/
theorem kernel_reads_input {img : Image} {fs : List InputFile} (made : mkfs fs = some img)
    (few : fs.length ≤ 206) {j : Nat} (inside : j < fs.length)
    (dots : fs[j].stored.take dirsiz ≠ [46] ∧ fs[j].stored.take dirsiz ≠ [46, 46])
    (first : ∀ i, i < j → ∀ _ : i < fs.length,
      fs[j].stored.take dirsiz ≠ fs[i].stored.take dirsiz)
    (off n : UInt32) (low : off.toNat ≤ fs[j].content.length)
    (narrow : off.toNat + n.toNat < 2 ^ 32) :
    ∃ k, run fsStep (boot img.sector)
      (readCalls fs[j].stored j off n ((fs[j].content.drop off.toNat).take n.toNat)) = some k ∧
      (k.icache 1).inum = j + 2 ∧
      (k.icache 1).dinode.size.toNat = fs[j].content.length :=
  read_first (mkfs_finished made few) few inside (stored_string _) dots rfl first off n low narrow

/-- Two input files of one byte each. -/
def twins : List InputFile :=
  [{ name := [97], pieces := [[1]], string := by simp, sizes := by simp },
    { name := [95, 97], pieces := [[2]], string := by simp, sizes := by simp }]

/-- The first of the two files reads as it should. -/
theorem first_twin_read : ∃ img k, mkfs twins = some img ∧
    run fsStep (boot img.sector) (readCalls [97] 0 0 1 [1]) = some k ∧
    (k.icache 1).dinode.size.toNat = 1 := by
  obtain ⟨img, made⟩ := mkfs_completes (by decide : twins.length ≤ 206) (by decide) (by decide)
  obtain ⟨k, done, -, size⟩ := kernel_reads_input made (by decide) (j := 0) (by decide) (by decide)
    (fun i lower => absurd lower (Nat.not_lt_zero i)) 0 1 (by decide) (by decide)
  exact ⟨img, k, made, done, size⟩

/-- The second one is stored under the same name, and reads as the first. -/
theorem second_twin_read : ∃ img k, mkfs twins = some img ∧
    twins.map InputFile.stored = [[97], [97]] ∧ twins.map InputFile.content = [[1], [2]] ∧
    run fsStep (boot img.sector) (readCalls [97] 0 0 1 [1]) = some k := by
  obtain ⟨img, made⟩ := mkfs_completes (by decide : twins.length ≤ 206) (by decide) (by decide)
  obtain ⟨k, done, -⟩ := read_first (mkfs_finished made (by decide)) (by decide) (j := 0)
    (by decide) (by simp : ∀ c ∈ [(97 : UInt8)], c ≠ 0) (by decide) (by decide)
    (fun i lower => absurd lower (Nat.not_lt_zero i)) 0 1 (by decide) (by decide)
  exact ⟨img, k, made, by decide, by decide, done⟩

end BasicOS.Mkfs
