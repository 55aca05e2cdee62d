/-
# BasicOS.Spec.DirMap — a directory is a finite map

What a directory is for: a finite map from names to inode numbers.  `FiniteMap`
says how the calls on a locked directory behave as operations of that map: a
lookup returns what a name is bound to, `dirlink` adds a binding or fails on a
name that is bound, and erasing removes one binding.

Every run of these calls keeps a directory a finite map, as long as nothing is
linked under a name bound to a locked inode, and inode numbers fit in sixteen
bits.  `dirlink` drops the inode it finds with `iput`, which takes its lock: on
a name of the directory itself it waits for the lock of its own caller.
-/
import BasicOS.Fs.Entries
import BasicOS.Fs.Release
import BasicOS.Mkfs.Roundtrip

namespace BasicOS

open Lib Function
open Lib.Prog

set_option autoImplicit false

/-- The table of the directory behind `dp`. -/
def Kernel.names (k : Kernel) (dp : IPtr) : Slots (List UInt8) UInt16 :=
  k.entries (k.icache dp).inum

/-! ## The map -/

/-- What `dirlink` does to the map: a name that is bound is refused; otherwise the
binding is added, in a free slot if there is one. -/
structure AddsBinding (dp : IPtr) (name : Bytes) (inum : Nat) (k : Kernel) (added : Bool)
    (k' : Kernel) : Prop where
  refuses : added = false ↔ ∃ v, (k.names dp).Binds (nameKey name) v
  binds : ∀ key v, (k'.names dp).Binds key v ↔
    added = true ∧ key = nameKey name ∧ v.toNat = inum ∨ (k.names dp).Binds key v
  reuses : (k'.names dp).len = (k.names dp).len ∨
    (∀ e < (k.names dp).len, (k.names dp).cell e ≠ none) ∧
      (k'.names dp).len = (k.names dp).len + 1

/-- What `dirlookup` returns: the inode the name is bound to, and where its entry
is. -/
def LooksUp (dp : IPtr) (name : Bytes) (k : Kernel) (found : Option (IPtr × Nat))
    (k' : Kernel) : Prop :=
  k'.names dp = k.names dp ∧
    match found with
    | none => ∀ v, ¬ (k.names dp).Binds (nameKey name) v
    | some (p, off) => ∃ e, off = direntSize * e ∧ ∃ v, (k.names dp).At e (nameKey name) v ∧
        (k'.icache p).inum = v.toNat ∧ 0 < (k'.icache p).ref

/-- What erasing does to the map: the binding of the name is gone. -/
structure RemovesBinding (dp : IPtr) (name : Bytes) (k : Kernel) (found : Option IPtr)
    (k' : Kernel) : Prop where
  finds : found = none ↔ ∀ v, ¬ (k.names dp).Binds (nameKey name) v
  binds : ∀ key v, (k'.names dp).Binds key v ↔ key ≠ nameKey name ∧ (k.names dp).Binds key v
  len : (k'.names dp).len = (k.names dp).len

/-- A name may be linked: it is not bound to an inode whose lock is held, and the
inode number fits in an entry. -/
def Linkable (dp : IPtr) (k : Kernel) (name : Bytes) (inum : Nat) : Prop :=
  (0 < inum ∧ inum < 2 ^ 16) ∧ k.Apart dp name

/-- The directory behind `dp` is a finite map, and the calls are its operations.
They stop only for lack of room: in the log, on the disk, in the inode cache or
in the largest file. -/
structure FiniteMap (dp : IPtr) (k : Kernel) : Prop where
  distinct : (k.names dp).Distinct
  link : ∀ name inum, Linkable dp k name inum →
    wp (dirlink dp name inum) (AddsBinding dp name inum k) (EntryStop k dp "dirlink") k
  lookup : ∀ name, wp (dirlookup dp name) (LooksUp dp name k) (LookupStop k) k
  erase : ∀ name,
    wp (dirErase dp name) (RemovesBinding dp name k) (EntryStop k dp "unlink: writei") k

section

variable {k k' k₁ : Kernel} {p dp : IPtr}

/-! ## The calls are operations of the map -/

theorem Directory.names_quiet (here : Directory dp k) (quiet : Quiet k k') :
    k'.names dp = k.names dp := by
  unfold Kernel.names
  rw [quiet.icache, quiet.entries here.area]

theorem Directory.names_still (here : Directory dp k) (still : Still k k') (use : SameUse k k') :
    k'.names dp = k.names dp := by
  unfold Kernel.names
  rw [(here.still still use).2, still.entries here.area]

theorem Directory.names_stored (here : Directory dp k) {de : Bytes} {e : Nat}
    (near : e ≤ (k.names dp).len) (stored : Stored dp de (direntSize * e) direntSize k k') :
    k'.names dp = (k.names dp).put e (slotOf de) := by
  unfold Kernel.names
  rw [(stored.directory here).2]
  exact stored.entries here near

theorem Directory.names_got (here : Directory dp k) {i : Nat} (got : Got i p k k') :
    k'.names dp = k.names dp := by
  obtain ⟨ref, same⟩ := got.used (here.ok.locked dp here.held).1
  unfold Kernel.names
  rw [got.entries, same]

theorem slotOf_link {name : Bytes} {inum : Nat} (fits : 0 < inum ∧ inum < 2 ^ 16) :
    slotOf (dirent (UInt16.ofNat inum) name) = some (nameKey name, UInt16.ofNat inum) := by
  have used : UInt16.ofNat inum ≠ 0 := by
    intro zero
    have number := congrArg UInt16.toNat zero
    rw [UInt16.toNat_ofNat', Nat.mod_eq_of_lt fits.2] at number
    have : (0 : UInt16).toNat = 0 := rfl
    omega
  rw [slotOf_dirent, if_neg used]

section

variable (here : Directory dp k)

include here

theorem Linked.adds {name : Bytes} {inum : Nat} {added : Bool}
    (fits : 0 < inum ∧ inum < 2 ^ 16) (linked : Linked k dp name inum added k') :
    AddsBinding dp name inum k added k' := by
  cases added with
  | false =>
    obtain ⟨bound, still, use⟩ := linked
    have same := here.names_still still use
    exact ⟨⟨fun _ => bound, fun _ => rfl⟩, fun key v => by rw [same]; simp, .inl (by rw [same])⟩
  | true =>
    obtain ⟨absent, e, free, before, stored⟩ := linked
    have same := here.names_stored free.le_len stored
    rw [slotOf_link fits] at same
    refine ⟨⟨nofun, fun ⟨v, bound⟩ => absurd bound (absent v)⟩,
      fun key v => ?_, ?_⟩
    · have number : v = UInt16.ofNat inum ↔ v.toNat = inum := by
        rw [← UInt16.toNat_inj, UInt16.toNat_ofNat', Nat.mod_eq_of_lt fits.2]
      have free : (k.names dp).Free e := free
      rw [same, Slots.binds_fill free, number]
      simp
    · rw [same]
      rcases free with ⟨inside, -⟩ | rfl
      · exact .inl (Slots.len_put_inside inside)
      · right
        refine ⟨before, ?_⟩
        show max _ (_ + 1) = _
        exact Nat.max_eq_right (Nat.le_succ _)

theorem Found.looks {name : Bytes} {found : Option (IPtr × Nat)}
    (result : Found k dp name found k') : LooksUp dp name k found k' := by
  match found, result with
  | none, ⟨peek, absent⟩ => exact ⟨here.names_quiet peek.toQuiet, absent⟩
  | some (p, off), ⟨k₁, e, v, peek, at_off, holds, got⟩ =>
    refine ⟨?_, e, at_off, v, holds.1, got.inum, by rw [got.ref]; omega⟩
    rw [(here.quiet peek.toQuiet).names_got got, here.names_quiet peek.toQuiet]

theorem Erased.names {name : Bytes} {p : IPtr}
    (erased : Erased k dp name (some p) k') :
    Directory dp k' ∧ ∃ e v, (k.names dp).At e (nameKey name) v ∧
      k'.names dp = (k.names dp).put e none := by
  obtain ⟨k₁, k₂, e, v, holds, peek, got, stored⟩ := erased
  have here₁ := here.quiet peek.toQuiet
  have here₂ := got.directory here₁
  have same : k₂.names dp = k.names dp := by
    rw [here₁.names_got got, here.names_quiet peek.toQuiet]
  have near : e ≤ (k₂.names dp).len := by
    rw [same]
    exact Nat.le_of_lt holds.1
  refine ⟨(stored.directory here₂).1, e, v, holds, ?_⟩
  rw [here₂.names_stored near stored, same, slotOf_zero]

theorem Erased.removes (distinct : (k.names dp).Distinct) {name : Bytes}
    {found : Option IPtr} (erased : Erased k dp name found k') :
    RemovesBinding dp name k found k' := by
  match found, erased with
  | none, ⟨absent, peek⟩ =>
    have same := here.names_quiet peek.toQuiet
    refine ⟨⟨fun _ => absent, fun _ => rfl⟩, fun key v => ?_, by rw [same]⟩
    rw [same]
    refine ⟨fun bound => ⟨?_, bound⟩, fun bound => bound.2⟩
    rintro rfl
    exact absent v bound
  | some p, erased =>
    obtain ⟨-, e, v, holds, same⟩ := Erased.names here erased
    refine ⟨⟨nofun, fun absent => absurd ⟨e, holds⟩ (absent v)⟩,
      fun key w => ?_, ?_⟩
    · rw [same, Slots.binds_clear distinct holds]
    · rw [same, Slots.len_put_inside holds.1]

theorem finiteMap_of (distinct : (k.names dp).Distinct) :
    FiniteMap dp k where
  distinct := distinct
  link name inum ok := wp_post (dirlink_linked here name inum ok.2) fun _ _ linked =>
    linked.adds here ok.1
  lookup name := wp_post (dirlookup_found here name) fun _ _ found => found.looks here
  erase name := wp_post (dirErase_erased here name) fun _ _ erased =>
    erased.removes here distinct

end

/-! ## Runs -/

/-- The calls of a process that works on one locked directory. -/
inductive DirCall where
  | beginOp
  | endOp
  | dirlink (name : Bytes) (inum : Nat)
  | dirlookup (name : Bytes)
  | erase (name : Bytes)
  /-- Give back an inode that a lookup has returned. -/
  | iput (p : IPtr)

namespace DirCall

def exec (dp : IPtr) : DirCall → Fs Unit
  | beginOp => BasicOS.beginOp
  | endOp => BasicOS.endOp
  | dirlink name inum => do let _ ← BasicOS.dirlink dp name inum
  | dirlookup name => do let _ ← BasicOS.dirlookup dp name
  | erase name => do let _ ← dirErase dp name
  | iput p => BasicOS.iput p

/-- A reference is given back by one who has it. -/
def Legal (k : Kernel) : DirCall → Prop
  | iput p => 0 < (k.icache p).ref
  | _ => True

instance (k : Kernel) (c : DirCall) : Decidable (c.Legal k) := by
  cases c <;> unfold Legal <;> infer_instance

end DirCall

/-- The step of a call that returns. -/
def dirStep (dp : IPtr) (k : Kernel) (c : DirCall) : Option Kernel :=
  if c.Legal k then
    match c.exec dp k with
    | .ok (_, k') => some k'
    | .error _ => none
  else none

theorem dirStep_eq_some {c : DirCall} (step : dirStep dp k c = some k') :
    c.Legal k ∧ c.exec dp k = .ok ((), k') := by
  unfold dirStep at step
  split at step
  · next legal =>
      cases done : c.exec dp k with
      | ok out =>
        rw [done] at step
        exact ⟨legal, by rw [← Option.some.inj step]⟩
      | error e =>
        rw [done] at step
        cases step
  · cases step

/-- Links are only made where they may be. -/
def LinksOk (dp : IPtr) (k : Kernel) : DirCall → Prop
  | .dirlink name inum => Linkable dp k name inum
  | _ => True

/-- What a run keeps. -/
structure DirInv (dp : IPtr) (k : Kernel) : Prop where
  dir : Directory dp k
  distinct : (k.names dp).Distinct

section

variable (inv : DirInv dp k)

include inv

theorem DirInv.of_same (dir : Directory dp k')
    (same : k'.names dp = k.names dp) : DirInv dp k' :=
  ⟨dir, by rw [same]; exact inv.distinct⟩

/-- Giving back another inode leaves the directory alone, even where that frees
the inode. -/
theorem Released.dirInv (used : 0 < (k.icache p).ref) (other : dp ≠ p)
    (unlocked : (k.icache p).locked = false) (released : Released p k k') : DirInv dp k' := by
  have here := inv.dir
  unfold Released at released
  split at released
  · have apart : (k.icache dp).inum ≠ (k.icache p).inum := fun same =>
      other (here.ok.unique dp p (here.ok.locked dp here.held).1 used same)
    have entry := released.others dp other
    have disk := released.disk _ here.area apart
    have size : k'.size (k.icache dp).inum = k.size (k.icache dp).inum := by
      rw [Kernel.size, disk, Kernel.size]
    refine inv.of_same ⟨released.sound.ok, ?_, ?_, ?_⟩ ?_
    · rw [entry]
      exact here.held
    · rw [entry]
      exact here.dir
    · rw [entry, size]
      exact here.whole
    · unfold Kernel.names
      rw [entry, entries_congr size (released.content _ apart)]
  · subst released
    have sound : Sound k (k.setInode p { k.icache p with ref := (k.icache p).ref - 1 }) :=
      here.ok.setRef used fun held => by
        rw [unlocked] at held
        cases held
    have entry : (k.setInode p { k.icache p with ref := (k.icache p).ref - 1 }).icache dp =
        k.icache dp := by
      rw [Kernel.icache_setInode, update_of_ne other]
    refine inv.of_same ⟨sound.ok, ?_, ?_, ?_⟩ ?_
    · rw [entry]
      exact here.held
    · rw [entry]
      exact here.dir
    · rw [entry]
      exact here.whole
    · unfold Kernel.names
      rw [entry]
      rfl

theorem DirInv.quiet (quiet : Quiet k k') : DirInv dp k' :=
  inv.of_same (inv.dir.quiet quiet) (inv.dir.names_quiet quiet)

theorem DirInv.found {name : Bytes} {found : Option (IPtr × Nat)}
    (result : Found k dp name found k') : DirInv dp k' := by
  match found, result with
  | none, ⟨peek, _⟩ => exact inv.quiet peek.toQuiet
  | some (p, off), ⟨k₁, e, v, peek, _, _, got⟩ =>
    have before := inv.quiet peek.toQuiet
    exact before.of_same (got.directory before.dir) (before.dir.names_got got)

theorem DirInv.linked {name : Bytes} {inum : Nat} {added : Bool}
    (fits : 0 < inum ∧ inum < 2 ^ 16) (linked : Linked k dp name inum added k') :
    DirInv dp k' := by
  cases added with
  | false =>
    obtain ⟨-, still, use⟩ := linked
    exact inv.of_same (inv.dir.still still use).1 (inv.dir.names_still still use)
  | true =>
    obtain ⟨absent, e, free, -, stored⟩ := linked
    refine ⟨(stored.directory inv.dir).1, ?_⟩
    rw [inv.dir.names_stored free.le_len stored, slotOf_link fits]
    exact inv.distinct.fill free.le_len absent

theorem DirInv.erased {name : Bytes} {found : Option IPtr}
    (erased : Erased k dp name found k') : DirInv dp k' := by
  match found, erased with
  | none, ⟨_, peek⟩ => exact inv.quiet peek.toQuiet
  | some p, erased =>
    obtain ⟨dir, e, v, holds, same⟩ := Erased.names inv.dir erased
    refine ⟨dir, ?_⟩
    rw [same]
    exact inv.distinct.clear (Nat.le_of_lt holds.1)

theorem dirStep_inv {c : DirCall} (ok : LinksOk dp k c)
    (step : dirStep dp k c = some k') : DirInv dp k' := by
  obtain ⟨legal, done⟩ := dirStep_eq_some step
  cases c with
  | beginOp => exact inv.quiet ((wp_iff.mp (beginOp_spec inv.dir.ok)).1 _ _ done)
  | endOp => exact inv.quiet ((wp_iff.mp (endOp_spec inv.dir.ok)).1 _ _ done)
  | dirlink name inum =>
    obtain ⟨added, k₁, first, rest⟩ := run_bind_ok done
    cases rest
    exact inv.linked ok.1 ((wp_iff.mp (dirlink_linked inv.dir name inum ok.2)).1 _ _ first)
  | dirlookup name =>
    obtain ⟨found, k₁, first, rest⟩ := run_bind_ok done
    cases rest
    exact inv.found ((wp_iff.mp (dirlookup_found inv.dir name)).1 _ _ first)
  | erase name =>
    obtain ⟨found, k₁, first, rest⟩ := run_bind_ok done
    cases rest
    exact inv.erased ((wp_iff.mp (dirErase_erased inv.dir name)).1 _ _ first)
  | iput p =>
    -- the directory itself is locked, so the call that returned was on another inode
    have unlocked : (k.icache p).locked = false := by
      by_contra held
      rw [Bool.not_eq_false] at held
      change iput p k = _ at done
      unfold iput at done
      change (if (k.icache p).locked = true then _ else _ : Fs Unit) k = _ at done
      rw [if_pos held] at done
      cases done
    have other : dp ≠ p := by
      rintro rfl
      rw [inv.dir.held] at unlocked
      cases unlocked
    exact ((wp_iff.mp (iput_released inv.dir.ok legal unlocked)).1 _ _ done).dirInv inv
      legal other unlocked

end

/-- **A directory is a finite map** on names, in every state that calls on it lead
to from one where its names are distinct. -/
theorem directory_is_map {cs : List DirCall} (dir : Directory dp k)
    (distinct : (k.names dp).Distinct) (links : Along (dirStep dp) (LinksOk dp) k cs)
    (done : run (dirStep dp) k cs = some k') : FiniteMap dp k' := by
  have inv := run_invariant_along (dirStep dp) (I := DirInv dp)
    (fun _ _ _ before ok step => dirStep_inv before ok step) ⟨dir, distinct⟩ links done
  exact finiteMap_of inv.dir inv.distinct

end

/-! ## The root directory of an image -/

namespace Mkfs

variable {img : Image} {fs : List InputFile}

section

variable (finished : Finished img fs)

include finished

theorem opened_ok : (opened img 1).Ok :=
  (fsRun_sound (boot_ok finished)
    (open_run finished (i := 1) (by decide) (by rw [finished.rootType]; decide))).ok

theorem opened_size :
    (opened img 1).size 1 = rootSize fs.length := by
  show (boot img.sector).size 1 = _
  rw [boot_size finished, finished.rootSize]

theorem opened_directory : Directory 0 (opened img 1) := by
  refine ⟨opened_ok finished, rfl, finished.rootType, ?_⟩
  show (opened img 1).size 1 % direntSize = 0
  rw [opened_size finished]
  simp only [rootSize, bsize, direntSize, dirsiz]
  omega

/-- The slots of the root directory: one for each entry `mkfs` wrote. -/
theorem cell_root (few : fs.length ≤ 206) (e : Nat) :
    ((opened img 1).names 0).cell e =
      (rootEntries fs)[e]?.map fun x => (nameKey (Bytes.ofList x.2), UInt16.ofNat x.1) := by
  show slotOf ((opened img 1).direntAt 1 e) = _
  by_cases inside : e < (rootEntries fs).length
  · obtain ⟨low, high, -⟩ := rootEntries_sound (List.getElem_mem inside)
    rw [direntAt_root finished inside, slotOf_congr fun j small => ofList_direntBytes small,
      slotOf_link ⟨low, by omega⟩, List.getElem?_eq_getElem inside]
    rfl
  · rw [List.getElem?_eq_none (Nat.not_lt.mp inside), Option.map_none, ← slotOf_zero]
    refine slotOf_congr fun j small => ?_
    have content : (opened img 1).content 1 = img.content 1 := congrFun (boot_content finished) 1
    rw [Kernel.direntAt, content, Bytes.ofList, List.getD_eq_getElem _ _
      (by rw [Bytes.length_slice]; exact small), Bytes.getElem_slice]
    refine finished.rootRest _ ?_
    rw [length_rootEntries] at inside
    simp only [direntSize, dirsiz] at *
    omega

/-- The names of the root directory are distinct when those of the files are. -/
theorem root_distinct (few : fs.length ≤ 206)
    (nodup : ((rootEntries fs).map fun x => nameKey (Bytes.ofList x.2)).Nodup) :
    ((opened img 1).names 0).Distinct := by
  have keyed : ∀ {e key v}, ((opened img 1).names 0).At e key v →
      ((rootEntries fs).map fun x => nameKey (Bytes.ofList x.2))[e]? = some key := by
    rintro e key v ⟨-, holds⟩
    rw [cell_root finished few] at holds
    obtain ⟨x, there, same⟩ := Option.map_eq_some_iff.mp holds
    rw [List.getElem?_map, there]
    exact congrArg (fun y => some (Prod.fst y)) same
  intro e e' key v v' here there
  obtain ⟨inside, -⟩ := List.getElem?_eq_some_iff.mp (keyed here)
  exact (List.getElem?_inj inside nodup).mp ((keyed here).trans (keyed there).symm)

end

theorem oneFile_string : ∀ c ∈ ([97] : List UInt8), c ≠ 0 := by simp

theorem oneFile_sizes : ∀ p ∈ ([[1]] : List (List UInt8)), 0 < p.length ∧ p.length ≤ bsize := by
  simp

/-- One file, `a`. -/
def oneFile : List InputFile :=
  [{ name := [97], pieces := [[1]], string := oneFile_string, sizes := oneFile_sizes }]

theorem oneFile_image : ∃ img, mkfs oneFile = some img :=
  mkfs_completes (by decide) (by decide) (by decide)

theorem oneFile_distinct (finished : Finished img oneFile) :
    ((opened img 1).names 0).Distinct :=
  root_distinct finished (by decide) (by decide)

/-- `dirlink` under a name that is bound to another inode. -/
theorem dirlink_bound (finished : Finished img oneFile) (inum : Nat) : ∃ k',
    dirlink 0 (Bytes.ofList [97]) inum (opened img 1) = .ok (false, k') := by
  have looked := dirlookup_opened finished (by decide) (j := 0) (by decide)
    (by simp : ∀ c ∈ [(97 : UInt8)], c ≠ 0) (by decide) (by decide)
    fun i lower => absurd lower (Nat.not_lt_zero i)
  unfold dirlink
  rw [run_bind looked]
  exact ⟨_, rfl⟩

/-- `dirlink` under a name of the directory itself waits for its caller's lock. -/
theorem dirlink_self (finished : Finished img oneFile) (inum : Nat) :
    dirlink 0 (Bytes.ofList [46]) inum (opened img 1) = .error .blocked := by
  have dir := opened_directory finished
  have first : (opened img 1).direntAt 1 0 = Bytes.ofList (direntBytes 1 [46]) :=
    direntAt_root finished (by decide : 0 < (rootEntries oneFile).length)
  have number : ((opened img 1).direntAt 1 0).get16 0 = 1 := by
    rw [first, get16_direntBytes]
    rfl
  have there : (opened img 1).block 1 (.item 0) ≠ 0 := by
    show (boot img.sector).block 1 _ ≠ 0
    rw [boot_block finished, finished.rootBlocks]
    decide
  have looked := dirlookup_there dir.ok dir.held dir.dir (Bytes.ofList [46]) (m := 0) ?_
    (fun e le => ?_) (fun e lower => absurd lower (Nat.not_lt_zero e)) ?_
  · unfold dirlink
    have got : dirlookup 0 (Bytes.ofList [46]) (opened img 1) =
        .ok (some (0, 0), (opened img 1).setInode 0 ⟨1, 2, true, true, img.disk 1⟩) := by
      rw [looked]
      show (iget (((opened img 1).direntAt 1 0).get16 0).toNat >>= _) _ = _
      rw [number]
      rfl
    rw [run_bind got]
    rfl
  · show direntSize * 1 ≤ (opened img 1).size 1
    rw [opened_size finished]
    decide
  · obtain rfl := Nat.le_zero.mp le
    exact there
  · show NamedBy _ ((opened img 1).direntAt 1 0)
    rw [first]
    exact (namedBy_direntBytes (by simp) (by simp) (by decide) (by decide)).mpr rfl

/-- The root directory of an image with one file, after a link was refused. -/
theorem root_is_map : ∃ img k', mkfs oneFile = some img ∧
    run (dirStep 0) (opened img 1) [.dirlink (Bytes.ofList [97]) 5] = some k' ∧
    FiniteMap 0 k' := by
  obtain ⟨img, made⟩ := oneFile_image
  have finished := mkfs_finished made (by decide)
  obtain ⟨k', linked⟩ := dirlink_bound finished 5
  have done : run (dirStep 0) (opened img 1) [.dirlink (Bytes.ofList [97]) 5] = some k' := by
    refine (run_cons _).mpr ⟨k', ?_, rfl⟩
    have ran : (DirCall.dirlink (Bytes.ofList [97]) 5).exec 0 (opened img 1) = .ok ((), k') :=
      Prog.run_bind linked
    unfold dirStep
    rw [if_pos (by trivial), ran]
  have apart : (opened img 1).Apart 0 (Bytes.ofList [97]) := by
    -- the only locked inode is the root, and `a` is another one
    rintro q v held ⟨e, -, holds⟩ same
    obtain rfl : q = 0 := by
      by_contra other
      have free : (opened img 1).icache q = ⟨0, 0, false, false, Dinode.zero⟩ :=
        update_of_ne other _ _
      rw [free] at held
      cases held
    have cell := cell_root finished (by decide) e
    change slotOf _ = _ at cell
    rw [show slotOf _ = _ from holds] at cell
    obtain ⟨x, there, pair⟩ := Option.map_eq_some_iff.mp cell.symm
    have number : ∀ x ∈ rootEntries oneFile,
        nameKey (Bytes.ofList x.2) = nameKey (Bytes.ofList [97]) → x.1 = 2 := by decide
    have two := number x (List.mem_of_getElem? there) (congrArg Prod.fst pair)
    have value := congrArg (fun y => (Prod.snd y).toNat) pair
    simp only [two] at value
    rw [← value] at same
    cases same
  have links : Along (dirStep 0) (LinksOk 0) (opened img 1)
      [.dirlink (Bytes.ofList [97]) 5] := ⟨⟨by decide, apart⟩, fun _ _ => trivial⟩
  exact ⟨img, k', made, done, directory_is_map (opened_directory finished)
    (oneFile_distinct finished) links done⟩

/-- The root directory of the same image: its own name is bound, and linking under
that name neither fails nor adds a binding, but never returns. -/
theorem link_dot_waits : ∃ img k, mkfs oneFile = some img ∧
    run fsStep (boot img.sector) [(.iget 1, .inode 0), (.ilock 0, .unit)] = some k ∧
    Directory 0 k ∧ (k.names 0).Distinct ∧ (k.names 0).Binds (nameKey (Bytes.ofList [46])) 1 ∧
    ∀ inum, dirlink 0 (Bytes.ofList [46]) inum k = .error .blocked := by
  obtain ⟨img, made⟩ := oneFile_image
  have finished := mkfs_finished made (by decide)
  refine ⟨img, _, made, open_run finished (by decide) (by rw [finished.rootType]; decide),
    opened_directory finished, oneFile_distinct finished, ⟨0, ?_, ?_⟩, dirlink_self finished⟩
  · show 0 < (opened img 1).size 1 / direntSize
    rw [opened_size finished]
    decide
  · rw [cell_root finished (by decide)]
    rfl

end Mkfs

end BasicOS
