/-
# BasicOS.Spec.Resolve — what a path means

`namei` follows the elements of its path through the tree on disk: `namei_resolves` for
what it returns and `namexLoop_returns` for when it does.
-/
import BasicOS.Sys.Boot
import BasicOS.Spec.DirMap

namespace BasicOS

open Lib Function
open Lib.Prog

set_option autoImplicit false

section Walk

variable {k : Kernel}

theorem namei_resolves (fit : k.Fit) (free : ∀ q, (k.icache q).locked = false) {cwd : IPtr}
    (used : 0 < (k.icache cwd).ref) {path : List UInt8} (nonzero : 0 ∉ path) (name : Bytes) :
    wp (namei cwd path name) (fun r k' => r.map (fun p => (k'.icache p).inum) =
      k.tree.resolve (k.pathStart cwd path) (elements path)) Awake k := by
  unfold namei
  apply wp_seq (namex_follows fit free used path false name)
  rintro r k' ⟨-, resolved⟩
  show (r.map Prod.fst).map (fun p => (k'.icache p).inum) = _
  rw [Option.map_map]
  exact resolved nonzero

theorem nameiparent_resolves (fit : k.Fit) (free : ∀ q, (k.icache q).locked = false) {cwd : IPtr}
    (used : 0 < (k.icache cwd).ref) {path : List UInt8} (nonzero : 0 ∉ path) (name : Bytes) :
    wp (nameiparent cwd path name) (fun r k' =>
      r.map (fun x => ((k'.icache x.1).inum, nameKey x.2)) =
        k.tree.parentOf (k.pathStart cwd path) (elements path)) Awake k := by
  unfold nameiparent
  apply wp_post (namex_follows fit free used path true name)
  exact fun r k' followed => followed.2 nonzero

end Walk

/-! ## Walks that return -/

/-- At most the inode cache has changed. -/
structure SameDisk (k k' : Kernel) : Prop where
  sb : k'.sb = k.sb
  store : k'.store = k.store
  log : k'.log = k.log

/-- What a walk needs: the blocks of the directories are there, their entries lead to
allocated inodes, and two entries of the inode cache are free. -/
structure Kernel.Roomy (k : Kernel) : Prop where
  covered : k.Covered
  allocated : ∀ d < k.sb.icap, (k.disk d).type = tDir →
    ∀ {key v}, (k.entries d).Binds key v → (k.disk v.toNat).type ≠ 0
  slots : ∃ q q', q ≠ q' ∧ (k.icache q).ref = 0 ∧ (k.icache q').ref = 0

section Returns

variable {k k' k'' k₀ : Kernel} {p dp : IPtr} {i : Nat} {held : List (IPtr × Nat)}
  {locks : List IPtr} {E : Stop → Prop}

theorem SameDisk.trans (first : SameDisk k k') (second : SameDisk k' k'') : SameDisk k k'' :=
  ⟨second.sb.trans first.sb, second.store.trans first.store, second.log.trans first.log⟩

theorem SameDisk.setInode (k : Kernel) (p : IPtr) (ip : Inode) : SameDisk k (k.setInode p ip) :=
  ⟨rfl, rfl, rfl⟩

theorem SameDisk.disk (same : SameDisk k k') : k'.disk = k.disk := by
  unfold Kernel.disk
  rw [same.sb, same.store]

theorem SameDisk.files (same : SameDisk k k') : SameFiles k k' := by
  refine ⟨same.sb, fun i _ => by rw [same.disk], fun i => ?_⟩
  rw [Kernel.content, Kernel.content, same.sb, same.store, same.disk]

theorem SameDisk.covered (same : SameDisk k k') (covered : k.Covered) : k'.Covered := by
  intro i area n below
  rw [same.sb] at area
  rw [Kernel.size, same.disk] at below
  rw [Kernel.block, same.sb, same.store, same.disk]
  exact covered i area n below

theorem Got.sameDisk (got : Got i p k k') : SameDisk k k' := by
  rw [got.state]
  exact SameDisk.setInode _ _ _

theorem iget_returns (h : Holding k₀ held locks k) (inside : 0 < i ∧ i < k.sb.icap)
    (room : ∃ q, (k.icache q).ref = 0) :
    wp (iget i) (fun p k' => Holding k₀ ((p, i) :: held) locks k' ∧ SameDisk k k') E k := by
  apply wp_mono (wp_and (iget_holds h inside) (iget_got k i))
  · rintro p k' ⟨⟨h', -⟩, got⟩
    exact ⟨h', got.sameDisk⟩
  · rintro e ⟨-, -, full⟩
    obtain ⟨q, free⟩ := room
    have := full q
    omega

/-- `ilock` on an allocated inode. -/
theorem ilock_returns (h : Holding k₀ held locks k) (mem : (p, i) ∈ held) (free : p ∉ locks)
    (typed : (k.disk i).type ≠ 0) :
    wp (ilock p) (fun _ k' => Holding k₀ held (p :: locks) k' ∧ SameDisk k k') E k := by
  have used := h.used mem
  have returns : wp (ilock p) (fun _ _ => True) E k := by
    unfold ilock
    simp only [wp_bind, wp_get, h.unlocked free, h.inum p i mem]
    refine wp_ite (fun none_left => absurd none_left (by omega)) fun _ => ?_
    refine wp_ite (fun no => by cases no) fun _ => ?_
    refine wp_ite (fun _ => trivial) fun _ => ?_
    exact wp_ite (fun no => absurd no typed) fun _ => trivial
  apply wp_post (ilock_sets h used returns)
  rintro _ k' ⟨h', ip, rfl⟩
  exact ⟨h', SameDisk.setInode _ _ _⟩

theorem iput_returns (h : Holding k₀ ((p, i) :: held) locks k) (fit : k₀.Fit)
    (same : SameDisk k₀ k) (free : p ∉ locks) :
    wp (iput p) (fun _ k' => Holding k₀ held locks k' ∧ SameDisk k₀ k') E k := by
  have returns : wp (iput p) (fun _ k' => SameDisk k₀ k') E k := by
    unfold iput
    simp only [wp_bind, wp_get]
    rw [if_neg (by simp [h.unlocked free]), if_neg (h.not_last fit same.files)]
    exact same.trans (SameDisk.setInode _ _ _)
  apply wp_mono (wp_and (iput_holds h free) returns)
  · rintro _ k' ⟨⟨h', -⟩, same'⟩
    exact ⟨h', same'⟩
  · exact fun _ stop => stop.2

theorem iunlockput_returns (h : Holding k₀ ((p, i) :: held) [p] k) (fit : k₀.Fit)
    (same : SameDisk k₀ k) :
    wp (iunlockput p) (fun _ k' => Holding k₀ held [] k' ∧ SameDisk k₀ k') E k := by
  unfold iunlockput
  apply wp_seq (iunlock_sets h (List.mem_singleton_self p) (only_lock p))
  rintro _ k₁ ⟨h₁, ip, rfl⟩
  exact iput_returns h₁ fit (same.trans (SameDisk.setInode _ _ _)) List.not_mem_nil

theorem dirlookup_returns (here : Directory dp k) (covered : k.Covered)
    (room : ∃ q, (k.icache q).ref = 0) (name : Bytes) :
    wp (dirlookup dp name) (fun _ k' => SameDisk k k') E k := by
  unfold dirlookup
  simp only [wp_bind, wp_get]
  rw [if_neg (not_not.mpr here.dir), here.size_eq]
  refine scan_wp (R := (· = k)) (d := k.direntAt (k.icache dp).inum) (e := 0)
    (dirlookupLoop.eq_def dp name _) here.len (fun j inside k₁ at_k => ?_)
    (fun f inside _ _ _ k₁ at_k => ?_) (fun _ k₁ at_k => ?_) (Nat.zero_le _) rfl
  · subst at_k
    have below : direntSize * (j + 1) ≤ k₁.size (k₁.icache dp).inum := by
      rw [← here.len]
      exact Nat.mul_le_mul_left direntSize inside
    have there := covered _ here.area (direntSize * j / bsize) (by
      simp only [direntSize, dirsiz, bsize] at *
      omega)
    exact wp_of_run (readDirent_there here.ok here.held here.dir below there) ⟨rfl, rfl⟩
  · subst at_k
    rw [wp_bind]
    refine wp_mono (iget_got k₁ _) (fun p k' got => got.sameDisk) fun e full => ?_
    obtain ⟨q, free⟩ := room
    have := full.2 q
    omega
  · subst at_k
    exact ⟨rfl, rfl, rfl⟩

/-- The call holds one entry of the cache, so one of two free ones is still free. -/
theorem Holding.room (h : Holding k₀ [(p, i)] locks k) (roomy : k₀.Roomy) :
    ∃ q, (k.icache q).ref = 0 := by
  obtain ⟨q, q', apart, free, free'⟩ := roomy.slots
  have count := h.ref q
  have count' := h.ref q'
  rw [refsTo_cons, refsTo_nil] at count count'
  by_cases here : q = p
  · refine ⟨q', ?_⟩
    rw [count', free', if_neg fun there => apart (here.trans there.symm)]
  · refine ⟨q, ?_⟩
    rw [count, free, if_neg here]

/-- The loop of `namex` returns, and has written nothing. -/
theorem namexLoop_returns (fit : k₀.Fit) (roomy : k₀.Roomy) (nameiparent : Bool)
    (path : List UInt8) (name : Bytes) (h : Holding k₀ [(p, i)] [] k) (same : SameDisk k₀ k)
    (typed : (k₀.disk i).type ≠ 0) :
    wp (namexLoop nameiparent p path name) (fun _ k' => SameDisk k₀ k') E k := by
  induction elems : elements path generalizing path name p i k with
  | nil =>
    rw [namexLoop_ended (skipelem_none elems name)]
    refine wp_ite (fun _ => ?_) fun _ => same
    exact wp_seq (iput_returns h fit same List.not_mem_nil) fun _ _ done => done.2
  | cons elem elems ih =>
    have mem : (p, i) ∈ [(p, i)] := List.mem_singleton_self _
    have lock : p ∈ [p] := List.mem_singleton_self _
    have inside : i < k₀.sb.icap := by
      have := h.inside mem
      rwa [h.sb] at this
    obtain ⟨rest, next, tail, -⟩ := skipelem_some elems name
    rw [namexLoop_next next]
    apply wp_seq (ilock_returns h mem List.not_mem_nil (by rw [same.disk]; exact typed))
    rintro _ k₁ ⟨h₁, same₁⟩
    replace same₁ := same.trans same₁
    have type : (k₁.icache p).dinode.type = (k₀.disk i).type := by
      rw [(h₁.copy mem lock).1, same₁.disk]
    rw [wp_bind, wp_get, type]
    refine wp_ite (fun _ => ?_) fun isDir => ?_
    · exact wp_seq (iunlockput_returns h₁ fit same₁) fun _ _ done => done.2
    · rw [not_not] at isDir
      refine wp_ite (fun _ => ?_) fun _ => ?_
      · apply wp_seq (iunlock_sets h₁ lock (only_lock p))
        rintro _ k₂ ⟨-, ip, rfl⟩
        exact same₁.trans (SameDisk.setInode _ _ _)
      · have dir₁ : (k₁.disk i).type = tDir := by rw [same₁.disk]; exact isDir
        refine wp_seq_mono (wp_and (dirlookup_holds h₁ mem lock dir₁ (copyElem elem name))
          (dirlookup_returns (h₁.directory mem lock dir₁) (same₁.covered roomy.covered)
            (h₁.room roomy) _)) (fun _ stop => stop.2) ?_
        rintro found k₂ ⟨looked, same₂⟩
        replace same₂ := same₁.trans same₂
        match found, looked with
        | none, ⟨h₂, _, _⟩ =>
          simp only
          exact wp_seq (iunlockput_returns h₂ fit same₂) fun _ _ done => done.2
        | some (q, _), ⟨e, v, h₂, _, _, first⟩ =>
          simp only
          apply wp_seq (iunlockput_returns (h₂.perm (List.Perm.swap _ _ _)) fit same₂)
          rintro _ k₃ ⟨h₃, same₃⟩
          rw [same₁.files.entries inside] at first
          exact ih rest (copyElem elem name) h₃ same₃
            (roomy.allocated i inside isDir ⟨e, first.1⟩) tail

theorem namex_reads (fit : k.Fit) (free : ∀ q, (k.icache q).locked = false) {cwd : IPtr}
    (used : 0 < (k.icache cwd).ref) (roomy : k.Roomy) {path : List UInt8}
    (typed : (k.disk (k.pathStart cwd path)).type ≠ 0) (nameiparent : Bool) (name : Bytes) :
    wp (namex cwd path nameiparent name) (fun _ k' => SameDisk k k') E k := by
  have h := Holding.refl fit free
  have room : ∃ q, (k.icache q).ref = 0 := by
    obtain ⟨q, -, -, unused, -⟩ := roomy.slots
    exact ⟨q, unused⟩
  unfold namex
  unfold Kernel.pathStart at typed
  refine wp_ite (fun rooted => ?_) fun relative => ?_
  · rw [if_pos rooted] at typed
    apply wp_seq (iget_returns h ⟨Nat.one_pos, fit.root⟩ room)
    rintro p k₁ ⟨h₁, same⟩
    exact namexLoop_returns fit roomy nameiparent path name h₁ same typed
  · rw [if_neg relative] at typed
    rw [wp_bind]
    have copied : idup cwd k = .ok (cwd,
        k.setInode cwd { k.icache cwd with ref := (k.icache cwd).ref + 1 }) := rfl
    obtain ⟨-, h₁, -⟩ := wp_ok (idup_holds h used) copied
    refine wp_of_run copied ?_
    exact namexLoop_returns fit roomy nameiparent path name h₁ (SameDisk.setInode _ _ _) typed

theorem namex_returns (fit : k.Fit) (free : ∀ q, (k.icache q).locked = false) {cwd : IPtr}
    (used : 0 < (k.icache cwd).ref) (roomy : k.Roomy) {path : List UInt8}
    (typed : (k.disk (k.pathStart cwd path)).type ≠ 0) (nameiparent : Bool) (name : Bytes) :
    ∃ r k', namex cwd path nameiparent name k = .ok (r, k') := by
  obtain ⟨r, k', ran, -⟩ := wp_returns (namex_reads fit free used roomy typed nameiparent name)
  exact ⟨r, k', ran⟩

theorem namei_returns {cwd : IPtr} {path : List UInt8} {name : Bytes}
    (returns : ∃ r k', namex cwd path false name k = .ok (r, k')) :
    ∃ r k', namei cwd path name k = .ok (r, k') := by
  obtain ⟨r, k', ran⟩ := returns
  exact ⟨r.map Prod.fst, k', run_bind ran⟩

end Returns

/-- **Path resolution follows the elements of the path through the tree on disk.**  What
`namei` and `nameiparent` return is what the tree gives for the elements of the path, from
the root if the path starts with a slash and from the working directory otherwise.  They do
return if the entries on disk lead to allocated inodes, no directory has a hole, and the
inode cache has room.  A slash more between elements or at the end changes nothing. -/
theorem paths_resolve {k : Kernel} (fit : k.Fit) (free : ∀ q, (k.icache q).locked = false)
    {cwd : IPtr} (used : 0 < (k.icache cwd).ref) {path : List UInt8} (nonzero : 0 ∉ path)
    (name : Bytes) :
    wp (namei cwd path name) (fun r k' => r.map (fun p => (k'.icache p).inum) =
      k.tree.resolve (k.pathStart cwd path) (elements path)) Awake k ∧
    wp (nameiparent cwd path name) (fun r k' =>
      r.map (fun x => ((k'.icache x.1).inum, nameKey x.2)) =
        k.tree.parentOf (k.pathStart cwd path) (elements path)) Awake k ∧
    (k.Roomy → (k.disk (k.pathStart cwd path)).type ≠ 0 →
      (∃ r k', namei cwd path name k = .ok (r, k')) ∧
      ∃ r k', nameiparent cwd path name k = .ok (r, k')) ∧
    (∀ pre rest, path = pre ++ slash :: rest →
      namei cwd (pre ++ slash :: slash :: rest) name = namei cwd path name ∧
      nameiparent cwd (pre ++ slash :: slash :: rest) name = nameiparent cwd path name) ∧
    (path ≠ [] → namei cwd (path ++ [slash]) name = namei cwd path name ∧
      nameiparent cwd (path ++ [slash]) name = nameiparent cwd path name) := by
  refine ⟨namei_resolves fit free used nonzero name,
    nameiparent_resolves fit free used nonzero name, fun roomy typed => ⟨?_, ?_⟩, ?_, fun some_byte => ⟨?_, ?_⟩⟩
  · exact namei_returns (namex_returns fit free used roomy typed false name)
  · exact namex_returns fit free used roomy typed true name
  · rintro pre rest rfl
    refine ⟨?_, namex_slashes cwd pre rest true name⟩
    unfold namei
    rw [namex_slashes]
  · unfold namei
    rw [namex_trailing cwd some_byte]
  · exact namex_trailing cwd some_byte true name

namespace Mkfs

variable {img : Image}

/-- The first process on an image with one file. -/
theorem first_roomy (finished : Finished img oneFile) : (Sys.firstState img.sector).k.Roomy := by
  have same : SameDisk (boot img.sector) (Sys.firstState img.sector).k := SameDisk.setInode _ _ _
  refine ⟨same.covered (boot_covered finished (by decide)), ?_, 1, 2, by decide, rfl, rfl⟩
  intro d inside dir key v bound
  rw [same.sb] at inside
  rw [same.disk] at dir ⊢
  rw [same.files.entries inside] at bound
  rw [boot_icap finished] at inside
  obtain rfl : d = 1 := by
    rcases boot_inode finished inside with ⟨rfl, -, -⟩ | ⟨-, -, type, -⟩ | ⟨-, zero⟩
    · rfl
    · rw [type] at dir
      cases dir
    · rw [zero] at dir
      cases dir
  obtain ⟨e, holds⟩ := bound
  obtain ⟨x, there, -, number⟩ := boot_root_entry finished (by decide) holds
  have file := finished.files 0 (by decide)
  have entries : ∀ x ∈ rootEntries oneFile, x.1 = 1 ∨ x.1 = 2 := by decide
  rw [boot_disk finished, number]
  rcases entries x (List.mem_of_getElem? there) with one | two
  · rw [one, finished.rootType]
    decide
  · rw [two, file.type]
    decide

/-- The first entry of the root with a name gives its number. -/
theorem first_lookup_at (finished : Finished img oneFile) {e : Nat} {key : List UInt8} {v : UInt16}
    (short : e < 3) (here : ((rootEntries oneFile)[e]?.map
      fun x => (nameKey (Bytes.ofList x.2), UInt16.ofNat x.1)) = some (key, v))
    (others : ∀ j < e, ∀ x, (rootEntries oneFile)[j]? = some x →
      nameKey (Bytes.ofList x.2) ≠ key) :
    ((Sys.firstState img.sector).k.entries 1).lookup key = some v := by
  have cell : ∀ e, ((Sys.firstState img.sector).k.entries 1).cell e = _ :=
    cell_root finished (by decide)
  have long : 3 ≤ ((Sys.firstState img.sector).k.entries 1).len := by
    show 3 ≤ (opened img 1).size 1 / direntSize
    rw [opened_size finished]
    decide
  refine Slots.First.lookup (e := e) ⟨⟨by omega, (cell e).trans here⟩, ?_⟩
  rintro j lower v ⟨-, holds⟩
  rw [cell] at holds
  obtain ⟨x, there, same⟩ := Option.map_eq_some_iff.mp holds
  exact others j lower x there (congrArg Prod.fst same)

/-- `a` in the root directory is inode 2. -/
theorem first_lookup (finished : Finished img oneFile) :
    ((Sys.firstState img.sector).k.entries 1).lookup [97] = some 2 :=
  first_lookup_at finished (e := 2) (by decide) (by decide) (by decide)

theorem first_dot (finished : Finished img oneFile) :
    ((Sys.firstState img.sector).k.entries 1).lookup [46] = some 1 :=
  first_lookup_at finished (e := 0) (by decide) (by decide) (by decide)

/-- The file `a` of an image, by a path with slashes to spare. -/
theorem slash_a_resolves : ∃ img p k', mkfs oneFile = some img ∧
    namei 0 [slash, slash, 97, slash] (fun _ => 0) (Sys.firstState img.sector).k =
      .ok (some p, k') ∧ (k'.icache p).inum = 2 := by
  obtain ⟨img, made⟩ := oneFile_image
  have finished := mkfs_finished made (by decide)
  obtain ⟨fine, -⟩ := Sys.userinit_fine (boot_booted finished (by decide))
    (Sys.userinit_boot img.sector)
  have typed : ((Sys.firstState img.sector).k.disk 1).type = tDir := by
    show ((boot img.sector).disk 1).type = tDir
    rw [boot_disk finished, finished.rootType]
  have used : 0 < ((Sys.firstState img.sector).k.icache 0).ref := Nat.one_pos
  have nonzero : (0 : UInt8) ∉ [slash, slash, 97, slash] := by decide
  obtain ⟨resolves, -, returns, -, -⟩ := paths_resolve fine.rested.fit fine.rested.free used nonzero
    fun _ => 0
  obtain ⟨⟨r, k', ran⟩, -⟩ := returns (first_roomy finished) (by
    show ((Sys.firstState img.sector).k.disk 1).type ≠ 0
    rw [typed]
    decide)
  have start : (Sys.firstState img.sector).k.pathStart 0 [slash, slash, 97, slash] = 1 := rfl
  have elems : elements [slash, slash, 97, slash] = [[97]] := by decide
  have answer := (Prog.wp_iff.mp resolves).1 r k' ran
  rw [start, elems] at answer
  have child : (Sys.firstState img.sector).k.tree.child 1 [97] = some 2 :=
    congrArg (Option.map UInt16.toNat) (first_lookup finished)
  have dir : (Sys.firstState img.sector).k.tree.isDir 1 = true := Kernel.tree_isDir.mpr typed
  rw [Tree.resolve_cons dir, child, Option.bind_some, Tree.resolve] at answer
  obtain ⟨p, rfl, here⟩ := Option.map_eq_some_iff.mp answer
  exact ⟨img, p, k', made, ran, here⟩

end Mkfs

end BasicOS
