/-
# BasicOS.Sys.Opens — open, mkdir, mknod, chdir and exec

These calls resolve a path and keep, or give back, the reference they get.  Each
fails without a trace, except for `open` with `O_CREATE`: it makes the file before
it looks for a file structure and a descriptor, and leaves it when there is none
(`OpenDone.failed`).
-/
import BasicOS.Sys.Inodes

namespace BasicOS.Sys

open Lib Function
open Lib.Prog

set_option autoImplicit false

section

variable {k k₁ : Kernel} {s s' : State} {ip dir : IPtr} {i : Nat} {cur : Slot} {omode : UInt32}

/-- A new inode under a new name, and perhaps references dropped. -/
def MadeIn (type major minor : Int16) (k k' : Kernel) : Prop :=
  ∃ i d e key is, i < k.sb.icap ∧ d < k.sb.icap ∧ i ≠ d ∧
    Changed (newChanges i d e key type major minor ++ List.map Change.drop is) k k'

theorem MadeIn.drops {type major minor : Int16} {k k' k'' : Kernel}
    (made : MadeIn type major minor k k') (drops : Drops k' k'') :
    MadeIn type major minor k k'' := by
  obtain ⟨i, d, e, key, is, insideI, insideD, apart, changed⟩ := made
  obtain ⟨js, later⟩ := drops
  refine ⟨i, d, e, key, is ++ js, insideI, insideD, apart, ?_⟩
  rw [List.map_append, ← List.append_assoc]
  exact changed.andThen later

theorem MadeIn.after {type major minor : Int16} {k k' k'' : Kernel} (same : SameFiles k k')
    (made : MadeIn type major minor k' k'') : MadeIn type major minor k k'' := by
  obtain ⟨i, d, e, key, is, insideI, insideD, apart, changed⟩ := made
  rw [same.sb] at insideI insideD
  exact ⟨i, d, e, key, is, insideI, insideD, apart, same.andThen changed⟩

/-! ## The inode -/

/-- The first half of `open`: the inode, locked; a directory only for reading. -/
def InodeOpened (k₁ : Kernel) (omode : UInt32) : Option IPtr → Kernel → Prop
  | none, k => Holding k₁ [] [] k ∧ SameFiles k₁ k
  | some ip, k => ∃ i, Holding k₁ [(ip, i)] [ip] k ∧ ((k.disk i).type = tDir → omode = oRdonly) ∧
      (SameFiles k₁ k ∨ omode &&& oCreate ≠ 0 ∧ MadeIn tFile 0 0 k₁ k)

theorem openInode_holds (fit : k.Fit) (free : ∀ q, (k.icache q).locked = false)
    (used : 0 < (k.icache dir).ref) (path : List UInt8) (omode : UInt32) (name : Bytes) :
    wp (openInode dir path omode name) (InodeOpened k omode) Awake k := by
  unfold openInode
  refine wp_ite (fun creates => ?_) fun _ => ?_
  · apply wp_post (create_holds fit free used path (by decide) name)
    intro r k' created
    match r, created with
    | none, nothing => exact nothing
    | some ip, ⟨i, h, type, was⟩ =>
      refine ⟨i, h, ?_, ?_⟩
      · intro isDir
        rw [type] at isDir
        cases isDir
      · rcases was with ⟨-, same⟩ | ⟨d, e, key, insideI, insideD, apart, changed⟩
        · exact .inl same
        · refine .inr ⟨creates, i, d, e, key, [], insideI, insideD, apart, ?_⟩
          rw [List.map_nil, List.append_nil]
          exact changed
  · apply wp_seq (namei_named fit free used path name)
    intro found k₁ named
    match found, named with
    | none, nothing => exact nothing
    | some ip, ⟨i, h₁, same₁⟩ =>
      have mem : (ip, i) ∈ [(ip, i)] := List.mem_singleton_self _
      simp only
      apply wp_seq (ilock_holds h₁ mem List.not_mem_nil)
      rintro _ k₂ ⟨h₂, same₂⟩
      replace same₂ := same₁.trans same₂
      have copy := (h₂.copy mem (List.mem_singleton_self _)).1
      rw [wp_bind, wp_get]
      refine wp_ite (fun _ => ?_) fun readable => ?_
      · rw [wp_bind]
        exact iunlockput_same h₂ fit same₂ (List.mem_singleton_self _) (only_lock ip)
      · refine ⟨i, h₂, fun isDir => ?_, .inl same₂⟩
        by_contra writes
        rw [copy] at readable
        exact readable ⟨isDir, writes⟩

/-! ## The file -/

/-- No file structure is free, or no descriptor. -/
def NoRoom (s : State) (cur : Slot) : Prop :=
  (∀ f, (s.file f).ref ≠ 0) ∨ ∀ fd, s.ofile cur fd ≠ none

/-- The second half of `open`, by what it returns. -/
structure FileOpened (k₁ : Kernel) (cur : Slot) (s : State) (r : Int) (s' : State) : Prop where
  fine : s'.Fine
  cwd : s'.cwd = s.cwd
  drops : Drops s.k s'.k
  failed : r = -1 → s'.ofile = s.ofile ∧ NoRoom s cur ∧
    (SameFiles k₁ s.k → SameFiles k₁ s'.k)

/-- The label of `open` that gives the inode back. -/
theorem openBad_fine (began : Began k k₁) (counted : Counted s.file s.cwd k)
    (h : Holding k₁ [(ip, i)] [ip] s.k) :
    wp (fs (iunlockput ip)) (fun _ t => wp (fs endOp) (fun _ s' => s'.Fine ∧ s'.cwd = s.cwd ∧
      s'.ofile = s.ofile ∧ Drops s.k s'.k ∧ (SameFiles k₁ s.k → SameFiles k₁ s'.k))
      Halt.Ready t) Halt.Ready s := by
  have fit := began.quiet.fit began.rested.fit
  have puts : wp (iunlockput ip) (fun _ k' => Holding k₁ [] [] k' ∧ Changed [.drop i] s.k k' ∧
      (SameFiles k₁ s.k → SameFiles k₁ k')) Awake s.k := by
    have drops := iunlockput_drops h (List.mem_singleton_self _) (only_lock ip)
    by_cases same : SameFiles k₁ s.k
    · have both := wp_and drops
        (iunlockput_same h fit same (List.mem_singleton_self _) (only_lock ip))
      apply wp_mono both ?_ fun _ stop => stop.1
      rintro _ k' ⟨⟨h', dropped⟩, -, same'⟩
      exact ⟨h', dropped, fun _ => same'⟩
    · apply wp_post drops
      rintro _ k' ⟨h', dropped⟩
      exact ⟨h', dropped, fun yes => absurd yes same⟩
  apply wp_fs_ready puts
  rintro _ k₂ ⟨h₂, dropped, kept⟩
  apply wp_fs_ready (endOp_returns began h₂)
  rintro _ k' ⟨returned, same'⟩
  refine ⟨⟨returned.rested, counted.returned returned⟩, rfl, rfl, ⟨[i], ?_⟩, fun same => ?_⟩
  · exact dropped.thenSame same'
  · exact (kept same).trans same'

theorem openFile_fine (began : Began k k₁) (counted : Counted s.file s.cwd k)
    (h : Holding k₁ [(ip, i)] [ip] s.k) (mode : (s.k.disk i).type = tDir → omode = oRdonly) :
    wp (openFile cur ip omode) (fun r s' => FileOpened k₁ cur s r s') Halt.Ready s := by
  have mem : (ip, i) ∈ [(ip, i)] := List.mem_singleton_self _
  have lock : ip ∈ [ip] := List.mem_singleton_self _
  unfold openFile
  apply wp_seq_sure (filealloc_spec s)
  rintro (_ | f) s₁
  · rintro ⟨rfl, none_free⟩
    simp only [closeOpt, wp_bind, wp_pure]
    apply wp_post (openBad_fine began counted h)
    intro _ t inner
    apply wp_post inner
    rintro _ s' ⟨fine, cwd, ofile, drops, kept⟩
    exact ⟨fine, cwd, drops, fun _ => ⟨ofile, .inl none_free, kept⟩⟩
  rintro ⟨free, rfl⟩
  have type := counted.unused f free
  simp only
  apply wp_seq_sure (fdalloc_spec cur f _)
  rintro (_ | fd) s₂
  · rintro ⟨rfl, none_free⟩
    simp only [closeOpt, wp_bind]
    apply wp_mono (fileclose_idle (g := f) (by simp [State.setFile])
      (by simp [State.setFile, type])) ?_ fun _ no => no.elim
    rintro _ s₃ closed
    have counted₃ : Counted s₃.file s₃.cwd k := by
      rw [closed]
      show Counted (update (update s.file f _) f _) s.cwd k
      rw [update_idem]
      exact counted.setFile (fun _ => rfl)
        (by rw [File.inode_of_ref rfl, File.inode_of_ref free])
        fun no => absurd (File.inode_of_ref rfl) no
    have k₃ : s₃.k = s.k := by rw [closed]; rfl
    have cwd₃ : s₃.cwd = s.cwd := by rw [closed]; rfl
    have ofile₃ : s₃.ofile = s.ofile := by rw [closed]; rfl
    apply wp_post (openBad_fine began counted₃ (by rw [k₃]; exact h))
    intro _ t inner
    apply wp_post inner
    rw [k₃, cwd₃, ofile₃]
    rintro _ s' ⟨fine, cwd, ofile, drops, kept⟩
    exact ⟨fine, cwd, drops, fun _ => ⟨ofile, .inr none_free, kept⟩⟩
  · rintro ⟨-, rfl⟩
    simp only [wp_bind]
    obtain ⟨-, valid⟩ := h.fit.ok.locked ip ((h.locked ip).mpr lock)
    have copy := (h.copy mem lock).1
    -- the entry stays valid and keeps its type when it is unlocked
    have unlocks := wp_and (iunlock_holds h lock (only_lock ip))
      (iunlock_holds h.rebase lock (only_lock ip))
    rw [wp_fs]
    apply wp_mono unlocks ?_ fun _ stop => ready_of_awake stop.1
    rintro _ k₃ ⟨⟨h₃, same₃⟩, since, -⟩
    rw [wp_fs]
    apply wp_mono (endOp_ends began h₃) ?_ fun _ => ready_of_awake
    rintro _ k' ⟨returned, quiet⟩
    rw [wp_modify]
    obtain ⟨valid', type'⟩ := (since.keeps ip (h.used mem)).2 valid
    refine ⟨⟨returned.rested, ?_⟩, rfl, (same₃.trans quiet.sameFiles).drops, ?_⟩
    · show Counted (update (update s.file f { s.file f with ref := 1 }) f _) s.cwd k'
      rw [update_idem]
      apply counted.opens returned (File.inode_of_ref free)
      · simp [File.inode, State.setFile, State.setFd]
      · rw [quiet.icache]
        exact valid'
      · intro writable isDir
        rw [quiet.icache, type', copy] at isDir
        rw [mode isDir] at writable
        simp at writable
    · intro no
      have : (0 : Int) ≤ fd.val := Int.natCast_nonneg _
      omega

/-! ## open -/

structure OpenDone (cur : Slot) (omode : UInt32) (s : State) (r : Int) (s' : State) : Prop where
  fine : s'.Fine
  cwd : s'.cwd = s.cwd
  files : Drops s.k s'.k ∨ omode &&& oCreate ≠ 0 ∧ MadeIn tFile 0 0 s.k s'.k
  failed : r = -1 → s'.ofile = s.ofile ∧
    (SameFiles s.k s'.k ∨ omode &&& oCreate ≠ 0 ∧ NoRoom s cur)

theorem sysOpen_fine (h : s.Fine) (running : s.cwd cur = some dir) (path : Option (List UInt8))
    (omode : UInt32) (name : Bytes) :
    wp (sysOpen cur dir path omode name) (OpenDone cur omode s) Halt.Ready s := by
  have same := SameFiles.refl s.k
  cases path with
  | none => exact ⟨h, rfl, .inl same.drops, fun _ => ⟨rfl, .inl same⟩⟩
  | some path =>
    unfold sysOpen
    simp only [wp_bind]
    apply wp_fs_ready (beginOp_rested h.rested)
    rintro _ k₁ ⟨quiet, one, h₁⟩
    have began : Began s.k k₁ := ⟨h.rested, quiet, one⟩
    have used : 0 < (k₁.icache dir).ref := by
      rw [quiet.icache]
      exact h.counted.cwd_pos running
    apply wp_fs_ready (openInode_holds h₁.fit h₁.free used path omode name)
    intro found k₂ opened
    cases found with
    | none =>
      obtain ⟨h₂, same₂⟩ := opened
      simp only [wp_bind]
      apply wp_fs_ready (endOp_returns began h₂)
      rintro _ k' ⟨returned, same'⟩
      have all := quiet.sameFiles.trans (same₂.trans same')
      exact ⟨h.returned returned, rfl, .inl all.drops, fun _ => ⟨rfl, .inl all⟩⟩
    | some ip =>
      obtain ⟨i, h₂, mode, files⟩ := opened
      simp only
      apply wp_post (openFile_fine (s := { s with k := k₂ }) began h.counted h₂ mode)
      intro r s' after
      refine ⟨after.fine, after.cwd, ?_, fun minus => ?_⟩
      · rcases files with same₂ | ⟨creates, made⟩
        · exact .inl ((quiet.sameFiles.trans same₂).drops.trans after.drops)
        · exact .inr ⟨creates, (made.drops after.drops).after quiet.sameFiles⟩
      · obtain ⟨ofile, full, kept⟩ := after.failed minus
        refine ⟨ofile, ?_⟩
        rcases files with same₂ | ⟨creates, made⟩
        · exact .inl (quiet.sameFiles.trans (kept same₂))
        · exact .inr ⟨creates, full⟩

/-! ## mkdir and mknod -/

/-- What `mkdir` and `mknod` do. -/
structure MakeDone (type major minor : Int16) (s : State) (r : Int) (s' : State) : Prop where
  fine : s'.Fine
  cwd : s'.cwd = s.cwd
  ofile : s'.ofile = s.ofile
  failed : r = -1 → SameFiles s.k s'.k
  done : SameFiles s.k s'.k ∨ MadeIn type major minor s.k s'.k

theorem sysMake_fine (h : s.Fine) (running : s.cwd cur = some dir) (path : Option (List UInt8))
    {type major minor : Int16} (typed : type ≠ 0) (notFile : type ≠ tFile) (name : Bytes) :
    wp (sysMake dir path type major minor name) (MakeDone type major minor s) Halt.Ready s := by
  unfold sysMake
  rw [wp_bind]
  apply wp_fs_ready (beginOp_rested h.rested)
  rintro _ k₁ ⟨quiet, one, h₁⟩
  have began : Began s.k k₁ := ⟨h.rested, quiet, one⟩
  have used : 0 < (k₁.icache dir).ref := by
    rw [quiet.icache]
    exact h.counted.cwd_pos running
  -- the call fails with the files as they were
  have fails : ∀ {k₂}, Holding k₁ [] [] k₂ → SameFiles k₁ k₂ →
      wp (do fs endOp; return (-1 : Int)) (MakeDone type major minor s) Halt.Ready
        { s with k := k₂ } := by
    intro k₂ h₂ same₂
    rw [wp_bind]
    apply wp_fs_ready (endOp_returns began h₂)
    rintro _ k' ⟨returned, same'⟩
    have all := quiet.sameFiles.trans (same₂.trans same')
    exact ⟨h.returned returned, rfl, rfl, fun _ => all, .inl all⟩
  cases path with
  | none => exact fails h₁ (SameFiles.refl k₁)
  | some path =>
    simp only
    rw [wp_bind]
    apply wp_fs_ready (create_holds h₁.fit h₁.free used path typed name)
    intro made k₂ created
    match made, created with
    | none, ⟨h₂, same₂⟩ => exact fails h₂ same₂
    | some ip, ⟨i, h₂, _, was⟩ =>
      simp only [wp_bind]
      apply wp_fs_ready (iunlockput_drops h₂ (List.mem_singleton_self _) (only_lock ip))
      rintro _ k₃ ⟨h₃, dropped⟩
      apply wp_fs_ready (endOp_returns began h₃)
      rintro _ k' ⟨returned, same'⟩
      refine ⟨h.returned returned, rfl, rfl, fun no => absurd no (by decide), ?_⟩
      rcases was with ⟨isFile, -⟩ | ⟨d, e, key, insideI, insideD, apart, changed⟩
      · exact absurd isFile notFile
      · have fresh : MadeIn type major minor k₁ k' :=
          ⟨i, d, e, key, [i], insideI, insideD, apart,
            changed.andThen (dropped.thenSame same')⟩
        exact .inr (fresh.after quiet.sameFiles)

/-! ## chdir and exec -/

structure ChdirDone (s : State) (r : Int) (s' : State) : Prop where
  fine : s'.Fine
  ofile : s'.ofile = s.ofile
  drops : Drops s.k s'.k
  failed : r = -1 → s'.cwd = s.cwd ∧ SameFiles s.k s'.k

theorem sysChdir_fine (h : s.Fine) (running : s.cwd cur = some dir) (path : Option (List UInt8))
    (name : Bytes) : wp (sysChdir cur dir path name) (ChdirDone s) Halt.Ready s := by
  unfold sysChdir
  rw [wp_bind]
  apply wp_fs_ready (beginOp_rested h.rested)
  rintro _ k₁ ⟨quiet, one, h₁⟩
  have began : Began s.k k₁ := ⟨h.rested, quiet, one⟩
  have used : 0 < (k₁.icache dir).ref := by
    rw [quiet.icache]
    exact h.counted.cwd_pos running
  have fails : ∀ {k₂}, Holding k₁ [] [] k₂ → SameFiles k₁ k₂ →
      wp (do fs endOp; return (-1 : Int)) (ChdirDone s) Halt.Ready { s with k := k₂ } := by
    intro k₂ h₂ same₂
    rw [wp_bind]
    apply wp_fs_ready (endOp_returns began h₂)
    rintro _ k' ⟨returned, same'⟩
    have all := quiet.sameFiles.trans (same₂.trans same')
    exact ⟨h.returned returned, rfl, all.drops, fun _ => ⟨rfl, all⟩⟩
  cases path with
  | none => exact fails h₁ (SameFiles.refl k₁)
  | some path =>
    simp only
    rw [wp_bind]
    apply wp_fs_ready (namei_named h₁.fit h₁.free used path name)
    intro found k₂ named
    match found, named with
    | none, ⟨h₂, same₂⟩ => exact fails h₂ same₂
    | some ip, ⟨i, h₂, same₂⟩ =>
      have mem : (ip, i) ∈ [(ip, i)] := List.mem_singleton_self _
      have lock : ip ∈ [ip] := List.mem_singleton_self _
      simp only
      rw [wp_bind]
      apply wp_fs_ready (ilock_holds h₂ mem List.not_mem_nil)
      rintro _ k₃ ⟨h₃, same₃⟩
      replace same₃ := same₂.trans same₃
      rw [wp_bind, wp_get]
      refine wp_ite (fun _ => ?_) fun _ => ?_
      · rw [wp_bind]
        apply wp_fs_ready (iunlockput_same h₃ h₁.fit same₃ lock (only_lock ip))
        rintro _ k₄ ⟨h₄, same₄⟩
        exact fails h₄ same₄
      · simp only [wp_bind]
        apply wp_fs_ready (iunlock_holds h₃ lock (only_lock ip))
        rintro _ k₄ ⟨h₄, same₄⟩
        replace same₄ := same₃.trans same₄
        -- the old directory's reference is the process's own
        have both : Holding (k₁.unref dir) ([(dir, (k₁.icache dir).inum)] ++ [(ip, i)]) [] k₄ :=
          ((Holding.borrow h₁.fit h₁.free used).trans h₄).perm List.perm_append_comm
        apply wp_fs_ready (iput_drops both List.not_mem_nil)
        rintro _ k₅ ⟨h₅, dropped⟩
        apply wp_fs_ready (endOp_rested h₅.fit h₅.free (h₅.outstanding.trans one))
        rintro _ k' ⟨rested', quiet'⟩
        rw [wp_modify]
        have returned : Returned (s.k.unref dir) [(ip, i)] k' :=
          (h₅.returned rested' quiet'.icache).of_icache (by
            apply funext
            intro q
            rw [icache_unref, icache_unref, quiet.icache])
        have moved := (h.counted.leaves running).enters returned (update_self cur none s.cwd)
        rw [update_idem] at moved
        refine ⟨⟨returned.rested, moved⟩, rfl, ⟨[(k₁.icache dir).inum], ?_⟩,
          fun no => absurd no (by decide)⟩
        exact (quiet.sameFiles.trans same₄).andThen (dropped.thenSame quiet'.sameFiles)

theorem execReads_holds {k₀ k : Kernel} {held : List (IPtr × Nat)} {locks : List IPtr}
    (h : Holding k₀ held locks k) (lock : ip ∈ locks) (reads : List (UInt32 × UInt32)) :
    wp (execReads ip reads) (fun _ k' => Holding k₀ held locks k' ∧ SameFiles k k') Awake k := by
  induction reads generalizing k with
  | nil => exact ⟨h, SameFiles.refl k⟩
  | cons read reads ih =>
    unfold execReads
    apply wp_seq (readi_holds h lock _ _)
    rintro _ k₁ ⟨h₁, same₁, -⟩
    apply wp_post (ih h₁)
    rintro _ k₂ ⟨h₂, same₂⟩
    exact ⟨h₂, same₁.trans same₂⟩

/-- `exec` changes no file. -/
theorem sysExec_returns (rested : k.Rested) (used : 0 < (k.icache dir).ref) (path : List UInt8)
    (reads : List (UInt32 × UInt32)) (ok : Bool) (name : Bytes) :
    wp (sysExec dir path reads ok name) (fun _ k' => Returned k [] k' ∧ SameFiles k k') Awake k := by
  unfold sysExec
  apply wp_seq (beginOp_rested rested)
  rintro _ k₁ ⟨quiet, one, h₁⟩
  have began : Began k k₁ := ⟨rested, quiet, one⟩
  apply wp_seq (namei_named h₁.fit h₁.free (by rw [quiet.icache]; exact used) path name)
  intro found k₂ named
  match found, named with
  | none, ⟨h₂, same₂⟩ =>
    simp only
    apply wp_seq (endOp_returns began h₂)
    rintro _ k' ⟨returned, same'⟩
    exact ⟨returned, quiet.sameFiles.trans (same₂.trans same')⟩
  | some ip, ⟨i, h₂, same₂⟩ =>
    have lock : ip ∈ [ip] := List.mem_singleton_self _
    simp only [wp_bind]
    apply wp_post (ilock_holds h₂ (List.mem_singleton_self _) List.not_mem_nil)
    rintro _ k₃ ⟨h₃, same₃⟩
    apply wp_post (execReads_holds h₃ lock reads)
    rintro _ k₄ ⟨h₄, same₄⟩
    apply wp_post (iunlockput_same h₄ h₁.fit (same₂.trans (same₃.trans same₄)) lock
      (only_lock ip))
    rintro _ k₅ ⟨h₅, same₅⟩
    apply wp_post (endOp_returns began h₅)
    rintro _ k' ⟨returned, same'⟩
    exact ⟨returned, quiet.sameFiles.trans (same₅.trans same')⟩

end

end BasicOS.Sys
