/-
# BasicOS.Sys.Links — what link and unlink do to the tree

`link` and `unlink` fail without a trace, or have made the changes listed for
them.  `link` counts the new link before it looks for the directory, and takes it
back when it fails (`linkBad_holds`).

Both end in one of the panics of `panics`, if they do not return.  Only `link` can
come to wait for itself, in `dirlink`, and only when its second path ends in `.` or
`..` (`Dotted`); `unlink` looks at the last element first.
-/
import BasicOS.Sys.Names

namespace BasicOS

open Lib Function
open Lib.Prog

set_option autoImplicit false

section

variable {k k' k'' k₀ : Kernel} {p ip dp cwd : IPtr} {i d : Nat} {held : List (IPtr × Nat)}
  {locks : List IPtr}

/-! ## link -/

/-- The path ends in `.` or `..`; `name` is what the buffer held. -/
def Dotted (path : List UInt8) (name : Bytes) : Prop :=
  ∃ last, lastElem path name = some last ∧ (namecmp last dot ∨ namecmp last dotdot)

def linkChanges (i d e : Nat) (key : List UInt8) : List Change :=
  [.links i 1, .enter d e key i, .drop d, .drop i]

/-- What `link` has done. -/
def LinkDone (k : Kernel) : Bool → Kernel → Prop
  | false, k' => SameFiles k k'
  | true, k' => ∃ i d e key, (k.disk i).type ≠ 0 ∧ (k.disk i).type ≠ tDir ∧ i < k.sb.icap ∧
      d < k.sb.icap ∧ i ≠ d ∧ Changed (linkChanges i d e key) k k'

/-- The label `bad` takes the link back. -/
theorem linkBad_holds {k₁ k₂ k₃ : Kernel} (began : Began k k₁) (fit : k₁.Fit)
    (counted : Edited i ((k₁.disk i).relinked 1) k₁ k₂) (same : SameFiles k₂ k₃)
    (h : Holding k₁ [(ip, i)] [] k₃) :
    wp (linkBad ip) (fun ok k' => Returned k [] k' ∧ LinkDone k ok k') Awake k₃ := by
  have mem : (ip, i) ∈ [(ip, i)] := List.mem_singleton_self _
  unfold linkBad
  apply wp_seq (ilock_holds h mem List.not_mem_nil)
  rintro _ k₄ ⟨h₄, same₄⟩
  replace same₄ := same.trans same₄
  apply wp_seq (relink_holds h₄ mem (by simp) (-1))
  rintro _ k₅ ⟨h₅, edited⟩
  have counted' : Edited i ((k₁.disk i).relinked 1) k₁ k₄ := by
    refine ⟨same₄.sb.trans counted.sb, fun j inside => ?_, fun j => ?_⟩
    · rw [same₄.disk j (by rwa [counted.sb]), counted.disk j inside]
    · rw [same₄.content, counted.content]
  have back : SameFiles k₁ k₅ := counted'.undo edited
  apply wp_seq (iunlockput_same h₅ fit back (by simp) (only_lock _))
  rintro _ k₆ ⟨h₆, same₆⟩
  apply wp_seq (endOp_returns began h₆)
  rintro _ k' ⟨returned, same'⟩
  exact ⟨returned, began.quiet.sameFiles.trans (same₆.trans same')⟩

theorem nameKey_of_dots {name : Bytes} (dots : nameKey name = [46] ∨ nameKey name = [46, 46]) :
    namecmp name dot ∨ namecmp name dotdot := by
  rw [namecmp_iff_nameKey, namecmp_iff_nameKey, nameKey_dot, nameKey_dotdot]
  exact dots

/-- The only locked entry is the directory's: a name that leads to a locked inode
is one of the directory's own. -/
theorem Holding.dots_of_not_apart (h : Holding k₀ [(dp, d)] [dp] k)
    (dir : (k.disk d).type = tDir) {name : Bytes} (no : ¬ k.Apart dp name) :
    nameKey name = [46] ∨ nameKey name = [46, 46] := by
  have mem : (dp, d) ∈ [(dp, d)] := List.mem_singleton_self _
  unfold Kernel.Apart at no
  push Not at no
  obtain ⟨q, v, locked, bound, same⟩ := no
  obtain rfl : q = dp := List.mem_singleton.mp ((h.locked q).mp locked)
  rw [h.inum q d mem] at bound same
  exact (h.fit.dirs d (h.inside mem) dir).self bound same.symm

theorem linkInode_holds {k₁ k₂ : Kernel} (began : Began k k₁) (fit : k₁.Fit)
    (used : 0 < (k₁.icache cwd).ref) (same : SameFiles k₁ k₂) (h : Holding k₁ [(ip, i)] [ip] k₂)
    (plain : (k₁.disk i).type ≠ tDir) (new : List UInt8) (name : Bytes) :
    wp (linkInode cwd ip new name) (fun ok k' => Returned k [] k' ∧ LinkDone k ok k')
      (fun e => Awake e ∨ e = .blocked ∧ Dotted new name) k₂ := by
  have mem : (ip, i) ∈ [(ip, i)] := List.mem_singleton_self _
  have inside₁ : i < k₁.sb.icap := by
    have := h.inside mem
    rwa [h.sb] at this
  have typed : (k₁.disk i).type ≠ 0 := by
    rw [← same.disk i inside₁]
    exact (h.copy mem (by simp)).2
  unfold linkInode
  apply wp_seq_mono (relink_holds h mem (by simp) 1) fun _ => .inl
  rintro _ k₃ ⟨h₃, edited⟩
  have counted : Edited i ((k₁.disk i).relinked 1) k₁ k₃ := by
    refine ⟨edited.sb.trans same.sb, fun j inside => ?_, fun j => ?_⟩
    · rw [edited.disk j (by rwa [same.sb]), same.disk j inside, same.disk i inside₁]
    · rw [edited.content, same.content]
  apply wp_seq_mono (iunlock_holds h₃ (by simp) (only_lock _)) fun _ => .inl
  rintro _ k₄ ⟨h₄, same₄⟩
  -- from here the files as they are with the link counted
  have used₄ : 0 < (k₄.icache cwd).ref := by
    rw [h₄.ref cwd]
    omega
  unfold nameiparent
  apply wp_seq_mono (namex_walked h₄.fit h₄.free used₄ new true name) fun _ => .inl
  intro parent k₅ walked
  match parent, walked with
  | none, ⟨h₅, same₅⟩ =>
    exact wp_mono (linkBad_holds began fit counted (same₄.trans same₅) (h₄.trans h₅))
      (fun _ _ done => done) fun _ => .inl
  | some (dp, name'), ⟨d, h₅, same₅, parent⟩ =>
    obtain ⟨dir, last⟩ := parent rfl
    have memD : (dp, d) ∈ [(dp, d)] := List.mem_singleton_self _
    have insideD : d < k₄.sb.icap := by
      have := h₅.inside memD
      rwa [h₅.sb] at this
    have sb₄ : k₄.sb = k₁.sb := same₄.sb.trans counted.sb
    have apart : i ≠ d := by
      rintro rfl
      rw [same₄.disk i (by rwa [counted.sb]), counted.disk i inside₁, if_pos rfl] at dir
      exact plain dir
    simp only
    apply wp_seq_mono (ilock_holds h₅ memD List.not_mem_nil) fun _ => .inl
    rintro _ k₆ ⟨h₆, same₆⟩
    replace same₆ := same₅.trans same₆
    have dir₆ : (k₆.disk d).type = tDir := by rw [same₆.disk d insideD, dir]
    have inum : (k₆.icache ip).inum = i := by
      rw [(h₆.keeps ip (h₄.used mem)).1]
      exact h₄.inum ip i mem
    have inside₆ : i < k₆.sb.icap := by
      rw [same₆.sb, sb₄]
      exact inside₁
    rw [wp_bind, wp_get, wp_bind, inum]
    apply wp_mono (dirlink_holds h₆ memD (by simp) dir₆ name' inside₆ (h₄.area mem).1
      fun no => absurd no apart)
    · intro linked k₇ result
      rw [wp_bind]
      match linked, result with
      | false, ⟨h₇, same₇, _⟩ =>
        apply wp_mono (iunlockput_same h₇ h₄.fit (same₆.trans same₇) (by simp) (only_lock _)) ?_ fun _ => .inl
        rintro _ k₈ ⟨h₈, same₈⟩
        exact wp_mono (linkBad_holds began fit counted (same₄.trans same₈)
          (h₄.trans h₈)) (fun _ _ done => done) fun _ => .inl
      | true, ⟨h₇, absent, e, free, _, entered⟩ =>
        apply wp_mono (iunlockput_drops h₇ (by simp) (only_lock _)) ?_
          fun _ => .inl
        rintro _ k₈ ⟨h₈, dropped⟩
        rw [if_pos rfl]
        apply wp_seq_mono (iput_drops (h₄.trans h₈) List.not_mem_nil) fun _ => .inl
        rintro _ k₉ ⟨h₉, dropped'⟩
        apply wp_seq_mono (endOp_returns began h₉) fun _ => .inl
        rintro _ k' ⟨returned, same'⟩
        have first : (Change.links i 1).Of k₁ k₃ := counted
        have second : (Change.enter d e (nameKey name') i).Of k₆ k₇ :=
          ⟨dir₆, absent, free, entered⟩
        refine ⟨returned, i, d, e, nameKey name', ?_, ?_, ?_, ?_, apart, ?_⟩
        · rw [← began.quiet.disk i (by rw [← began.quiet.sb]; exact inside₁)]
          exact typed
        · rw [← began.quiet.disk i (by rw [← began.quiet.sb]; exact inside₁)]
          exact plain
        · rw [← began.quiet.sb]
          exact inside₁
        · rw [← began.quiet.sb, ← sb₄]
          exact insideD
        · have all := first.changed.andThen ((same₄.trans same₆).andThen
            (second.changed.andThen (dropped.andThen dropped')))
          exact began.quiet.sameFiles.andThen (all.thenSame same')
    · rintro x (awake | ⟨rfl, no⟩)
      · exact .inl awake
      · exact .inr ⟨rfl, name', last, nameKey_of_dots (h₆.dots_of_not_apart dir₆ no)⟩

/-- **`link`**: it fails without a trace, or enters the name and counts the link. -/
theorem sysLink_returns (rested : k.Rested) (used : 0 < (k.icache cwd).ref)
    (old new : List UInt8) (name : Bytes) :
    wp (sysLink cwd old new name) (fun ok k' => Returned k [] k' ∧ LinkDone k ok k')
      (fun e => Awake e ∨ e = .blocked ∧ Dotted new name) k := by
  unfold sysLink
  apply wp_seq_mono (beginOp_rested rested) fun _ => .inl
  rintro _ k₁ ⟨quiet, one, h₁⟩
  have began : Began k k₁ := ⟨rested, quiet, one⟩
  have used₁ : 0 < (k₁.icache cwd).ref := by rwa [quiet.icache]
  have fit := h₁.fit
  apply wp_seq_mono (namei_named fit h₁.free used₁ old name) fun _ => .inl
  intro found k₂ named
  match found, named with
  | none, ⟨h₂, same₂⟩ =>
    simp only
    apply wp_seq_mono (endOp_returns began h₂) fun _ => .inl
    rintro _ k' ⟨returned, same'⟩
    exact ⟨returned, quiet.sameFiles.trans (same₂.trans same')⟩
  | some ip, ⟨i, h₂, same₂⟩ =>
    have mem : (ip, i) ∈ [(ip, i)] := List.mem_singleton_self _
    simp only
    apply wp_seq_mono (ilock_holds h₂ mem List.not_mem_nil) fun _ => .inl
    rintro _ k₃ ⟨h₃, same₃⟩
    replace same₃ := same₂.trans same₃
    have copy := (h₃.copy mem (by simp)).1
    rw [wp_bind, wp_get]
    refine wp_ite (fun _ => ?_) fun plain => ?_
    · apply wp_seq_mono (iunlockput_same h₃ fit same₃ (by simp) (only_lock _)) fun _ => .inl
      rintro _ k₄ ⟨h₄, same₄⟩
      apply wp_seq_mono (endOp_returns began h₄) fun _ => .inl
      rintro _ k' ⟨returned, same'⟩
      exact ⟨returned, quiet.sameFiles.trans (same₄.trans same')⟩
    · refine linkInode_holds began fit used₁ same₃ h₃ ?_ new name
      have inside : i < k₁.sb.icap := by
        have := h₃.inside mem
        rwa [h₃.sb] at this
      rw [copy, same₃.disk i inside] at plain
      exact plain

/-! ## unlink -/

/-- No slot of the table from `e` on is in use. -/
def Bare (k : Kernel) (d e : Nat) : Prop :=
  ∀ j, e ≤ j → j < (k.entries d).len → (k.entries d).cell j = none

theorem isdiremptyLoop_bare (here : Directory dp k) (e : Nat) :
    wp (isdiremptyLoop dp (k.size (k.icache dp).inum) (direntSize * e))
      (fun empty k' => Peek k k' ∧ (empty = true → Bare k (k.icache dp).inum e))
      (Spent k.log.outstanding) k := by
  by_cases near : e ≤ (k.entries (k.icache dp).inum).len
  · refine scan_wp (R := Peek k) (isdiremptyLoop.eq_def dp _) here.len
      (fun j inside k₁ => here.reads _ inside) (fun _ _ _ _ _ k₁ peek => ⟨peek, nofun⟩)
      (fun unused k₁ peek => ⟨peek, fun _ j low inside => ?_⟩) near (Peek.refl here.ok)
    exact if_pos (not_not.mp (unused j low inside))
  · unfold isdiremptyLoop
    rw [if_neg (by rw [← here.len]; exact Nat.not_lt.mpr (Nat.mul_le_mul_left _ (by omega)))]
    exact ⟨Peek.refl here.ok, fun _ j low inside => by omega⟩

theorem isdirempty_holds (h : Holding k₀ held locks k) (mem : (dp, d) ∈ held) (lock : dp ∈ locks)
    (dir : (k.disk d).type = tDir) :
    wp (isdirempty dp) (fun empty k' => Holding k₀ held locks k' ∧ SameFiles k k' ∧
      (empty = true → Bare k d 2)) Awake k := by
  have here := h.directory mem lock dir
  unfold isdirempty
  rw [wp_bind, wp_get, here.size_eq, Nat.mul_comm]
  apply wp_mono (isdiremptyLoop_bare here 2) ?_ fun _ => Spent.awake
  rintro empty k' ⟨peek, bare⟩
  rw [h.inum dp d mem] at bare
  exact ⟨h.quiet peek.toQuiet peek.outstanding, peek.toQuiet.sameFiles, bare⟩

def unlinkChanges (i d e : Nat) (key : List UInt8) (dir : Prop) [Decidable dir] : List Change :=
  .erase d e key i :: (if dir then [.links d (-1)] else []) ++
    [.drop d, .links i (-1), .drop i]

/-- What `unlink` has done. -/
def UnlinkDone (k : Kernel) : Bool → Kernel → Prop
  | false, k' => SameFiles k k'
  | true, k' => ∃ i d e key, i < k.sb.icap ∧ d < k.sb.icap ∧ i ≠ d ∧
      key ≠ [46] ∧ key ≠ [46, 46] ∧ 1 ≤ (k.disk i).nlink ∧
      ((k.disk i).type = tDir → Bare k i 2) ∧
      Changed (unlinkChanges i d e key ((k.disk i).type = tDir)) k k'

theorem unlinkBad_holds {k₁ k₂ : Kernel} (began : Began k k₁) (fit : k₁.Fit)
    (same : SameFiles k₁ k₂) (h : Holding k₁ [(dp, d)] [dp] k₂) :
    wp (unlinkBad dp) (fun ok k' => Returned k [] k' ∧ UnlinkDone k ok k') Awake k₂ := by
  unfold unlinkBad
  apply wp_seq (iunlockput_same h fit same (by simp) (only_lock _))
  rintro _ k₃ ⟨h₃, same₃⟩
  apply wp_seq (endOp_returns began h₃)
  rintro _ k' ⟨returned, same'⟩
  exact ⟨returned, began.quiet.sameFiles.trans (same₃.trans same')⟩

/-- From the erasing of the entry on nothing fails. -/
theorem unlinkEntry_holds {k₁ k₂ : Kernel} (began : Began k k₁) {v : UInt16} {e : Nat}
    {key : List UInt8} (h : Holding k₁ [(dp, d), (ip, v.toNat)] [dp, ip] k₂) (apartP : dp ≠ ip)
    (dir : (k₂.disk d).type = tDir) (holds : (k₂.entries d).At e key v) :
    wp (unlinkEntry dp ip (direntSize * e)) (fun ok k' => ok = true ∧ Returned k [] k' ∧
      Changed (unlinkChanges v.toNat d e key ((k₂.disk v.toNat).type = tDir)) k₂ k') Awake k₂ := by
  have memD : (dp, d) ∈ [(dp, d), (ip, v.toNat)] := by simp
  have memI : (ip, v.toNat) ∈ [(dp, d), (ip, v.toNat)] := by simp
  have lockI : ip ∈ [dp, ip] := by simp
  have insideI := h.inside memI
  have unlockD : ∀ q, q ∈ [ip] ↔ q ∈ [dp, ip] ∧ q ≠ dp := by
    intro q
    by_cases here : q = ip
    · simp [here, Ne.symm apartP]
    · simp [here]
  unfold unlinkEntry
  apply wp_seq (erase_holds h memD (by simp) dir (Nat.le_of_lt holds.1))
  rintro _ k₃ ⟨h₃, entered⟩
  have erased : (Change.erase d e key v.toNat).Of k₂ k₃ := ⟨dir, ⟨v, holds, rfl⟩, entered⟩
  have type₃ : (k₃.icache ip).dinode.type = (k₂.disk v.toNat).type := by
    rw [(h₃.copy memI lockI).1, erased.type insideI (by simp [Change.inode])]
  -- from here on with or without the parent's link
  have rest : ∀ {dots k₄}, Holding k₁ [(dp, d), (ip, v.toNat)] [dp, ip] k₄ → Changed dots k₃ k₄ →
      wp (do
        iunlockput dp
        relink ip (-1)
        iunlockput ip
        endOp
        return true) (fun ok k' => ok = true ∧ Returned k [] k' ∧
        Changed (.erase d e key v.toNat :: dots ++
          [.drop d, .links v.toNat (-1), .drop v.toNat]) k₂ k') Awake k₄ := by
    intro dots k₄ h₄ changed
    apply wp_seq (iunlockput_drops h₄ (by simp) unlockD)
    rintro _ k₅ ⟨h₅, dropped⟩
    apply wp_seq (relink_holds h₅ (List.mem_singleton_self _) (by simp) (-1))
    rintro _ k₆ ⟨h₆, edited⟩
    have counted : (Change.links v.toNat (-1)).Of k₅ k₆ := edited
    apply wp_seq (iunlockput_drops h₆ (by simp) (only_lock _))
    rintro _ k₇ ⟨h₇, dropped'⟩
    apply wp_seq (endOp_returns began h₇)
    rintro _ k' ⟨returned, same'⟩
    refine ⟨rfl, returned, ?_⟩
    have later := dropped.andThen (counted.changed.andThen (dropped'.thenSame same'))
    exact erased.changed.andThen (changed.andThen later)
  rw [wp_bind, wp_get]
  refine wp_ite (fun isDir => ?_) fun notDir => ?_
  · rw [type₃] at isDir
    apply wp_seq (relink_holds h₃ memD (by simp) (-1))
    rintro _ k₄ ⟨h₄, edited⟩
    have counted : (Change.links d (-1)).Of k₃ k₄ := edited
    rw [unlinkChanges, if_pos isDir]
    exact rest h₄ counted.changed
  · rw [type₃] at notDir
    rw [unlinkChanges, if_neg notDir]
    exact rest h₃ (SameFiles.refl k₃).changed

theorem unlinkFound_holds {k₁ k₂ : Kernel} (began : Began k k₁) (fit : k₁.Fit)
    (same : SameFiles k₁ k₂) {v : UInt16} {e : Nat} {key : List UInt8}
    (h : Holding k₁ [(ip, v.toNat), (dp, d)] [dp] k₂) (dir : (k₁.disk d).type = tDir)
    (holds : (k₁.entries d).At e key v) (notDot : key ≠ [46]) (notDotdot : key ≠ [46, 46]) :
    wp (unlinkFound dp ip (direntSize * e)) (fun ok k' => Returned k [] k' ∧ UnlinkDone k ok k')
      Awake k₂ := by
  have memI : (ip, v.toNat) ∈ [(ip, v.toNat), (dp, d)] := by simp
  have memD : (dp, d) ∈ [(ip, v.toNat), (dp, d)] := by simp
  have insideI : v.toNat < k₁.sb.icap := by
    have := h.inside memI
    rwa [h.sb] at this
  have insideD : d < k₁.sb.icap := by
    have := h.inside memD
    rwa [h.sb] at this
  -- only the dots lead back
  have apart : v.toNat ≠ d := by
    intro here
    rcases (fit.dirs d insideD dir).self ⟨e, holds⟩ here with no | no
    · exact notDot no
    · exact notDotdot no
  have apartP : dp ≠ ip := by
    rintro rfl
    exact apart ((h.inum dp _ memI).symm.trans (h.inum dp _ memD))
  have sb := began.quiet.sb
  have inodeI : k₁.disk v.toNat = k.disk v.toNat :=
    began.quiet.disk _ (by rw [← sb]; exact insideI)
  unfold unlinkFound
  apply wp_seq (ilock_holds h memI (by simpa using Ne.symm apartP))
  rintro _ k₃ ⟨h₃, same₃⟩
  replace same₃ := same.trans same₃
  have copy : (k₃.icache ip).dinode = k₁.disk v.toNat := by
    rw [(h₃.copy memI (by simp)).1, same₃.disk _ insideI]
  -- the entry is still there when it comes to erasing it
  have erases : 1 ≤ (k₁.disk v.toNat).nlink → ∀ {k₄}, Holding k₁ [(ip, v.toNat), (dp, d)] [ip, dp] k₄ →
      SameFiles k₁ k₄ → ((k₁.disk v.toNat).type = tDir → Bare k₁ v.toNat 2) →
      wp (unlinkEntry dp ip (direntSize * e))
        (fun ok k' => Returned k [] k' ∧ UnlinkDone k ok k') Awake k₄ := by
    intro linked k₄ h₄ same₄ bare
    have locks : Holding k₁ [(dp, d), (ip, v.toNat)] [dp, ip] k₄ := by
      have swapped := h₄.perm (List.Perm.swap _ _ _)
      refine { swapped with locked := fun q => ?_ }
      rw [swapped.locked q]
      simp [or_comm]
    apply wp_post (unlinkEntry_holds began locks apartP
      (by rw [same₄.disk d insideD, dir]) (by rw [same₄.entries insideD]; exact holds))
    rintro _ k' ⟨rfl, returned, changed⟩
    rw [same₄.disk _ insideI, inodeI] at changed
    refine ⟨returned, v.toNat, d, e, key, by rw [← sb]; exact insideI,
      by rw [← sb]; exact insideD, apart, notDot, notDotdot, by rw [← inodeI]; exact linked, ?_, ?_⟩
    · intro isDir
      rw [← inodeI] at isDir
      have empty := bare isDir
      rw [Bare, began.quiet.sameFiles.entries (by rw [← sb]; exact insideI)] at empty
      exact empty
    · exact (began.quiet.sameFiles.trans same₄).andThen changed
  rw [wp_bind, wp_get, copy]
  refine wp_ite (fun _ => ⟨_, by decide, rfl⟩) fun linked => ?_
  rw [Int16.not_lt] at linked
  refine wp_ite (fun isDir => ?_) fun notDir => ?_
  · apply wp_seq (isdirempty_holds h₃ memI (by simp)
      (by rw [same₃.disk _ insideI]; exact isDir))
    rintro empty k₄ ⟨h₄, same₄, bare⟩
    rw [Bare, same₃.entries insideI] at bare
    replace same₄ := same₃.trans same₄
    refine wp_ite (fun yes => ?_) fun _ => ?_
    · exact erases linked h₄ same₄ fun _ => bare yes
    · rw [wp_bind]
      have unlockI : ∀ q, q ∈ [dp] ↔ q ∈ [ip, dp] ∧ q ≠ ip := by
        intro q
        by_cases here : q = dp
        · simp [here, apartP]
        · simp [here]
      apply wp_post (iunlockput_same h₄ fit same₄ (by simp) unlockI)
      rintro _ k₅ ⟨h₅, same₅⟩
      exact unlinkBad_holds began fit same₅ h₅
  · exact erases linked h₃ same₃ fun isDir => absurd isDir notDir

/-- **`unlink`**: it fails without a trace, or erases an entry and takes its link
off the count. -/
theorem sysUnlink_returns (rested : k.Rested) (used : 0 < (k.icache cwd).ref)
    (path : List UInt8) (name : Bytes) :
    wp (sysUnlink cwd path name) (fun ok k' => Returned k [] k' ∧ UnlinkDone k ok k') Awake k := by
  unfold sysUnlink nameiparent
  apply wp_seq (beginOp_rested rested)
  rintro _ k₁ ⟨quiet, one, h₁⟩
  have began : Began k k₁ := ⟨rested, quiet, one⟩
  have fit := h₁.fit
  apply wp_seq (namex_walked fit h₁.free (by rwa [quiet.icache]) path true name)
  intro parent k₂ walked
  cases parent with
  | none =>
    obtain ⟨h₂, same₂⟩ := walked
    simp only
    apply wp_seq (endOp_returns began h₂)
    rintro _ k' ⟨returned, same'⟩
    exact ⟨returned, quiet.sameFiles.trans (same₂.trans same')⟩
  | some found =>
    obtain ⟨dp, name'⟩ := found
    obtain ⟨d, h₂, same₂, parent⟩ := walked
    have mem : (dp, d) ∈ [(dp, d)] := List.mem_singleton_self _
    have inside : d < k₁.sb.icap := by
      have := h₂.inside mem
      rwa [h₂.sb] at this
    have dir := (parent rfl).1
    simp only
    apply wp_seq (ilock_holds h₂ mem List.not_mem_nil)
    rintro _ k₃ ⟨h₃, same₃⟩
    replace same₃ := same₂.trans same₃
    refine wp_ite (fun _ => unlinkBad_holds began fit same₃ h₃) fun notDots => ?_
    rw [namecmp_iff_nameKey, namecmp_iff_nameKey, nameKey_dot, nameKey_dotdot, not_or] at notDots
    apply wp_seq (dirlookup_holds h₃ mem (by simp)
      (by rw [same₃.disk d inside]; exact dir) name')
    intro found k₄ looked
    cases found with
    | none => exact unlinkBad_holds began fit (same₃.trans looked.2.1) looked.1
    | some found =>
      obtain ⟨ip, off⟩ := found
      obtain ⟨e, v, h₄, same₄, at_off, ⟨holds, -⟩⟩ := looked
      rw [same₃.entries inside] at holds
      simp only [at_off]
      exact unlinkFound_holds began fit (same₃.trans same₄) h₄ dir holds notDots.1 notDots.2

end

end BasicOS
