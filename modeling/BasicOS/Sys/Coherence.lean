/-
# BasicOS.Sys.Coherence — every run keeps the inode cache in order

Each call of a running process takes a state in order (`State.Fine`) to one in
order, so whatever the calls were, the counts of the cache are the users there are,
no inode is in the cache twice, and what the cache holds of an inode is what the
disk holds.

The same lemma says which calls come to wait for a lock of their own: only `link`,
and only where its second path ends in `.` or `..`.
-/
import BasicOS.Sys.Boot

namespace BasicOS.Sys

open Lib Function
open Lib.Prog

set_option autoImplicit false

/-- A `link` whose second path ends in `.` or `..`. -/
def Call.DottedLink : Call → Prop
  | .link _ (some new) name => Dotted new name
  | _ => False

section

variable {s s' : State} {cur : Slot} {dir : IPtr}

/-- A call on the files only: the tables stay as they are. -/
theorem wp_fs_fine {α : Type} {m : Fs α} {P : α → Kernel → Prop} {E : Stop → Prop} {F : Halt → Prop}
    (h : s.Fine) (spec : wp m (fun a k' => Returned s.k [] k' ∧ P a k') E s.k)
    (halts : ∀ e, E e → F (.fs e)) : wp (fs m) (fun _ s' => s'.Fine) F s := by
  rw [wp_fs]
  apply wp_mono spec ?_ halts
  rintro a k' ⟨returned, -⟩
  exact h.returned returned

/-- Every call keeps the state in order. -/
theorem run_fine (h : s.Fine) (running : s.cwd cur = some dir) (c : Call) (legal : c.Legal s) :
    wp (c.run cur dir) (fun _ s' => s'.Fine) (fun e => e = .fs .blocked → c.DottedLink) s := by
  have used := h.counted.cwd_pos running
  have ready : ∀ {c : Call} {e : Halt}, e.Ready → e = .fs .blocked → c.DottedLink :=
    fun ready blocked => absurd blocked ready
  have awake : ∀ {c : Call} (e : Stop), Awake e → Halt.fs e = .fs .blocked → c.DottedLink :=
    fun e awake => ready (ready_of_awake awake)
  have ends : ∀ {β γ : Type} {m : Act β} {g : β → γ} {P : β → State → Prop}, wp m P Halt.Ready s →
      (∀ a t, P a t → t.Fine) → ∀ {c : Call}, wp (m >>= fun a => pure (g a)) (fun _ t => t.Fine)
        (fun e => e = .fs .blocked → c.DottedLink) s := by
    intro β γ m g P spec fine c
    rw [wp_bind]
    exact wp_mono spec fine fun _ => ready
  cases c with
  | «open» path omode name =>
    exact ends (sysOpen_fine h running path omode name) fun _ _ done => done.fine
  | close fd => exact ends (sysClose_fine h cur fd) fun _ _ done => done.1
  | dup fd => exact ends (sysDup_fine h cur fd) fun _ _ done => done.1
  | pipe page => exact ends (sysPipe_fine h cur page) fun _ _ done => done.1
  | read fd n killed console =>
    refine wp_argfd h fun _ f _ => ?_
    exact wp_mono (fileread_fine h f n killed console) (fun _ _ done => done.fine)
      fun _ => ready
  | write fd bytes killed =>
    refine wp_argfd h fun _ f _ => ?_
    exact wp_mono (filewrite_fine h f bytes killed) (fun _ _ done => done.1) fun _ => ready
  | fstat fd =>
    exact wp_argfd h fun _ f _ => ends (filestat_fine h f) fun _ _ done => done.fine
  | link old new name =>
    rcases old with _ | old
    · exact h
    · rcases new with _ | new
      · exact h
      · rw [Call.run, wp_bind]
        apply wp_fs_fine h (sysLink_returns h.rested used old new name)
        rintro e (calm | ⟨-, dotted⟩)
        · exact awake e calm
        · exact fun _ => dotted
  | unlink path name =>
    rcases path with _ | path
    · exact h
    · rw [Call.run, wp_bind]
      exact wp_fs_fine h (sysUnlink_returns h.rested used path name) awake
  | mkdir path name =>
    exact ends (sysMake_fine h running path (by decide) (by decide) name)
      fun _ _ done => done.fine
  | mknod path major minor name =>
    exact ends (sysMake_fine h running path (by decide) (by decide) name)
      fun _ _ done => done.fine
  | chdir path name =>
    exact ends (sysChdir_fine h running path name) fun _ _ done => done.fine
  | exec path reads ok name =>
    rcases path with _ | path
    · exact h
    · rw [Call.run, wp_bind]
      exact wp_fs_fine h (sysExec_returns h.rested used path reads ok name) awake
  | fork np => exact ends (spawn_fine h cur running np legal) fun _ _ done => done
  | threadCreate np => exact ends (spawn_fine h cur running np legal) fun _ _ done => done
  | exit => exact ends (leave_fine h cur running) fun _ _ done => done.1
  | threadExit => exact ends (leave_fine h cur running) fun _ _ done => done.1

theorem step_fine {e : Slot × Call} (h : s.Fine) (stepped : step s e = some s') : s'.Fine := by
  obtain ⟨dir, r, running, legal, done⟩ := step_cases stepped
  exact wp_ok (run_fine h running e.2 legal) done

/-- The states between calls are in order. -/
theorem reached_fine {k : Kernel} (booted : k.Booted) {s₀ : State} (begun : userinit k = some s₀)
    {calls : List (Slot × Call)} (reached : run step s₀ calls = some s) : s.Fine :=
  run_invariant step (fun _ _ _ before stepped => step_fine before stepped)
    (userinit_fine booted begun).1 reached

end

/-- In every state between calls, whatever the calls were: the count of a cache entry
is the number of open files on it plus the number of processes in it; two entries in
use are for different inodes; and an entry that has been read holds what the disk
holds. -/
theorem icache_coherent {k : Kernel} (booted : k.Booted) {s₀ s : State}
    (begun : userinit k = some s₀) {calls : List (Slot × Call)}
    (reached : run step s₀ calls = some s) :
    (∀ q, (s.k.icache q).ref =
      (Finset.univ.filter fun f => 0 < (s.file f).ref ∧ (s.file f).type = .inode ∧
        (s.file f).ip = q).card +
      (Finset.univ.filter fun p => s.cwd p = some q).card) ∧
    (∀ p q, 0 < (s.k.icache p).ref → 0 < (s.k.icache q).ref →
      (s.k.icache p).inum = (s.k.icache q).inum → p = q) ∧
    (∀ q, 0 < (s.k.icache q).ref → (s.k.icache q).valid = true →
      (s.k.icache q).dinode = s.k.disk (s.k.icache q).inum) := by
  have h := reached_fine booted begun reached
  refine ⟨?_, h.rested.fit.ok.unique, ?_⟩
  · intro q
    have users := h.counted.users q
    have files : (Finset.univ.filter fun f => 0 < (s.file f).ref ∧ (s.file f).type = .inode ∧
        (s.file f).ip = q) = Finset.univ.filter fun f => (s.file f).inode = some q := by
      apply Finset.filter_congr
      intro f _
      simp [File.inode, and_assoc]
    rw [files]
    simp only [tally] at users
    omega
  · intro q used valid
    exact (h.rested.fit.ok.cache q used valid).2.1

/-- The first process forks, makes a thread, and its child leaves. -/
theorem shared_directory_counted : ∃ img s₀ s, Mkfs.mkfs Mkfs.oneFile = some img ∧
    userinit (boot img.sector) = some s₀ ∧
    run step s₀ [(0, .fork (some 1)), (0, .threadCreate (some 2)), (1, .exit)] = some s ∧
    (s.k.icache 0).ref = 2 ∧ (Finset.univ.filter fun p => s.cwd p = some 0).card = 2 := by
  obtain ⟨img, made⟩ := Mkfs.oneFile_image
  have finished := Mkfs.mkfs_finished made (by decide)
  have begun := userinit_boot img.sector
  obtain ⟨s, reached, ref, idle⟩ : ∃ s,
      run step (firstState img.sector)
        [(0, .fork (some 1)), (0, .threadCreate (some 2)), (1, .exit)] = some s ∧
      (s.k.icache 0).ref = 2 ∧ ∀ f, (s.file f).ref = 0 := by
    refine ⟨_, rfl, ?_, ?_⟩
    · rfl
    · intro f
      rfl
  have users := (icache_coherent (Mkfs.boot_booted finished (by decide)) begun reached).1 0
  have noFiles : (Finset.univ.filter fun f => 0 < (s.file f).ref ∧ (s.file f).type = .inode ∧
      (s.file f).ip = 0) = ∅ := by simp [idle]
  rw [noFiles, Finset.card_empty, ref] at users
  exact ⟨img, _, s, made, begun, reached, ref, by omega⟩

end BasicOS.Sys
