/-
# BasicOS.Sys.Effects — what the calls on names do

`Outcome` says for `open`, `link`, `unlink`, `mkdir`, `mknod` and `chdir` what a call that
returns has done to the files, the descriptors and the working directories, by what it
returned.  `names_outcome`: that is so from every state between calls.  A call that fails
leaves no trace, with one exception: `open` with `O_CREATE` that finds no file structure
or no descriptor may leave the new file.
-/
import BasicOS.Sys.Coherence

namespace BasicOS.Sys

open Lib Function
open Lib.Prog

set_option autoImplicit false

/-- The tables of open files and of working directories are as before. -/
def SameTables (s s' : State) : Prop :=
  s'.file = s.file ∧ s'.ofile = s.ofile ∧ s'.cwd = s.cwd

/-- What a call has done that returned `r`. -/
def Call.Outcome (cur : Slot) (s : State) (r : Option Int) (s' : State) : Call → Prop
  | .open _ omode _ => ∃ n, r = some n ∧ OpenDone cur omode s n s'
  | .link (some _) (some _) _ =>
    ∃ ok, r = some (status ok) ∧ LinkDone s.k ok s'.k ∧ SameTables s s'
  | .unlink (some _) _ => ∃ ok, r = some (status ok) ∧ UnlinkDone s.k ok s'.k ∧ SameTables s s'
  | .link _ _ _ | .unlink none _ => r = some (-1) ∧ s' = s
  | .mkdir _ _ => ∃ n, r = some n ∧ MakeDone tDir 0 0 s n s'
  | .mknod _ major minor _ => ∃ n, r = some n ∧ MakeDone tDev major minor s n s'
  | .chdir _ _ => ∃ n, r = some n ∧ ChdirDone s n s'
  | _ => True

/-- The calls whose effect `Outcome` describes. -/
def Call.OnNames : Call → Prop
  | .open _ _ _ | .link _ _ _ | .unlink _ _ | .mkdir _ _ | .mknod _ _ _ _ | .chdir _ _ => True
  | _ => False

/-- **The calls on names do what they return**, from every state that any calls of any
processes lead to.  What stops one is a panic, or the lock that `link` waits for under a
name of the parent directory itself. -/
theorem names_outcome {k : Kernel} (booted : k.Booted) {s₀ s : State}
    (begun : userinit k = some s₀) {calls : List (Slot × Call)}
    (reached : run step s₀ calls = some s) {cur : Slot} {dir : IPtr}
    (running : s.cwd cur = some dir) (c : Call) (names : c.OnNames) :
    wp (c.run cur dir) (fun r s' => c.Outcome cur s r s')
      (fun e => e = .fs .blocked → c.DottedLink) s := by
  have h := reached_fine booted begun reached
  have used := h.counted.cwd_pos running
  have ends : ∀ {m : Act Int} {P : Int → State → Prop}, wp m P Halt.Ready s → ∀ {c : Call},
      wp (m >>= fun n => pure (some n)) (fun r s' => ∃ n, r = some n ∧ P n s')
        (fun e => e = .fs .blocked → c.DottedLink) s := by
    intro m P spec c
    rw [wp_bind]
    exact wp_mono spec (fun n s' done => ⟨n, rfl, done⟩) fun _ ready no => absurd no ready
  have files : ∀ {m : Fs Bool} {P : Bool → Kernel → Prop} {E : Stop → Prop},
      wp m (fun ok k' => Returned s.k [] k' ∧ P ok k') E s.k → ∀ {c : Call},
      (∀ e, E e → Awake e ∨ c.DottedLink) →
      wp (fs m >>= fun ok => pure (some (status ok)))
        (fun r s' => ∃ ok, r = some (status ok) ∧ P ok s'.k ∧ SameTables s s')
        (fun e => e = .fs .blocked → c.DottedLink) s := by
    intro m P E spec c stops
    rw [wp_bind, wp_fs]
    refine wp_mono spec (fun ok k' done => ⟨ok, rfl, done.2, rfl, rfl, rfl⟩) fun e stop no => ?_
    exact (stops e stop).resolve_left fun awake => ready_of_awake awake no
  cases c with
  | «open» path omode name => exact ends (sysOpen_fine h running path omode name)
  | link old new name =>
    obtain _ | old := old
    · exact ⟨rfl, rfl⟩
    · obtain _ | new := new
      · exact ⟨rfl, rfl⟩
      · exact files (sysLink_returns h.rested used old new name) fun _ => .imp_right And.right
  | unlink path name =>
    obtain _ | path := path
    · exact ⟨rfl, rfl⟩
    · exact files (sysUnlink_returns h.rested used path name) fun _ => .inl
  | mkdir path name => exact ends (sysMake_fine h running path (by decide) (by decide) name)
  | mknod path major minor name =>
    exact ends (sysMake_fine h running path (by decide) (by decide) name)
  | chdir path name => exact ends (sysChdir_fine h running path name)
  | _ => exact names.elim

/-- The first process of an image with one file unlinks it. -/
theorem unlink_outcome : ∃ img s₀, Mkfs.mkfs Mkfs.oneFile = some img ∧
    userinit (boot img.sector) = some s₀ ∧ wp ((Call.unlink (some [97]) fun _ => 0).run 0 0)
      (fun r s' => ∃ ok, r = some (status ok) ∧ UnlinkDone s₀.k ok s'.k ∧ SameTables s₀ s')
      (fun e => e ≠ .fs .blocked) s₀ := by
  obtain ⟨img, made⟩ := Mkfs.oneFile_image
  have finished := Mkfs.mkfs_finished made (by decide)
  have begun := userinit_boot img.sector
  have start : run step (firstState img.sector) [] = some (firstState img.sector) := rfl
  exact ⟨img, _, made, begun, names_outcome (Mkfs.boot_booted finished (by decide)) begun start
    rfl (.unlink (some [97]) fun _ => 0) trivial⟩

end BasicOS.Sys
