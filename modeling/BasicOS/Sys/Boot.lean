/-
# BasicOS.Sys.Boot — from an image to the first process

A kernel that has booted from a file system in order, with nothing open yet
(`Kernel.Booted`), gets its first process from `userinit`.  The images of `mkfs`
are in order: the only directory is the root, its entries lead to the inodes that
were made, and every inode has its one link.
-/
import BasicOS.Spec.DirMap
import BasicOS.Sys.Opens

namespace BasicOS

open Lib Function
open Lib.Prog

set_option autoImplicit false

/-- A file system in order, of which nothing is open. -/
structure Kernel.Booted (k : Kernel) : Prop where
  rested : k.Rested
  unused : ∀ q, (k.icache q).ref = 0

/-! ## Images -/

namespace Mkfs

variable {img : Image} {fs : List InputFile}

section

variable (finished : Finished img fs)

include finished

theorem boot_icap : (boot img.sector).sb.icap = 208 := by
  rw [boot_sb finished]
  rfl

/-- The inodes of an image: the root, the files, and those in no use. -/
theorem boot_inode {i : Nat} (inside : i < 208) :
    (i = 1 ∧ ((boot img.sector).disk i).type = tDir ∧ ((boot img.sector).disk i).nlink = 1) ∨
    (2 ≤ i ∧ i < fs.length + 2 ∧ ((boot img.sector).disk i).type = tFile ∧
      ((boot img.sector).disk i).nlink = 1) ∨
    ((i = 0 ∨ fs.length + 2 ≤ i) ∧ (boot img.sector).disk i = Dinode.zero) := by
  rw [boot_disk finished]
  by_cases root : i = 1
  · subst root
    exact .inl ⟨rfl, finished.rootType, finished.rootLink⟩
  · by_cases file : 2 ≤ i ∧ i < fs.length + 2
    · obtain ⟨j, rfl⟩ : ∃ j, i = j + 2 := ⟨i - 2, by omega⟩
      have keeps := finished.files j (by omega)
      exact .inr (.inl ⟨file.1, file.2, keeps.type, keeps.nlink⟩)
    · have idle : i = 0 ∨ fs.length + 2 ≤ i := by omega
      exact .inr (.inr ⟨idle, finished.unused i inside idle⟩)

/-- The entries of the root directory. -/
theorem boot_root_entry (few : fs.length ≤ 206) {e : Nat}
    {key : List UInt8} {v : UInt16} (holds : ((boot img.sector).entries 1).At e key v) :
    ∃ x, (rootEntries fs)[e]? = some x ∧ nameKey (Bytes.ofList x.2) = key ∧ v.toNat = x.1 := by
  have cell : ((boot img.sector).entries 1).cell e = _ := cell_root finished few e
  rw [holds.2] at cell
  obtain ⟨x, there, same⟩ := Option.map_eq_some_iff.mp cell.symm
  obtain ⟨-, high, -⟩ := rootEntries_sound (List.mem_of_getElem? there)
  simp only [Prod.mk.injEq] at same
  refine ⟨x, there, same.1, ?_⟩
  rw [← same.2, UInt16.toNat_ofNat']
  exact Nat.mod_eq_of_lt (by omega)

theorem boot_saneDir (few : fs.length ≤ 206) :
    (boot img.sector).SaneDir 1 := by
  refine ⟨?_, ?_, ?_⟩
  · rw [boot_size finished, finished.rootSize]
    simp only [rootSize, bsize, direntSize, dirsiz]
    omega
  · rintro key v ⟨e, holds⟩
    obtain ⟨x, there, -, number⟩ := boot_root_entry finished few holds
    obtain ⟨-, high, -⟩ := rootEntries_sound (List.mem_of_getElem? there)
    rw [boot_icap finished]
    omega
  · rintro key v ⟨e, holds⟩ self
    obtain ⟨x, there, rfl, number⟩ := boot_root_entry finished few holds
    have mem := List.mem_of_getElem? there
    simp only [rootEntries, List.mem_cons, List.mem_map] at mem
    rcases mem with rfl | rfl | ⟨⟨f, i⟩, mem, rfl⟩
    · exact .inl (by decide)
    · exact .inr (by decide)
    · obtain ⟨low, -, -⟩ := List.mem_zipIdx mem
      simp only at number
      omega

/-- Every image of `mkfs` boots. -/
theorem boot_booted (few : fs.length ≤ 206) :
    (boot img.sector).Booted := by
  have icap := boot_icap finished
  have unused : ∀ q, ((boot img.sector).icache q).ref = 0 := fun _ => rfl
  refine ⟨⟨⟨boot_ok finished, ?_, ?_, ?_, ?_, ?_⟩, fun _ => rfl, rfl, rfl⟩, unused⟩
  · rw [icap]
    decide
  · rw [icap]
    decide
  · intro q used
    rw [unused q] at used
    omega
  · intro d inside isDir
    rw [icap] at inside
    rcases boot_inode finished inside with ⟨rfl, -, -⟩ | ⟨-, -, type, -⟩ | ⟨-, zero⟩
    · exact boot_saneDir finished few
    · rw [type] at isDir
      cases isDir
    · rw [zero] at isDir
      cases isDir
  · intro i inside typed unlinked
    rw [icap] at inside
    rcases boot_inode finished inside with ⟨rfl, -, link⟩ | ⟨-, -, -, link⟩ | ⟨-, zero⟩
    · rw [link] at unlinked
      cases unlinked
    · rw [link] at unlinked
      cases unlinked
    · rw [zero] at typed
      exact absurd rfl typed

end

end Mkfs

/-! ## The first process -/

namespace Sys

/-- `userinit`: the first process is in the directory `namei("/")`. -/
def userinit (k : Kernel) : Option State :=
  match namei 0 [slash] (fun _ => 0) k with
  | .ok (some root, k) => some (start k root)
  | _ => none

/-- A path of slashes only leads to the root. -/
theorem namei_slash (k : Kernel) :
    namei 0 [slash] (fun _ => 0) k = (iget rootino k).map fun r => (some r.1, r.2) := by
  have ends : ∀ p : IPtr,
      namexLoop false p [slash] (fun _ => 0) = pure (some (p, (fun _ => 0 : Bytes))) := by
    intro p
    unfold namexLoop
    rfl
  have walked : namex 0 [slash] false (fun _ => 0) = iget rootino >>= fun ip =>
      namexLoop false ip [slash] fun _ => 0 := rfl
  simp only [ends] at walked
  unfold namei
  rw [walked]
  cases got : iget rootino k with
  | error e => exact run_bind_error (run_bind_error got)
  | ok r => rw [bind_assoc, run_bind got]; rfl

/-- The state of the first process on a disk: the root has the first entry of the
cache, and has not been read. -/
def firstState (disk : Nat → Block) : State :=
  start ((boot disk).setInode 0 ⟨rootino, 1, false, false, Dinode.zero⟩) 0

theorem userinit_boot (disk : Nat → Block) : userinit (boot disk) = some (firstState disk) := by
  unfold userinit
  rw [namei_slash]
  rfl

/-- Where `userinit` leads: it has `iget` the root. -/
theorem userinit_cases {k : Kernel} {s : State} (begun : userinit k = some s) :
    ∃ root k', s = start k' root ∧ iget rootino k = .ok (root, k') := by
  unfold userinit at begun
  rw [namei_slash] at begun
  cases got : iget rootino k with
  | error e =>
    rw [got] at begun
    cases begun
  | ok r =>
    rw [got] at begun
    cases begun
    exact ⟨r.1, r.2, rfl, rfl⟩

theorem userinit_fine {k : Kernel} (booted : k.Booted) {s : State} (begun : userinit k = some s) :
    s.Fine ∧ SameFiles k s.k := by
  obtain ⟨root, k', rfl, got⟩ := userinit_cases begun
  have resting := Holding.refl booted.rested.fit booted.rested.free
  obtain ⟨h, same⟩ := wp_ok (iget_holds resting ⟨Nat.one_pos, booted.rested.fit.root⟩) got
  have log := (wp_ok (iget_got k rootino) got).log
  have returned : Returned k [(root, rootino)] k' :=
    h.returned ⟨h.fit, h.free, by rw [log, booted.rested.idle], by rw [log, booted.rested.empty]⟩ rfl
  have none_counted : Counted (start k' root).file (fun _ => none) k := by
    refine ⟨fun q => ?_, fun _ _ => rfl, fun f q no => ?_⟩
    · rw [booted.unused q]
      simp [start, File.inode, tally]
    · simp [start, File.inode] at no
  exact ⟨⟨returned.rested, none_counted.enters returned rfl⟩, same⟩

end Sys

end BasicOS
