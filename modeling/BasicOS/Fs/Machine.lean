/-
# BasicOS.Fs.Machine — runs of file system calls

The file system as a state machine.  An event is a call with its reply; a run is
any sequence of events by any number of processes, each call executed as a whole.
`Call.Legal` is how the rest of the kernel calls fs.c: it passes pointers it has
references to, locks inodes that exist, and works on inodes it has locked.

Every run from a state in order ends in a state in order, and no legal call ends
in the panic of `bfree`.
-/
import BasicOS.Fs.Calls
import BasicOS.Lib.Run

namespace BasicOS

open Lib Function
open Lib.Prog

set_option autoImplicit false

/-- The calls.  `iupdate` stands for the idiom of its callers: set fields of the
locked inode, then write it back. -/
inductive Call where
  | beginOp
  | endOp
  | ialloc (type : Int16)
  | iget (inum : Nat)
  | idup (p : IPtr)
  | ilock (p : IPtr)
  | iunlock (p : IPtr)
  | iput (p : IPtr)
  | iupdate (p : IPtr) (major minor nlink : Int16)
  | readi (p : IPtr) (off n : UInt32)
  | writei (p : IPtr) (src : Bytes) (off n : UInt32)
  | dirlookup (dp : IPtr) (name : Bytes)
  | dirlink (dp : IPtr) (name : Bytes) (inum : Nat)

inductive Reply where
  | unit
  | inode (p : IPtr)
  | data (r : Io (List UInt8))
  | wrote (r : Io UInt32)
  | entry (r : Option (IPtr × Nat))
  | linked (r : Bool)
  deriving DecidableEq, Repr

namespace Call

def exec : Call → Fs Reply
  | beginOp => do BasicOS.beginOp; return .unit
  | endOp => do BasicOS.endOp; return .unit
  | ialloc type => do return .inode (← BasicOS.ialloc type)
  | iget inum => do return .inode (← BasicOS.iget inum)
  | idup p => do return .inode (← BasicOS.idup p)
  | ilock p => do BasicOS.ilock p; return .unit
  | iunlock p => do BasicOS.iunlock p; return .unit
  | iput p => do BasicOS.iput p; return .unit
  | iupdate p major minor nlink => do
      modify fun k => k.edit p { (k.icache p).dinode with major, minor, nlink }
      BasicOS.iupdate p
      return .unit
  | readi p off n => do return .data (← BasicOS.readi p off n)
  | writei p src off n => do return .wrote (← BasicOS.writei p src off n)
  | dirlookup dp name => do return .entry (← BasicOS.dirlookup dp name)
  | dirlink dp name inum => do return .linked (← BasicOS.dirlink dp name inum)

/-- The calls the rest of the kernel makes. -/
def Legal (k : Kernel) : Call → Prop
  | beginOp | ialloc _ | iget _ | iunlock _ => True
  | endOp => 1 ≤ k.log.outstanding
  | idup p | iput p => 0 < (k.icache p).ref
  | ilock p => (k.icache p).inum < k.sb.icap
  | iupdate p _ _ _ | readi p _ _ | writei p _ _ _ | dirlookup p _ | dirlink p _ _ =>
    (k.icache p).locked = true

instance (k : Kernel) (c : Call) : Decidable (c.Legal k) := by
  cases c <;> unfold Legal <;> infer_instance

end Call

/-- A call and its reply. -/
abbrev FsEvent := Call × Reply

/-- The step of an event: the call is legal and returns that reply. -/
def fsStep (k : Kernel) (e : FsEvent) : Option Kernel :=
  if e.1.Legal k then
    match e.1.exec k with
    | .ok (r, k') => if r = e.2 then some k' else none
    | .error _ => none
  else none

section

variable {k k' : Kernel} {c : Call} {r : Reply}

theorem fsStep_iff : fsStep k (c, r) = some k' ↔ c.Legal k ∧ c.exec k = .ok (r, k') := by
  unfold fsStep
  split
  · rename_i legal
    cases done : c.exec k with
    | ok out =>
      obtain ⟨r', k''⟩ := out
      by_cases same : r' = r
      · simp [same, legal]
      · simp [same]
    | error e => simp
  · simp_all

/-- The calls other than `iput`, which frees inodes. -/
theorem exec_grows (ok : k.Ok) (legal : c.Legal k) (other : ∀ p, c ≠ .iput p) :
    wp c.exec (fun _ k' => Grows k k') Harmless k := by
  cases c with
  | beginOp => exact (wp_seq (beginOp_spec ok) fun _ _ q => q.grows)
  | endOp => exact (wp_seq (endOp_spec ok) fun _ _ q => q.grows)
  | ialloc type => exact (wp_bind _ _ _ _ _).mpr (ialloc_spec ok type)
  | iget inum =>
    exact (wp_seq (iget_spec k inum) fun _ _ got => got.grows ok)
  | idup p => exact (ok.setRef legal fun _ => Nat.succ_pos _).grows
  | ilock p =>
    refine (wp_seq (ilock_spec ok legal) ?_)
    rintro _ _ ⟨sound, d, rfl⟩
    exact sound.grows
  | iunlock p =>
    refine (wp_seq (iunlock_spec ok) ?_)
    rintro _ _ ⟨sound, rfl⟩
    exact sound.grows
  | iput p => exact absurd rfl (other p)
  | iupdate p major minor nlink =>
    simp only [Call.exec, wp_bind, wp_modify]
    refine iupdate_wp fun room => ok.refield legal rfl rfl ?_ room
    exact (ok.working legal).typed
  | readi p off n =>
    exact (wp_seq (readi_spec ok legal off n) fun _ _ done => done.1.grows)
  | writei p src off n =>
    exact (wp_seq (writei_spec ok legal src off n) fun _ _ done => done.grows ok)
  | dirlookup dp name =>
    refine (wp_seq (dirlookup_spec ok legal name) ?_)
    intro found k' looked
    cases found with
    | none => exact Quiet.grows looked
    | some _ => exact looked.1
  | dirlink dp name inum => exact (wp_bind _ _ _ _ _).mpr (dirlink_spec ok legal name inum)

/-- **Every legal call** keeps the file system in order, or stops without the
panic of `bfree`. -/
theorem exec_spec (ok : k.Ok) (legal : c.Legal k) :
    wp c.exec (fun _ k' => Sound k k') Harmless k := by
  by_cases put : ∃ p, c = .iput p
  · obtain ⟨p, rfl⟩ := put
    exact (wp_bind _ _ _ _ _).mpr (iput_spec ok legal)
  · exact wp_post (exec_grows ok legal (not_exists.mp put)) fun _ _ grown => grown.toSound

theorem fsStep_sound (ok : k.Ok) {e : FsEvent} (step : fsStep k e = some k') : Sound k k' := by
  obtain ⟨legal, done⟩ := fsStep_iff.mp step
  exact wp_ok (m := e.1.exec) (s := k) (exec_spec ok legal) done

/-- What holds after any number of steps. -/
theorem fsRun_sound (ok : k.Ok) {es : List FsEvent} (done : run fsStep k es = some k') :
    Sound k k' :=
  run_invariant fsStep (I := Sound k) (fun _ _ _ before step => before.trans
    (fsStep_sound before.ok step)) (Sound.refl ok) done

end

end BasicOS
