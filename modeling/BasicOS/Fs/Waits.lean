/-
# BasicOS.Fs.Waits — how the functions of fs.c stop

Only `begin_op`, `ilock` and `iput` wait for something, and only `begin_op` and
`end_op` change the number of operations in the log.  All other functions are
`Calm`: they return, or end in one of the panics listed for them, or in a panic
of the log or the block allocator (`Spent`).
-/
import BasicOS.Fs.Dir

namespace BasicOS

open Lib Function
open Lib.Prog

set_option autoImplicit false

/-- The panics of `log_write` and `balloc`, with `outstanding` operations in the
log: no room in the log, no free block, or no transaction. -/
def Spent (outstanding : Nat) (e : Stop) : Prop :=
  e = .panic "too big a transaction" ∨ e = .panic "balloc: out of blocks" ∨
    outstanding = 0 ∧ e = .panic "log_write outside of trans"

/-- The same operations are in the log, and if there are none, the same blocks. -/
def SameOps (k k' : Kernel) : Prop :=
  k'.log.outstanding = k.log.outstanding ∧ (k.log.outstanding = 0 → k'.log.lh = k.log.lh)

theorem SameOps.of_log {k k' : Kernel} (same : k'.log = k.log) : SameOps k k' := by
  unfold SameOps
  rw [same]
  exact ⟨rfl, fun _ => rfl⟩

theorem SameOps.trans {k k' k'' : Kernel} (first : SameOps k k') (second : SameOps k' k'') :
    SameOps k k'' := by
  refine ⟨second.1.trans first.1, fun none_there => ?_⟩
  exact (second.2 (first.1.trans none_there)).trans (first.2 none_there)

/-- Never waits, leaves the operations in the log alone, and has only these panics. -/
def Calm {α : Type} (panics : List Panic) (m : Fs α) : Prop :=
  ∀ k, wp m (fun _ k' => SameOps k k')
    (fun e => Spent k.log.outstanding e ∨ ∃ message ∈ panics, e = .panic message) k

section

variable {α β : Type} {panics : List Panic}

theorem Calm.spent {m : Fs α} (calm : Calm [] m) (k : Kernel) :
    wp m (fun _ k' => k'.log.outstanding = k.log.outstanding) (Spent k.log.outstanding) k := by
  refine wp_mono (calm k) (fun _ _ same => same.1) fun e stop => ?_
  rcases stop with spent | ⟨_, none_listed, -⟩
  · exact spent
  · cases none_listed

/-- Nothing is logged outside of a transaction. -/
theorem Calm.idle {m : Fs α} (calm : Calm panics m) {k : Kernel}
    (none_there : k.log.outstanding = 0) :
    wp m (fun _ k' => k'.log.lh = k.log.lh) (fun _ => True) k :=
  wp_mono (calm k) (fun _ _ same => same.2 none_there) fun _ _ => trivial

theorem calm_pure (a : α) : Calm panics (pure a : Fs α) :=
  fun _ => SameOps.of_log rfl

theorem calm_panic {message : Panic} (listed : message ∈ panics) :
    Calm panics (throw (.panic message) : Fs α) :=
  fun _ => .inr ⟨message, listed, rfl⟩

theorem calm_modify {f : Kernel → Kernel} (same : ∀ k, (f k).log = k.log) :
    Calm panics (modify f : Fs Unit) :=
  fun k => SameOps.of_log (same k)

theorem calm_bind {m : Fs α} {f : α → Fs β} (first : Calm panics m)
    (second : ∀ a, Calm panics (f a)) : Calm panics (m >>= f) := by
  intro k
  refine wp_seq (first k) fun a k' same => ?_
  have later := second a k'
  rw [same.1] at later
  exact wp_post later fun _ _ same' => same.trans same'

/-- A function that goes by the state it finds. -/
theorem calm_get {f : Kernel → Fs α} (body : ∀ k,
    wp (f k) (fun _ k' => SameOps k k')
      (fun e => Spent k.log.outstanding e ∨ ∃ message ∈ panics, e = .panic message) k) :
    Calm panics (get >>= f) := by
  intro k
  rw [wp_bind, wp_get]
  exact body k

theorem calm_ite {c : Prop} [Decidable c] {m n : Fs α} (pos : Calm panics m)
    (neg : Calm panics n) : Calm panics (if c then m else n) := by
  split
  · exact pos
  · exact neg

end

section

variable {panics : List Panic}

/-! ## Blocks -/

theorem logWrite_calm (b : Nat) (data : Block) : Calm panics (logWrite b data) := by
  refine calm_get fun k => ?_
  unfold Log.logWriteCheck
  by_cases full : k.log.lh.length ≥ logsize ∨ k.log.lh.length ≥ k.log.size - 1
  · rw [if_pos full]
    exact .inl (.inl rfl)
  · rw [if_neg full]
    by_cases outside : k.log.outstanding < 1
    · rw [if_pos outside]
      exact .inl (.inr (.inr ⟨by omega, rfl⟩))
    · rw [if_neg outside]
      exact ⟨rfl, fun none_there => absurd none_there (by omega)⟩

theorem balloc_calm : Calm panics balloc := by
  refine calm_get fun k => ?_
  cases firstFree k.sb k.store with
  | none => exact .inl (.inr (.inl rfl))
  | some b =>
    exact calm_bind (logWrite_calm _ _) (fun _ => calm_bind (logWrite_calm _ _) fun _ =>
      calm_pure b) k

theorem bfree_calm (listed : "freeing free block" ∈ panics) (b : Nat) :
    Calm panics (bfree b) := by
  refine calm_bind (calm_modify fun _ => rfl) fun _ => calm_get fun k => ?_
  exact calm_ite (logWrite_calm _ _) (calm_panic listed) k

/-! ## Inodes -/

theorem iupdate_calm (p : IPtr) : Calm panics (iupdate p) :=
  calm_get fun k => logWrite_calm _ _ k

theorem iunlock_calm (listed : "iunlock" ∈ panics) (p : IPtr) : Calm panics (iunlock p) :=
  calm_get fun k => wp_ite (fun _ => calm_panic listed k) fun _ => SameOps.of_log rfl

/-! ## Chains of blocks -/

theorem allocWord_calm (b o : Nat) : Calm panics (allocWord b o) :=
  calm_bind balloc_calm fun new =>
    calm_bind (calm_get fun k => logWrite_calm _ _ k) fun _ => calm_pure new

theorem clearNext_calm (b : Nat) : Calm panics (clearNext b) :=
  calm_modify fun _ => rfl

theorem bmapHead_calm (p : IPtr) : Calm panics (bmapHead p) := by
  refine calm_get fun k => calm_ite ?_ (calm_pure _) k
  exact calm_bind balloc_calm fun addr => calm_bind (calm_modify fun _ => rfl) fun _ =>
    calm_bind (clearNext_calm addr) fun _ => calm_pure addr

theorem bmapWalk_calm (i addr : Nat) : Calm panics (bmapWalk i addr) := by
  induction i generalizing addr with
  | zero => exact calm_pure addr
  | succ i ih =>
    refine calm_get fun k => calm_ite ?_ (ih _) k
    exact calm_bind (allocWord_calm _ _) fun new => calm_bind (clearNext_calm new) fun _ => ih new

theorem bmap_calm (p : IPtr) (bn : Nat) : Calm panics (bmap p bn) :=
  calm_bind (bmapHead_calm p) fun _ => calm_bind (bmapWalk_calm _ _) fun _ =>
    calm_get fun k => calm_ite (allocWord_calm _ _) (calm_pure _) k

section Free

variable (listed : "freeing free block" ∈ panics)

include listed

theorem freeAddrs_calm (p : IPtr) (is : List (Fin (ndirect + 1))) :
    Calm panics (freeAddrs p is) := by
  induction is with
  | nil => exact calm_pure ()
  | cons i is ih =>
    refine calm_bind (calm_get fun k => calm_ite (calm_pure ()) ?_ k) fun _ => ih
    exact calm_bind (bfree_calm listed _) fun _ => calm_modify fun _ => rfl

theorem freeWords_calm (data : Block) (js : List Nat) : Calm panics (freeWords data js) := by
  induction js with
  | nil => exact calm_pure ()
  | cons j js ih => exact calm_ite ih (calm_bind (bfree_calm listed _) fun _ => ih)

theorem itrunc_calm (p : IPtr) : Calm panics (itrunc p) := by
  have indirect : Calm panics (freeIndirect p) := by
    refine calm_get fun k => calm_ite (calm_pure ()) ?_ k
    exact calm_bind (freeWords_calm listed _ _) fun _ => calm_bind (bfree_calm listed _) fun _ =>
      calm_modify fun _ => rfl
  exact calm_bind (freeAddrs_calm listed p _) fun _ => calm_bind indirect fun _ =>
    calm_bind (calm_modify fun _ => rfl) fun _ => iupdate_calm p

theorem ifree_calm (p : IPtr) : Calm panics (ifree p) :=
  calm_bind (itrunc_calm listed p) fun _ => calm_bind (calm_modify fun _ => rfl) fun _ =>
    calm_bind (iupdate_calm p) fun _ => calm_modify fun _ => rfl

end Free

/-! ## Reading and writing -/

theorem readLoop_calm (p : IPtr) (off n : Nat) : Calm panics (readLoop p off n) := by
  induction n using Nat.strong_induction_on generalizing off with
  | _ n ih =>
  unfold readLoop
  split
  · exact calm_pure []
  · next some_left =>
      have short := Nat.mod_lt off (by decide : 0 < bsize)
      exact calm_bind (bmap_calm p _) fun b => calm_get fun k =>
        calm_bind (ih _ (by omega) _) (fun _ => calm_pure _) k

theorem readi_calm (p : IPtr) (off n : UInt32) : Calm panics (readi p off n) :=
  calm_get fun k => calm_ite (calm_pure _) (calm_ite (calm_pure _)
    (calm_bind (readLoop_calm p _ _) fun _ => calm_pure _)) k

theorem writeLoop_calm (p : IPtr) (src : Bytes) (off n : Nat) :
    Calm panics (writeLoop p src off n) := by
  induction n using Nat.strong_induction_on generalizing off src with
  | _ n ih =>
  unfold writeLoop
  split
  · exact calm_pure ()
  · next some_left =>
      have short := Nat.mod_lt off (by decide : 0 < bsize)
      exact calm_bind (bmap_calm p _) fun b => calm_get fun k =>
        calm_bind (logWrite_calm _ _) (fun _ => ih _ (by omega) _ _) k

theorem writei_calm (p : IPtr) (src : Bytes) (off n : UInt32) :
    Calm panics (writei p src off n) := by
  have resized : ∀ size, Calm panics (setSize p size) := by
    intro size
    refine calm_get fun k => calm_ite ?_ (calm_pure ()) k
    exact calm_bind (calm_modify fun _ => rfl) fun _ => iupdate_calm p
  exact calm_get fun k => calm_ite (calm_pure _) (calm_ite (calm_pure _) (calm_ite (calm_pure _)
    (calm_ite (calm_pure _) (calm_bind (writeLoop_calm p src _ _) fun _ =>
      calm_bind (resized _) fun _ => calm_pure _)))) k

end

end BasicOS
