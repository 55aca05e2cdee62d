/-
# BasicOS.Fs.Cost — how much of the log a call uses

`log_write` panics with `too big a transaction` when the log is full.  `Adds n m k`
says that `m`, run from `k`, adds at most `n` blocks to the log, and that it
panics that way only where there is no room for `n` blocks.  Costs add up along a
program (`adds_bind`); what a piece of `bmap` costs depends on how much of the
chain is there already, so the lemmas about it are for states of the kernel.

A write of a few blocks inside a file or at its end costs seven blocks for each
block of the file and one for the inode (`writei_adds`).
-/
import BasicOS.Fs.File

namespace BasicOS

open Lib Function
open Lib.Prog

set_option autoImplicit false

/-- How many blocks the log can take. -/
def Log.limit (lg : Log) : Nat :=
  min logsize (lg.size - 1)

/-- From `k`, at most `n` blocks more in the log, and no want of room for them. -/
def Adds {α : Type} (n : Nat) (m : Fs α) (k : Kernel) : Prop :=
  wp m (fun _ k' => k'.log.lh.length ≤ k.log.lh.length + n ∧ k'.log.size = k.log.size)
    (fun e => e = .panic "too big a transaction" → k.log.limit < k.log.lh.length + n) k

section

variable {α β : Type} {k k' : Kernel} {n n' : Nat}

theorem Adds.mono {m : Fs α} (adds : Adds n m k) (more : n ≤ n') : Adds n' m k := by
  apply wp_mono adds
  · rintro _ k' ⟨longer, size⟩
    exact ⟨by omega, size⟩
  · intro e full big
    have := full big
    omega

theorem adds_pure (a : α) : Adds n (pure a : Fs α) k :=
  ⟨Nat.le_add_right _ _, rfl⟩

theorem adds_of_run {m : Fs α} {a : α} (run : m k = .ok (a, k')) (same : k'.log = k.log) :
    Adds n m k := by
  apply wp_of_run run
  rw [same]
  exact ⟨Nat.le_add_right _ _, rfl⟩

theorem adds_throw {e : Stop} (other : e ≠ .panic "too big a transaction") :
    Adds n (throw e : Fs α) k :=
  fun big => absurd big other

/-- Costs add up. -/
theorem adds_bind {m : Fs α} {f : α → Fs β} (n n' : Nat) (first : Adds n m k)
    (second : ∀ a k', m k = .ok (a, k') → Adds n' (f a) k') : Adds (n + n') (m >>= f) k := by
  cases done : m k with
  | error e =>
    have stops := wp_error first done
    unfold Adds wp
    rw [run_bind_error done]
    intro big
    have := stops big
    omega
  | ok r =>
    obtain ⟨a, k'⟩ := r
    obtain ⟨longer, size⟩ := wp_ok first done
    unfold Adds wp
    rw [run_bind done]
    apply wp_mono (second a k' done)
    · rintro _ k'' ⟨longer', size'⟩
      exact ⟨by omega, size'.trans size⟩
    · intro e full big
      have := full big
      simp only [Log.limit, size] at this ⊢
      omega

theorem adds_get {f : Kernel → Fs α} (body : Adds n (f k) k) : Adds n (get >>= f) k :=
  body

theorem adds_modify {f : Kernel → Kernel} (same : (f k).log = k.log) :
    Adds n (modify f : Fs Unit) k :=
  adds_of_run rfl same

theorem adds_ite {c : Prop} [Decidable c] {m m' : Fs α} (pos : c → Adds n m k)
    (neg : ¬c → Adds n m' k) : Adds n (if c then m else m') k :=
  wp_ite pos neg

end

/-! ## Blocks -/

section

variable {k : Kernel} {p : IPtr}

theorem logWrite_adds (b : Nat) (data : Block) : Adds 1 (logWrite b data) k := by
  refine adds_get ?_
  unfold Log.logWriteCheck
  by_cases full : k.log.lh.length ≥ logsize ∨ k.log.lh.length ≥ k.log.size - 1
  · rw [if_pos full]
    intro _
    unfold Log.limit
    omega
  · rw [if_neg full]
    by_cases outside : k.log.outstanding < 1
    · rw [if_pos outside]
      exact adds_throw (by decide)
    · rw [if_neg outside]
      refine ⟨?_, rfl⟩
      show (Log.absorb k.log.lh b).length ≤ k.log.lh.length + 1
      unfold Log.absorb
      split <;> simp

theorem balloc_adds : Adds 2 balloc k := by
  refine adds_get ?_
  cases firstFree k.sb k.store with
  | none => exact adds_throw (by decide)
  | some b =>
    refine adds_bind 1 1 (logWrite_adds _ _) fun _ k₁ _ => ?_
    exact adds_bind 1 0 (logWrite_adds _ _) fun _ _ _ => adds_pure b

theorem iupdate_adds (p : IPtr) : Adds 1 (iupdate p) k :=
  adds_get (logWrite_adds _ _)

/-! ## The chain of an inode -/

theorem allocWord_adds (b o : Nat) : Adds 3 (allocWord b o) k := by
  refine adds_bind 2 1 balloc_adds fun new k₁ _ => ?_
  exact adds_bind 1 0 (adds_get (logWrite_adds _ _)) fun _ _ _ => adds_pure new

theorem clearNext_adds (b : Nat) : Adds 0 (clearNext b) k :=
  adds_modify rfl

theorem bmapHead_adds (p : IPtr) : Adds 2 (bmapHead p) k := by
  refine adds_get (adds_ite (fun _ => ?_) fun _ => adds_pure _)
  refine adds_bind 2 0 balloc_adds fun addr k₁ _ => ?_
  refine adds_bind 0 0 (adds_modify rfl) fun _ k₂ _ => ?_
  exact adds_bind 0 0 (clearNext_adds addr) fun _ _ _ => adds_pure addr

theorem bmapItem_adds (addr bn : Nat) : Adds 3 (bmapItem addr bn) k :=
  adds_get (adds_ite (fun _ => allocWord_adds _ _) fun _ => adds_pure _)

/-- At most the last index block on the way is missing. -/
theorem bmapWalk_adds {j m : Nat} (index : k.blk p (k.icache p).inum (.index j) ≠ 0)
    (near : m = 0 ∨ k.blk p (k.icache p).inum (.index (j + m - 1)) ≠ 0) :
    Adds 3 (bmapWalk m (k.blk p (k.icache p).inum (.index j))) k := by
  induction m generalizing j with
  | zero => exact adds_pure _
  | succ m ih =>
    have before := near.resolve_left (Nat.succ_ne_zero m)
    have next := next_word index
    unfold bmapWalk
    refine adds_get (adds_ite (fun missing => ?_) fun there => ?_)
    · have empty : k.blk p (k.icache p).inum (.index (j + 1)) = 0 := by
        rw [← next, missing]
        rfl
      -- nothing is missing before the last one
      have last : m = 0 := by
        by_contra more
        exact Chain.idx_ne_zero_of_le (by omega : j + 1 ≤ j + (m + 1) - 1) before empty
      subst last
      refine adds_bind 3 0 (allocWord_adds _ _) fun new k₁ _ => ?_
      exact adds_bind 0 0 (clearNext_adds new) fun _ _ _ => adds_pure new
    · rw [next]
      have shift : j + 1 + m - 1 = j + (m + 1) - 1 := by omega
      refine ih (fun empty => there ?_) (.inr (by rwa [shift]))
      rw [empty] at next
      exact UInt32.toNat_inj.mp next

/-- `bmap` on a block next to what is there. -/
theorem bmap_adds {n : Nat} (work : k.Working p)
    (near : n / perIndex = 0 ∨ k.blk p (k.icache p).inum (.index (n / perIndex - 1)) ≠ 0) :
    Adds 6 (bmap p n) k := by
  unfold bmap
  rw [chainSplit_eq, Nat.zero_add]
  by_cases head : k.blk p (k.icache p).inum (.index 0) = 0
  · -- without a first index block there is none
    have first : n / perIndex = 0 := by
      refine near.resolve_right fun there => ?_
      exact Chain.idx_ne_zero_of_le (Nat.zero_le _) there head
    rw [first]
    refine adds_bind 2 4 (bmapHead_adds p) fun addr k₁ _ => ?_
    exact adds_bind 0 4 (adds_pure addr) fun _ k₂ _ => (bmapItem_adds _ _).mono (by decide)
  · refine adds_bind 0 6 (adds_of_run (bmapHead_there work.area head) rfl) fun addr k₁ found => ?_
    rw [bmapHead_there work.area head] at found
    cases found
    refine adds_bind 3 3 (bmapWalk_adds head ?_) fun last k₂ _ => bmapItem_adds _ _
    rwa [Nat.zero_add]

end

/-! ## Writing -/

section

variable {k : Kernel} {p : IPtr}

/-- How many blocks of a file `n` bytes at `off` touch. -/
def blocksOf (off n : Nat) : Nat :=
  if n = 0 then 0 else (off % bsize + n - 1) / bsize + 1

/-- The first piece is in one block. -/
theorem blocksOf_piece {off n m : Nat} (some_left : n ≠ 0)
    (len : min n (bsize - off % bsize) = m) : blocksOf off n = blocksOf (off + m) (n - m) + 1 := by
  unfold blocksOf
  rw [if_neg some_left]
  simp only [bsize] at *
  split <;> omega

/-- A block is next to what is there, if what comes before it is. -/
theorem near_of_before {bn : Nat}
    (before : ∀ m < bn, k.blk p (k.icache p).inum (.item m) ≠ 0) :
    bn / perIndex = 0 ∨ k.blk p (k.icache p).inum (.index (bn / perIndex - 1)) ≠ 0 := by
  by_cases first : bn / perIndex = 0
  · exact .inl first
  · right
    have some_before : bn - 1 < bn := by
      refine Nat.sub_one_lt fun zero => first ?_
      rw [zero, Nat.zero_div]
    have index := Kernel.blk_index (q := .item (bn - 1)) rfl (before _ some_before)
    refine Chain.idx_ne_zero_of_le ?_ index
    simp only [perIndex, nindirect, bsize] at *
    omega

theorem writeLoop_adds (work : k.Working p) (src : Bytes) (off n : Nat)
    (before : ∀ m < off / bsize, k.blk p (k.icache p).inum (.item m) ≠ 0) :
    Adds (7 * blocksOf off n) (writeLoop p src off n) k := by
  induction n using Nat.strong_induction_on generalizing off k src with
  | _ n ih =>
  unfold writeLoop
  split
  · exact adds_pure ()
  · next some_left =>
      have short := Nat.mod_lt off bsize_pos
      generalize len : min n (bsize - off % bsize) = m
      have count : 7 * blocksOf off n = 6 + (1 + 7 * blocksOf (off + m) (n - m)) := by
        rw [blocksOf_piece some_left len]
        omega
      rw [count]
      refine adds_bind 6 _ (bmap_adds work (near_of_before before)) fun b k₁ found => ?_
      have reaches := wp_ok (bmap_spec work (off / bsize)) found
      have inum := reaches.ext.inum
      have here : k₁.blk p (k₁.icache p).inum (.item (off / bsize)) = b := by
        rw [inum]
        exact reaches.here
      refine adds_get (adds_bind 1 _ (logWrite_adds _ _) fun _ k₂ written => ?_)
      obtain ⟨room, rfl⟩ := wp_ok (logWrite_wp (Q := fun _ k' =>
        (k₁.log.Room) ∧ k' = k₁.put b _)
        fun room _ => ⟨room, rfl⟩) written
      have item := put_item ((k₁.store b).copy (off % bsize) src m) reaches.working
        (by rw [here]; exact reaches.nonzero) room
      rw [here] at item
      refine ih (n - m) (by omega) item.working (src.drop m) (off + m) fun q early => ?_
      rw [item.ext.inum, item.blk, inum]
      by_cases old : q < off / bsize
      · rw [reaches.ext.keeps _ _ (before q old)]
        exact before q old
      · have same : q = off / bsize := by
          simp only [bsize] at *
          omega
        rw [same, reaches.here]
        exact reaches.nonzero

/-- What a write costs that starts inside the file or at its end. -/
theorem writei_adds (ok : k.Ok) (held : (k.icache p).locked = true) (src : Bytes) (off n : UInt32)
    (before : ∀ m < off.toNat / bsize, k.block (k.icache p).inum (.item m) ≠ 0) :
    Adds (7 * blocksOf off.toNat n.toNat + 1) (writei p src off n) k := by
  rw [← ok.blk held] at before
  have loop := writeLoop_adds (ok.working held) src off.toNat n.toNat before
  refine adds_get (adds_ite (fun _ => adds_pure _) fun _ => adds_ite (fun _ => adds_pure _) fun _ =>
    adds_ite (fun _ => adds_pure _) fun _ => adds_ite (fun _ => adds_pure _) fun _ => ?_)
  refine adds_bind _ 1 loop fun _ k₁ _ => ?_
  refine adds_bind 1 0 ?_ fun _ _ _ => adds_pure _
  refine adds_get (adds_ite (fun _ => ?_) fun _ => adds_pure _)
  exact adds_bind 0 1 (adds_modify rfl) fun _ _ _ => iupdate_adds p

end

end BasicOS
