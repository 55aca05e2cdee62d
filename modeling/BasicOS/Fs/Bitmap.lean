/-
# BasicOS.Fs.Bitmap — balloc and bfree over many bitmap blocks

`balloc` runs over the bitmap with variables of type int.  `ballocLoop` is that
loop with its conversions; `ballocLoop_eq` says that it finds the first free block
as long as the file system has no more than `2 ^ 31` blocks, and `ballocLoop_wraps`
that it misses one beyond.

Nothing keeps `balloc` from handing out a block of the bitmap itself if the bitmap
says that it is free.  `Sane` excludes that, and `bitmap_exact` is what holds then.
-/
import Mathlib.Data.List.Find
import BasicOS.Fs.Calls

namespace BasicOS

open Lib Function

set_option autoImplicit false

/-! ## The loop with its ints -/

/-- The value that an int has after an operation with result `x`. -/
def int32 (x : Int) : Int :=
  (x + 2 ^ 31) % 2 ^ 32 - 2 ^ 31

/-- An int as an unsigned one. -/
def uint32 (x : Int) : Nat :=
  (x % 2 ^ 32).toNat

/-- `BBLOCK(b, sb)` for an int: the division is one of ints. -/
def Superblock.bblockInt (sb : Superblock) (b : Int) : Nat :=
  uint32 (b.tdiv bpb + sb.bmapstart)

/-- The loop over the bits of a block. -/
@[irreducible] def freeBitInt (data : Block) (b : Int) (size : Nat) : Option Nat :=
  (List.range bpb).find? fun bi => decide (uint32 (int32 (b + bi)) < size) && !data.testBit bi

/-- The loop over the blocks of the bitmap, for so many turns. -/
def ballocLoop (sb : Superblock) (store : Nat → Block) : Nat → Int → Option Nat
  | 0, _ => none
  | fuel + 1, b =>
    if uint32 b < sb.size then
      match freeBitInt (store (sb.bblockInt b)) b sb.size with
      | some bi => some (uint32 (int32 (b + bi)))
      | none => ballocLoop sb store fuel (int32 (b + bpb))
    else none

/-- `balloc`, with the loop as it is written. -/
def ballocInt : Fs Nat := do
  let k ← get
  match ballocLoop k.sb k.store (2 ^ 20 + 1) 0 with
  | none => throw (.panic "balloc: out of blocks")
  | some b =>
    logWrite (k.sb.bblock b) ((k.store (k.sb.bblock b)).setBit (b % bpb))
    bzero b
    return b

variable {sb : Superblock} {store : Nat → Block}

theorem uint32_of_lt {n : Nat} (small : n < 2 ^ 32) : uint32 n = n := by
  unfold uint32
  omega

theorem uint32_int32 {n : Nat} (small : n < 2 ^ 32) : uint32 (int32 n) = n := by
  unfold uint32 int32
  omega

theorem int32_of_lt {n : Nat} (small : n < 2 ^ 31) : int32 n = n := by
  unfold int32
  omega

theorem bblockInt_eq {j : Nat} (fits : sb.bmapstart + j < 2 ^ 32) :
    sb.bblockInt (j * bpb : Nat) = sb.bblock (j * bpb) := by
  have quotient : ((j * bpb : Nat) : Int).tdiv bpb = j := by
    rw [← Int.ofNat_tdiv, Nat.mul_div_cancel j (by decide)]
  unfold Superblock.bblockInt Superblock.bblock
  rw [quotient, Nat.mul_div_cancel j (by decide)]
  exact uint32_of_lt (by omega)

theorem freeBitInt_eq {j : Nat} {data : Block} (small : j < 2 ^ 19) :
    freeBitInt data (j * bpb : Nat) sb.size = freeBit data (j * bpb) sb.size := by
  unfold freeBitInt freeBit
  refine List.find?_congr fun bi mem => ?_
  have range := List.mem_range.mp mem
  have same : uint32 (int32 ((j * bpb : Nat) + (bi : Int))) = j * bpb + bi := by
    rw [← Int.natCast_add]
    exact uint32_int32 (by simp only [bpb, bsize] at *; omega)
  rw [same]

theorem ballocLoop_succ (fuel : Nat) (b : Int) : ballocLoop sb store (fuel + 1) b =
    if uint32 b < sb.size then
      match freeBitInt (store (sb.bblockInt b)) b sb.size with
      | some bi => some (uint32 (int32 (b + bi)))
      | none => ballocLoop sb store fuel (int32 (b + bpb))
    else none :=
  rfl

/-- From the `j`th block of the bitmap on. -/
theorem ballocLoop_from {fuel j n : Nat} (blocks : n = (sb.size + bpb - 1) / bpb) (small : sb.size ≤ 2 ^ 31)
    (fits : sb.bmapstart + sb.size / bpb < 2 ^ 32) (range : j ≤ n) (enough : n - j < fuel) :
    ballocLoop sb store fuel (int32 (j * bpb : Nat)) = (List.range' j (n - j)).findSome? fun j =>
      (freeBit (store (sb.bblock (j * bpb))) (j * bpb) sb.size).map (j * bpb + ·) := by
  induction fuel generalizing j with
  | zero =>
    exfalso
    exact Nat.not_lt_zero _ enough
  | succ fuel ih =>
    have bound : n ≤ 2 ^ 19 := by
      simp only [bpb, bsize] at blocks
      omega
    have width : j * bpb < 2 ^ 32 := by
      simp only [bpb, bsize]
      omega
    rw [ballocLoop_succ, uint32_int32 width]
    by_cases more : j < n
    · have inside : j * bpb < sb.size := by
        simp only [bpb, bsize] at blocks ⊢
        omega
      have block : sb.bmapstart + j < 2 ^ 32 := by
        simp only [bpb, bsize] at blocks fits
        omega
      have low : j * bpb < 2 ^ 31 := Nat.lt_of_lt_of_le inside small
      rw [if_pos inside, int32_of_lt low, bblockInt_eq block, freeBitInt_eq (by omega),
        show n - j = n - (j + 1) + 1 by omega, List.range'_succ, List.findSome?_cons]
      cases found : freeBit (store (sb.bblock (j * bpb))) (j * bpb) sb.size with
      | some bi =>
        have range := List.mem_range.mp (List.mem_of_find?_eq_some found)
        have sum : uint32 (int32 ((j * bpb : Nat) + (bi : Int))) = j * bpb + bi := by
          rw [← Int.natCast_add]
          exact uint32_int32 (Nat.lt_of_lt_of_le (Nat.add_lt_add low range) (by decide))
        dsimp only [Option.map_some]
        rw [sum]
      | none =>
        have next : ((j * bpb : Nat) : Int) + (bpb : Nat) = ((j + 1) * bpb : Nat) := by
          rw [← Int.natCast_add, Nat.succ_mul]
        dsimp only [Option.map_none]
        rw [next]
        exact ih (by omega) (by omega)
    · have last : n - j = 0 := by omega
      have outside : ¬ j * bpb < sb.size := by
        simp only [bpb, bsize] at blocks ⊢
        omega
      rw [if_neg outside, last]
      rfl

theorem ballocLoop_eq (small : sb.size ≤ 2 ^ 31) (fits : sb.bmapstart + sb.size / bpb < 2 ^ 32) :
    ballocLoop sb store (2 ^ 20 + 1) 0 = firstFree sb store := by
  have enough : (sb.size + bpb - 1) / bpb - 0 < 2 ^ 20 + 1 := by
    simp only [bpb, bsize]
    omega
  have loop : ballocLoop sb store (2 ^ 20 + 1) (int32 (0 * bpb : Nat)) = _ :=
    ballocLoop_from rfl small fits (Nat.zero_le _) enough
  rw [Nat.zero_mul, Nat.sub_zero, ← List.range_eq_range'] at loop
  exact loop

/-! ## Bitmaps that keep their own blocks -/

/-- The superblock in memory is the one on disk, and neither its block nor a block of
the bitmap is free. -/
structure Sane (k : Kernel) : Prop where
  small : k.sb.size ≤ 2 ^ 31
  fits : k.sb.bmapstart + k.sb.size / bpb < 2 ^ 32
  super : Superblock.decode (k.store 1) = k.sb
  apart : ∀ c < k.sb.size, k.sb.bblock c ≠ 1
  kept : ∀ b < k.sb.size, k.sb.used k.store b = false → b ≠ 1 ∧ ∀ c < k.sb.size, k.sb.bblock c ≠ b

variable {k k' : Kernel}

theorem ballocInt_eq (small : k.sb.size ≤ 2 ^ 31) (fits : k.sb.bmapstart + k.sb.size / bpb < 2 ^ 32) :
    ballocInt k = balloc k := by
  show (match ballocLoop k.sb k.store (2 ^ 20 + 1) 0 with
    | none => throw (.panic "balloc: out of blocks")
    | some b => do
        logWrite (k.sb.bblock b) ((k.store (k.sb.bblock b)).setBit (b % bpb))
        bzero b
        return b : Fs Nat) k = _
  rw [ballocLoop_eq small fits]
  rfl

/-- The state after `balloc` found `b`. -/
def Kernel.take (k : Kernel) (b : Nat) : Kernel :=
  (k.put (k.sb.bblock b) ((k.store (k.sb.bblock b)).setBit (b % bpb))).put b fun _ => 0

theorem Kernel.store_take (k : Kernel) (b : Nat) :
    (k.take b).store = allocated k.sb k.store b := by
  simp [take, allocated]

theorem length_take_le (k : Kernel) (b : Nat) :
    (k.take b).log.lh.length ≤ k.log.lh.length + 2 := by
  have first := Log.length_absorb_le k.log.lh (k.sb.bblock b)
  have second := Log.length_absorb_le (Log.absorb k.log.lh (k.sb.bblock b)) b
  show (Log.absorb (Log.absorb k.log.lh (k.sb.bblock b)) b).length ≤ _
  omega

theorem balloc_run {b : Nat} (found : firstFree k.sb k.store = some b)
    (inside : 1 ≤ k.log.outstanding)
    (room : k.log.lh.length + 1 < logsize ∧ k.log.lh.length + 1 < k.log.size - 1) :
    balloc k = .ok (b, k.take b) := by
  have grows := Log.length_absorb_le k.log.lh (k.sb.bblock b)
  have mark := logWrite_run (k := k) (k.sb.bblock b)
    ((k.store (k.sb.bblock b)).setBit (b % bpb)) (by omega) inside
  have clear := logWrite_run (k := k.put (k.sb.bblock b)
    ((k.store (k.sb.bblock b)).setBit (b % bpb))) b (fun _ => 0)
    (by simp only [Log.Room, Kernel.log_put, Log.logAppend]; omega) inside
  unfold balloc
  rw [Prog.run_get, found]
  exact (Prog.run_bind mark).trans (Prog.run_bind clear)

/-- What a `balloc` that returns has done. -/
theorem balloc_took {b : Nat} (run : balloc k = .ok (b, k')) :
    firstFree k.sb k.store = some b ∧ k' = k.take b := by
  refine Prog.wp_ok (Q := fun b k' => firstFree k.sb k.store = some b ∧ k' = k.take b)
    (E := Harmless) ?_ run
  unfold balloc bzero
  simp only [Prog.wp_bind, Prog.wp_get]
  cases found : firstFree k.sb k.store with
  | none => simp [Harmless]
  | some b =>
    simp only [Prog.wp_bind]
    exact logWrite_wp fun _ _ => logWrite_wp fun _ _ => ⟨rfl, rfl⟩

namespace Sane

variable {b : Nat}

/-- The bits below the size, after a block is taken: its own, and no other. -/
theorem used_take (sane : Sane k) (bound : b < k.sb.size) (free : k.sb.used k.store b = false)
    {c : Nat} (range : c < k.sb.size) :
    k.sb.used (k.take b).store c = (decide (c = b) || k.sb.used k.store c) := by
  rw [← k.sb.used_setBit k.store b c, k.store_take]
  refine k.sb.used_congr _ ?_
  rw [allocated, update_of_ne]
  exact (sane.kept b bound free).2 c range

theorem take (sane : Sane k) (bound : b < k.sb.size) (free : k.sb.used k.store b = false) :
    Sane (k.take b) := by
  obtain ⟨notSuper, -⟩ := sane.kept b bound free
  refine ⟨sane.small, sane.fits, ?_, sane.apart, fun c range spare => ?_⟩
  · rw [k.store_take, allocated_other (sane.apart b bound).symm notSuper.symm]
    exact sane.super
  · have bit := sane.used_take bound free (c := c) range
    rw [show k.sb.used (k.take b).store c = false from spare] at bit
    exact sane.kept c range (Bool.or_eq_false_iff.mp bit.symm).2

end Sane

/-! ## Many calls -/

/-- Calls of `balloc` and their results, with anything in between that clears no bit
of the bitmap. -/
inductive Served : Kernel → List Nat → Kernel → Prop
  | done (k : Kernel) : Served k [] k
  | alloc {k k' k'' : Kernel} {b : Nat} {bs : List Nat} (call : ballocInt k = .ok (b, k'))
      (rest : Served k' bs k'') : Served k (b :: bs) k''
  | other {k k' k'' : Kernel} {bs : List Nat} (sb : k'.sb = k.sb) (sane : Sane k')
      (keeps : ∀ c < k.sb.size, k.sb.used k.store c = true → k.sb.used k'.store c = true)
      (rest : Served k' bs k'') : Served k bs k''

/-- What is handed out was free at the beginning, and is handed out once. -/
theorem Served.fresh {bs : List Nat} (served : Served k bs k') (sane : Sane k) :
    bs.Nodup ∧ ∀ b ∈ bs, b < k.sb.size ∧ k.sb.used k.store b = false := by
  induction served with
  | done k => exact ⟨List.nodup_nil, fun b mem => absurd mem List.not_mem_nil⟩
  | @alloc k k' k'' b bs call rest ih =>
    rw [ballocInt_eq sane.small sane.fits] at call
    obtain ⟨found, rfl⟩ := balloc_took call
    obtain ⟨bound, free, -⟩ := firstFree_spec found
    obtain ⟨distinct, spare⟩ := ih (sane.take bound free)
    -- a later result was free after this call, when the bit of `b` was set
    have later : ∀ c ∈ bs, c < k.sb.size ∧ c ≠ b ∧ k.sb.used k.store c = false := by
      intro c mem
      obtain ⟨range, unset⟩ := spare c mem
      have bit := (sane.used_take bound free range).symm.trans unset
      obtain ⟨other, old⟩ := Bool.or_eq_false_iff.mp bit
      exact ⟨range, of_decide_eq_false other, old⟩
    refine ⟨List.nodup_cons.mpr ⟨fun mem => (later b mem).2.1 rfl, distinct⟩, fun c mem => ?_⟩
    rcases List.mem_cons.mp mem with rfl | mem
    · exact ⟨bound, free⟩
    · exact ⟨(later c mem).1, (later c mem).2.2⟩
  | @other k k' k'' bs sb sane' keeps rest ih =>
    obtain ⟨distinct, spare⟩ := ih sane'
    refine ⟨distinct, fun c mem => ?_⟩
    obtain ⟨range, unset⟩ := spare c mem
    rw [sb] at range unset
    refine ⟨range, ?_⟩
    by_contra set
    rw [keeps c range (by simpa using set)] at unset
    cases unset

/-- **The bitmap is exact**, over as many blocks as it has: `balloc` returns the first
free block, sets its bit and zeroes it; `bfree` clears one bit, and takes a `balloc`
back; and no block is handed out twice. -/
theorem bitmap_exact (sane : Sane k) (inside : 1 ≤ k.log.outstanding)
    (room : k.log.lh.length + 2 < logsize ∧ k.log.lh.length + 2 < k.log.size - 1) :
    ((∃ c < k.sb.size, k.sb.used k.store c = false) →
      ∃ b k', ballocInt k = .ok (b, k') ∧
        (b < k.sb.size ∧ k.sb.used k.store b = false ∧ ∀ c < b, k.sb.used k.store c = true) ∧
        (∀ c < k.sb.size, k.sb.used k'.store c = (decide (c = b) || k.sb.used k.store c)) ∧
        k'.store b = (fun _ => 0) ∧
        k'.store (k.sb.bblock b) = (k.store (k.sb.bblock b)).setBit (b % bpb) ∧
        (∀ x, x ≠ b → x ≠ k.sb.bblock b → k'.store x = k.store x) ∧
        ∃ k'', bfree b k' = .ok ((), k'') ∧ ∀ x, x ≠ b → k''.store x = k.store x) ∧
    (∀ b, k.sb.used k.store b = true → ∃ k', bfree b k = .ok ((), k') ∧
      (∀ c, k.sb.used k'.store c = (decide (c ≠ b) && k.sb.used k.store c)) ∧
      ∀ x, x ≠ k.sb.bblock b → k'.store x = k.store x) ∧
    ∀ bs k', Served k bs k' → bs.Nodup := by
  refine ⟨fun ⟨c, range, spare⟩ => ?_, fun b set => ?_, fun bs k' served => (served.fresh sane).1⟩
  · obtain ⟨b, found⟩ := firstFree_isSome range spare
    obtain ⟨bound, free, least⟩ := firstFree_spec found
    have apart := (sane.kept b bound free).2 b bound
    have used := sane.used_take bound free (c := b) bound
    have grows := length_take_le k b
    have after : k.sb.used (k.take b).store b = true := by
      rw [used, decide_eq_true rfl, Bool.true_or]
    have word : (k.take b).store (k.sb.bblock b) = (k.store (k.sb.bblock b)).setBit (b % bpb) := by
      rw [k.store_take, allocated, update_of_ne apart, update_self]
    have others : ∀ x, x ≠ b → x ≠ k.sb.bblock b → (k.take b).store x = k.store x := by
      intro x block bit
      rw [k.store_take, allocated_other bit block]
    refine ⟨b, k.take b, ?_, ⟨bound, free, least⟩, fun c range => sane.used_take bound free range,
      ?_, word, others, _, bfree_of_super (sane.take bound free).super after (by
        show (k.take b).log.lh.length < logsize ∧ (k.take b).log.lh.length < k.log.size - 1
        omega) inside, fun x block => ?_⟩
    · rw [ballocInt_eq sane.small sane.fits]
      exact balloc_run found inside (by omega)
    · rw [k.store_take, allocated, update_self]
    · rw [Kernel.store_put]
      show update (k.take b).store (k.sb.bblock b)
        (((k.take b).store (k.sb.bblock b)).clearBit (b % bpb)) x = _
      by_cases bit : x = k.sb.bblock b
      · rw [bit, update_self, word, Bytes.clearBit_setBit]
        exact free
      · rw [update_of_ne bit]
        exact others x block bit
  · refine ⟨_, bfree_of_super sane.super set (by omega) inside, fun c => ?_, fun x block => ?_⟩
    · rw [Kernel.store_put]
      exact k.sb.used_clearBit k.store b c
    · rw [Kernel.store_put, update_of_ne block]

/-- A file system of sixteen blocks with its bitmap in block 5, in a transaction. -/
def sixteen (bits : Nat → UInt8) : Kernel where
  dev := ⟨fun x => if x = 1 then fun o => if o = 0 then 16 else if o = 24 then 5 else 0
    else if x = 5 then bits else fun _ => 0, fun _ => none⟩
  log := ⟨0, 30, 1, false, []⟩
  sb := ⟨16, 0, 0, 0, 0, 0, 5⟩
  icache := fun _ => ⟨0, 0, false, false, Dinode.zero⟩

/-- Block 9 is free. -/
theorem bitmap_exact_sixteen :
    ∃ b k', ballocInt (sixteen fun o => if o = 0 then 0xff else 0xfd) = .ok (b, k') ∧ b = 9 := by
  have sane : Sane (sixteen fun o => if o = 0 then 0xff else 0xfd) := by
    refine ⟨by decide, by decide, by decide, by decide, by decide⟩
  obtain ⟨taken, -, -⟩ := bitmap_exact sane (by decide) (by decide)
  obtain ⟨b, k', run, ⟨bound, free, -⟩, -⟩ := taken ⟨9, by decide, by decide⟩
  have only : ∀ b < 16, (sixteen fun o => if o = 0 then 0xff else 0xfd).sb.used
      (sixteen fun o => if o = 0 then 0xff else 0xfd).store b = false → b = 9 := by decide
  exact ⟨b, k', run, only b bound free⟩

/-- A bitmap that says that its own block is free: `balloc` hands it out and zeroes it,
and every bit is clear then. -/
theorem bitmap_handed_out : ∃ k', ballocInt (sixteen fun o => if o = 0 then 0xdf else 0xff) =
    .ok (5, k') ∧ ∀ c < 16, (sixteen fun o => if o = 0 then 0xdf else 0xff).sb.used k'.store c =
      false := by
  have found : ∃ b, firstFree (sixteen fun o => if o = 0 then 0xdf else 0xff).sb
      (sixteen fun o => if o = 0 then 0xdf else 0xff).store = some b :=
    firstFree_isSome (b := 5) (by decide) (by decide)
  obtain ⟨b, found⟩ := found
  obtain ⟨bound, free, -⟩ := firstFree_spec found
  have only : ∀ b < 16, (sixteen fun o => if o = 0 then 0xdf else 0xff).sb.used
      (sixteen fun o => if o = 0 then 0xdf else 0xff).store b = false → b = 5 := by decide
  obtain rfl := only b bound free
  refine ⟨_, (ballocInt_eq (by decide) (by decide)).trans (balloc_run found (by decide) (by decide)),
    ?_⟩
  decide

end BasicOS
