/-
# BasicOS.Syscall.Args — the arguments of a system call

`fetchint`, `fetchstr`, `argint`, `argptr` and `argstr` of syscall.c, on the
words and bytes the process has in its memory.  All tests are those of the
source in 32-bit arithmetic; `argptr_inside` says what a pointer that passes is
good for.
-/
import BasicOS.Lib.Bytes
import BasicOS.Proc.Table

namespace BasicOS.Usys

open Lib Ptable

set_option autoImplicit false

/-- What a system call sees of the process that makes it: `sz`, the saved `%esp`
and the memory.  No process grows to `KERNBASE` or beyond. -/
structure Caller where
  sz : UInt32
  esp : UInt32
  mem : Bytes
  below : sz ≤ kernbase

namespace Caller

variable (u : Caller)

/-- The int at `addr`. -/
def fetchint (addr : UInt32) : Option UInt32 :=
  if addr ≥ u.sz ∨ addr + 4 > u.sz then none else some (u.mem.get32 addr.toNat)

/-- The string at `addr`: its address and its length. -/
def fetchstr (addr : UInt32) : Option (UInt32 × Nat) :=
  if addr ≥ u.sz then none
  else
    ((List.range (u.sz.toNat - addr.toNat)).find? fun k => u.mem (addr.toNat + k) = 0).map
      fun len => (addr, len)

/-- The `n`th argument. -/
def argint (n : UInt32) : Option UInt32 :=
  u.fetchint (u.esp + 4 + 4 * n)

/-- The `n`th argument, as a pointer to `size` bytes. -/
def argptr (n : UInt32) (size : Int32) : Option UInt32 := do
  let i ← u.argint n
  if size < 0 ∨ i ≥ u.sz ∨ i + size.toUInt32 > u.sz then none else some i

/-- The `n`th argument, as a string. -/
def argstr (n : UInt32) : Option (UInt32 × Nat) := do
  u.fetchstr (← u.argint n)

/-- The `len` bytes at `p` lie below `sz`. -/
def Inside (p : UInt32) (len : Nat) : Prop :=
  p.toNat + len ≤ u.sz.toNat

instance (p : UInt32) (len : Nat) : Decidable (u.Inside p len) :=
  inferInstanceAs (Decidable (_ ≤ _))

variable {u}

theorem sz_le (u : Caller) : u.sz.toNat ≤ 2 ^ 31 :=
  UInt32.le_iff_toNat_le.mp u.below

/-- An int that is not negative is the same number as an unsigned one. -/
theorem toNat_lt_of_nonneg {size : Int32} (nonneg : ¬ size < 0) :
    size.toUInt32.toNat < 2 ^ 31 := by
  have at_least : 0 ≤ size.toInt := by
    simpa [Int32.lt_iff_toInt_lt] using nonneg
  rw [← Int32.toInt_toBitVec, BitVec.toInt_eq_toNat_cond] at at_least
  have same : size.toUInt32.toNat = size.toBitVec.toNat := rfl
  have := size.toBitVec.isLt
  split at at_least <;> omega

/-- A pointer that `argptr` accepts is the argument itself, and its bytes lie
below `sz`: the sum in the test does not wrap. -/
theorem argptr_eq_some {n : UInt32} {size : Int32} {p : UInt32} :
    u.argptr n size = some p ↔
      u.argint n = some p ∧ ¬ size < 0 ∧ p < u.sz ∧ u.Inside p size.toUInt32.toNat := by
  have limit := u.sz_le
  have sum : ¬ size < 0 → p < u.sz →
      (p + size.toUInt32).toNat = p.toNat + size.toUInt32.toNat := by
    intro nonneg low
    have := toNat_lt_of_nonneg nonneg
    have := UInt32.lt_iff_toNat_lt.mp low
    rw [UInt32.toNat_add, Nat.mod_eq_of_lt (by omega)]
  simp only [argptr, Option.bind_eq_bind, Option.bind_eq_some_iff]
  constructor
  · rintro ⟨i, at_i, passed⟩
    split at passed
    · cases passed
    · next checks =>
        obtain rfl := Option.some.inj passed
        simp only [not_or, ge_iff_le, gt_iff_lt, UInt32.not_le, UInt32.not_lt] at checks
        refine ⟨at_i, checks.1, checks.2.1, ?_⟩
        have := UInt32.le_iff_toNat_le.mp checks.2.2
        rwa [sum checks.1 checks.2.1] at this
  · rintro ⟨at_p, nonneg, low, inside⟩
    refine ⟨p, at_p, if_neg ?_⟩
    simp only [not_or, ge_iff_le, gt_iff_lt, UInt32.not_le, UInt32.not_lt]
    refine ⟨nonneg, low, UInt32.le_iff_toNat_le.mpr ?_⟩
    rw [sum nonneg low]
    exact inside

/-- A string that `argstr` accepts starts below `sz`. -/
theorem argstr_eq_some {n : UInt32} {s : UInt32 × Nat} (h : u.argstr n = some s) :
    u.argint n = some s.1 ∧ s.1 < u.sz := by
  simp only [argstr, Option.bind_eq_bind, Option.bind_eq_some_iff] at h
  obtain ⟨addr, at_addr, found⟩ := h
  rw [fetchstr] at found
  split at found
  · cases found
  · next low =>
      obtain ⟨len, -, rfl⟩ := Option.map_eq_some_iff.mp found
      exact ⟨at_addr, by simpa using low⟩

end Caller

end BasicOS.Usys
