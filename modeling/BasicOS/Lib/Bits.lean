/-
# BasicOS.Lib.Bits — a byte memory as an array of bits

Bit `i` is bit `i % 8` of byte `i / 8`, tested and changed with a one-bit mask.
-/
import BasicOS.Lib.Bytes
import Mathlib.Data.Nat.Bitwise
import Mathlib.Tactic.IntervalCases

namespace BasicOS.Lib.Bytes

open Function

set_option autoImplicit false

def mask (i : Nat) : UInt8 :=
  1 <<< UInt8.ofNat (i % 8)

def testBit (m : Bytes) (i : Nat) : Bool :=
  m (i / 8) &&& mask i != 0

def setBit (m : Bytes) (i : Nat) : Bytes :=
  update m (i / 8) (m (i / 8) ||| mask i)

def clearBit (m : Bytes) (i : Nat) : Bytes :=
  update m (i / 8) (m (i / 8) &&& ~~~mask i)

theorem mask_toNat (i : Nat) : (mask i).toNat = 2 ^ (i % 8) := by
  have small : i % 8 < 8 := Nat.mod_lt i (by decide)
  generalize h : i % 8 = r at small
  unfold mask
  rw [h]
  interval_cases r <;> rfl

theorem testBit_eq (m : Bytes) (i : Nat) : m.testBit i = (m (i / 8)).toNat.testBit (i % 8) := by
  have masked : (m (i / 8) &&& mask i).toNat =
      ((m (i / 8)).toNat.testBit (i % 8)).toNat * 2 ^ (i % 8) := by
    rw [UInt8.toNat_and, mask_toNat, Nat.and_two_pow]
  unfold testBit
  rw [bne, Bool.eq_iff_iff]
  simp only [Bool.not_eq_true', beq_eq_false_iff_ne, ne_eq, ← UInt8.toNat_inj, masked]
  cases (m (i / 8)).toNat.testBit (i % 8) <;> simp

theorem same_bit {i j : Nat} (byte : i / 8 = j / 8) (bit : i % 8 = j % 8) : i = j := by
  omega

@[simp] theorem testBit_setBit (m : Bytes) (i j : Nat) :
    (m.setBit i).testBit j = (decide (j = i) || m.testBit j) := by
  by_cases byte : j / 8 = i / 8
  · rw [testBit_eq, testBit_eq, setBit, byte, update_self, UInt8.toNat_or, mask_toNat,
      Nat.testBit_or, Nat.testBit_two_pow, Bool.or_comm]
    congr 1
    exact decide_eq_decide.mpr ⟨fun bit => same_bit byte bit.symm, fun eq => by rw [eq]⟩
  · have other : j ≠ i := fun eq => byte (by rw [eq])
    simp [testBit, setBit, byte, other]

@[simp] theorem testBit_clearBit (m : Bytes) (i j : Nat) :
    (m.clearBit i).testBit j = (decide (j ≠ i) && m.testBit j) := by
  by_cases byte : j / 8 = i / 8
  · -- complementing the mask keeps every other bit of the byte
    have flipped : (~~~mask i).toNat.testBit (j % 8) = decide (j ≠ i) := by
      have small : j % 8 < 8 := Nat.mod_lt j (by decide)
      have complement : (~~~mask i).toNat = 2 ^ 8 - ((mask i).toNat + 1) := by
        rw [UInt8.toNat_not]
        have := (mask i).toNat_lt
        simp only [UInt8.size] at *
        omega
      rw [complement, Nat.testBit_two_pow_sub_succ (mask i).toNat_lt, mask_toNat,
        Nat.testBit_two_pow]
      simp only [small, decide_true, Bool.true_and, ne_eq, decide_not]
      congr 1
      exact decide_eq_decide.mpr ⟨fun bit => same_bit byte bit.symm, fun eq => by rw [eq]⟩
    rw [testBit_eq, testBit_eq, clearBit, byte, update_self, UInt8.toNat_and, Nat.testBit_and,
      flipped, Bool.and_comm]
  · have other : j ≠ i := fun eq => byte (by rw [eq])
    simp [testBit, clearBit, byte, other]

/-- Bytes with the same bits are the same. -/
theorem ext_testBit {m m' : Bytes} (bits : ∀ i, m.testBit i = m'.testBit i) : m = m' := by
  funext j
  refine UInt8.toNat_inj.mp (Nat.eq_of_testBit_eq fun i => ?_)
  by_cases low : i < 8
  · have bit := bits (8 * j + i)
    rw [testBit_eq, testBit_eq] at bit
    rwa [show (8 * j + i) / 8 = j by omega, show (8 * j + i) % 8 = i by omega] at bit
  · have beyond : 2 ^ 8 ≤ 2 ^ i := Nat.pow_le_pow_right (by decide) (by omega)
    rw [Nat.testBit_lt_two_pow (Nat.lt_of_lt_of_le (m j).toNat_lt beyond),
      Nat.testBit_lt_two_pow (Nat.lt_of_lt_of_le (m' j).toNat_lt beyond)]

theorem clearBit_setBit {m : Bytes} {i : Nat} (clear : m.testBit i = false) :
    (m.setBit i).clearBit i = m := by
  refine ext_testBit fun j => ?_
  rw [testBit_clearBit, testBit_setBit]
  by_cases same : j = i
  · simp [same, clear]
  · simp [same]

end BasicOS.Lib.Bytes
