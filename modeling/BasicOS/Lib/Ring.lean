/-
# BasicOS.Lib.Ring — a ring of cells that holds a window of a stream

A ring of `c` cells holds the items of a growing stream from position `r` on,
item `k` in cell `k % c`.  `Window` says so; `Window.push` and `Window.pop` are
its two moves.  Counters of 32 bits may stand for the positions: near each
other they tell positions apart, however often they have wrapped.
-/
import Mathlib.Algebra.GroupWithZero.Nat
import Mathlib.Logic.Function.Basic
import Mathlib.Tactic.Common

namespace BasicOS.Lib

set_option autoImplicit false

section Window

variable {α : Type}

/-- The cells hold the items of `stream` from position `r` on. -/
structure Window (c : Nat) (cells : Nat → α) (stream : List α) (r : Nat) : Prop where
  behind : r ≤ stream.length
  room : stream.length ≤ r + c
  cell : ∀ k (h : k < stream.length), r ≤ k → cells (k % c) = stream[k]

variable {c : Nat} {cells : Nat → α} {stream : List α} {r : Nat}

theorem window_empty (c : Nat) (cells : Nat → α) : Window c cells [] 0 :=
  ⟨Nat.le_refl _, Nat.zero_le _, fun _ h => absurd h (Nat.not_lt_zero _)⟩

/-- Positions less than `c` apart lie in different cells. -/
theorem mod_ne_of_near {k w : Nat} (before : k < w) (near : w < k + c) : k % c ≠ w % c := by
  intro same
  have apart := Nat.sub_mod_eq_zero_of_mod_eq same.symm
  rw [Nat.mod_eq_of_lt (by omega)] at apart
  omega

/-- With a free cell, one more item is stored behind the others. -/
theorem Window.push (held : Window c cells stream r) (free : stream.length < r + c) (x : α) :
    Window c (Function.update cells (stream.length % c) x) (stream ++ [x]) r := by
  refine ⟨?_, ?_, fun k h from_r => ?_⟩
  · have := held.behind
    simp only [List.length_append, List.length_singleton]
    omega
  · simp only [List.length_append, List.length_singleton]
    omega
  · simp only [List.length_append, List.length_singleton] at h
    by_cases last : k = stream.length
    · subst last
      simp
    · have old : k < stream.length := by omega
      rw [Function.update_of_ne (mod_ne_of_near old (by omega)), List.getElem_append_left old]
      exact held.cell k old from_r

/-- The last item is taken back. -/
theorem Window.unpush {x : α} (held : Window c cells (stream ++ [x]) r) (behind : r ≤ stream.length) :
    Window c cells stream r := by
  refine ⟨behind, ?_, fun k h from_r => ?_⟩
  · have room := held.room
    simp only [List.length_append] at room
    omega
  · rw [held.cell k (by simp only [List.length_append]; omega) from_r, List.getElem_append_left h]

/-- The oldest item is found in its cell, and dropping it leaves the others. -/
theorem Window.pop (held : Window c cells stream r) (item : r < stream.length) :
    cells (r % c) = stream[r] ∧ Window c cells stream (r + 1) := by
  have := held.room
  exact ⟨held.cell r item (Nat.le_refl r), item, by omega,
    fun k h from_r => held.cell k h (by omega)⟩

end Window

/-! ## Wrapping counters -/

/-- Counters of positions less than `2 ^ 32` apart are equal only for equal
positions. -/
theorem ofNat_inj_of_near {a b : Nat} (behind : a ≤ b) (near : b < a + 2 ^ 32) :
    UInt32.ofNat a = UInt32.ofNat b ↔ a = b := by
  refine ⟨fun same => ?_, fun same => by rw [same]⟩
  have words : a % 2 ^ 32 = b % 2 ^ 32 := by
    simpa only [UInt32.toNat_ofNat'] using congrArg UInt32.toNat same
  by_contra differ
  exact mod_ne_of_near (by omega) near words

/-- The cell of a position is read off its counter when the ring divides the
counter's range. -/
theorem toNat_ofNat_mod {c : Nat} (divides : c ∣ 2 ^ 32) (k : Nat) :
    (UInt32.ofNat k).toNat % c = k % c := by
  rw [UInt32.toNat_ofNat', Nat.mod_mod_of_dvd k divides]

/-- The difference of two counters is the distance of their positions. -/
theorem toNat_sub_ofNat {a b : Nat} (behind : a ≤ b) (near : b < a + 2 ^ 32) :
    (UInt32.ofNat b - UInt32.ofNat a).toNat = b - a := by
  rw [UInt32.toNat_sub, UInt32.toNat_ofNat', UInt32.toNat_ofNat']
  omega

end BasicOS.Lib
