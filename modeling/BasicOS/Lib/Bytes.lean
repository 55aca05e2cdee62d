/-
# BasicOS.Lib.Bytes — little-endian fields in byte memory

A `Bytes` is a byte-addressed memory read from offset zero.  `copy` is the one
way it is written: a run of bytes from a source lands at an offset and nothing
else moves.  Sixteen- and thirty-two-bit fields are read little-endian, and
every lemma about reading a field back after a write is an instance of three
facts about `copy`: a read inside the run sees the source, a read outside it
sees the old memory, and the bytes of a field decode to that field.
-/
import Mathlib.Algebra.GroupWithZero.Nat
import Mathlib.Logic.Function.Basic
import Mathlib.Tactic.Common

namespace BasicOS.Lib

set_option autoImplicit false

/-- A byte memory, addressed from zero. -/
abbrev Bytes := Nat → UInt8

namespace Bytes

/-- The first `n` bytes of `src`, stored at offset `o`. -/
def copy (dst : Bytes) (o : Nat) (src : Bytes) (n : Nat) : Bytes :=
  fun j => if o ≤ j ∧ j < o + n then src (j - o) else dst j

/-- The `n` bytes at offset `o`. -/
def slice (m : Bytes) (o n : Nat) : List UInt8 :=
  (List.range n).map fun i => m (o + i)

/-- A list of bytes as a memory, zero after its end. -/
def ofList (l : List UInt8) : Bytes :=
  fun i => l.getD i 0

/-- The memory seen from offset `o`. -/
def drop (m : Bytes) (o : Nat) : Bytes :=
  fun i => m (o + i)

def get16 (m : Bytes) (o : Nat) : UInt16 :=
  UInt16.ofNat ((m o).toNat + 256 * (m (o + 1)).toNat)

def get32 (m : Bytes) (o : Nat) : UInt32 :=
  UInt32.ofNat ((m o).toNat + 256 * (m (o + 1)).toNat + 65536 * (m (o + 2)).toNat +
    16777216 * (m (o + 3)).toNat)

/-- The bytes of a field, least significant first. -/
def le16 (v : UInt16) : Bytes :=
  fun k => UInt8.ofNat (v.toNat / 256 ^ k)

def le32 (v : UInt32) : Bytes :=
  fun k => UInt8.ofNat (v.toNat / 256 ^ k)

def put32 (m : Bytes) (o : Nat) (v : UInt32) : Bytes :=
  m.copy o (le32 v) 4

/-! ## Reading after a copy -/

theorem copy_inside {dst src : Bytes} {o n j : Nat} (low : o ≤ j) (high : j < o + n) :
    dst.copy o src n j = src (j - o) :=
  if_pos ⟨low, high⟩

theorem copy_outside {dst src : Bytes} {o n j : Nat} (out : j < o ∨ o + n ≤ j) :
    dst.copy o src n j = dst j :=
  if_neg (by omega)

@[simp] theorem copy_zero (dst src : Bytes) (o : Nat) : dst.copy o src 0 = dst := by
  funext j
  exact copy_outside (by omega)

/-- A field that lies inside the copied run is read from the source. -/
theorem get32_copy_inside {dst src : Bytes} {o n k : Nat} (low : o ≤ k) (high : k + 4 ≤ o + n) :
    (dst.copy o src n).get32 k = src.get32 (k - o) := by
  unfold get32
  rw [copy_inside (by omega) (by omega), copy_inside (by omega) (by omega),
    copy_inside (by omega) (by omega), copy_inside (by omega) (by omega),
    Nat.sub_add_comm low, Nat.sub_add_comm low, Nat.sub_add_comm low]

/-- A field that lies outside the copied run is the old one. -/
theorem get32_copy_outside {dst src : Bytes} {o n k : Nat} (out : k + 4 ≤ o ∨ o + n ≤ k) :
    (dst.copy o src n).get32 k = dst.get32 k := by
  unfold get32
  rw [copy_outside (by omega), copy_outside (by omega), copy_outside (by omega),
    copy_outside (by omega)]

/-! ## A field's bytes decode to the field -/

@[simp] theorem get32_le32 (v : UInt32) : (le32 v).get32 0 = v := by
  apply UInt32.toNat_inj.mp
  have bound := v.toNat_lt
  simp only [get32, le32, UInt32.toNat_ofNat', UInt8.toNat_ofNat']
  omega

@[simp] theorem get16_le16 (v : UInt16) : (le16 v).get16 0 = v := by
  apply UInt16.toNat_inj.mp
  have bound := v.toNat_lt
  simp only [get16, le16, UInt16.toNat_ofNat', UInt8.toNat_ofNat']
  omega

@[simp] theorem get32_put32 (m : Bytes) (o : Nat) (v : UInt32) : (m.put32 o v).get32 o = v := by
  rw [put32, get32_copy_inside (Nat.le_refl o) (Nat.le_refl _), Nat.sub_self, get32_le32]

/-- A field depends on its own bytes only. -/
theorem get32_congr {m m' : Bytes} {o o' : Nat} (same : ∀ c < 4, m (o + c) = m' (o' + c)) :
    m.get32 o = m'.get32 o' := by
  unfold get32
  rw [same 1 (by decide), same 2 (by decide), same 3 (by decide)]
  rw [show m o = m' o' from same 0 (by decide)]

theorem get16_congr {m m' : Bytes} {o o' : Nat} (same : ∀ c < 2, m (o + c) = m' (o' + c)) :
    m.get16 o = m'.get16 o' := by
  unfold get16
  rw [same 1 (by decide)]
  rw [show m o = m' o' from same 0 (by decide)]

/-- A run of a field's bytes is the field. -/
theorem get32_of_bytes {m : Bytes} {o : Nat} {v : UInt32} (same : ∀ c < 4, m (o + c) = le32 v c) :
    m.get32 o = v := by
  have bytes : m.get32 o = (le32 v).get32 0 := get32_congr (by simpa using same)
  rw [bytes, get32_le32]

theorem get16_of_bytes {m : Bytes} {o : Nat} {v : UInt16} (same : ∀ c < 2, m (o + c) = le16 v c) :
    m.get16 o = v := by
  have bytes : m.get16 o = (le16 v).get16 0 := get16_congr (by simpa using same)
  rw [bytes, get16_le16]

theorem get32_put32_ne {m : Bytes} {o k : Nat} {v : UInt32} (out : k + 4 ≤ o ∨ o + 4 ≤ k) :
    (m.put32 o v).get32 k = m.get32 k :=
  get32_copy_outside out

@[simp] theorem get32_zero (o : Nat) : get32 (fun _ => 0) o = 0 := rfl

/-- Storing zero in zeroed memory does nothing. -/
@[simp] theorem put32_zero (o : Nat) : put32 (fun _ => 0) o 0 = fun _ => 0 := by
  funext j
  unfold put32 copy le32
  split <;> simp

/-! ## Slices -/

@[simp] theorem length_slice (m : Bytes) (o n : Nat) : (m.slice o n).length = n := by
  simp [slice]

theorem getElem_slice {m : Bytes} {o n i : Nat} (bound : i < (m.slice o n).length) :
    (m.slice o n)[i] = m (o + i) := by
  simp [slice]

theorem slice_append (m : Bytes) (o n k : Nat) :
    m.slice o n ++ m.slice (o + n) k = m.slice o (n + k) := by
  simp only [slice, List.range_add, List.map_append, List.map_map]
  congr 1
  apply List.map_congr_left
  intro i _
  simp [Nat.add_assoc]

/-- Two memories that agree on a run have the same slice there. -/
theorem slice_congr {m m' : Bytes} {o o' n : Nat} (same : ∀ i < n, m (o + i) = m' (o' + i)) :
    m.slice o n = m'.slice o' n := by
  apply List.map_congr_left
  intro i hi
  exact same i (List.mem_range.mp hi)

/-- A copied run is read back. -/
theorem slice_copy (m src : Bytes) (o n : Nat) : (m.copy o src n).slice o n = src.slice 0 n := by
  refine slice_congr fun i hi => ?_
  rw [copy_inside (by omega) (by omega), Nat.add_sub_cancel_left, Nat.zero_add]

/-- A run below a copied one is left alone. -/
theorem slice_copy_below (m src : Bytes) {o o' n n' : Nat} (below : o' + n' ≤ o) :
    (m.copy o src n).slice o' n' = m.slice o' n' :=
  slice_congr fun i hi => copy_outside (by omega)

@[simp] theorem slice_ofList (l : List UInt8) : (ofList l).slice 0 l.length = l := by
  apply List.ext_getElem (by simp)
  intro i _ hi
  simp [slice, ofList, hi]

/-- A part of a run from the start. -/
theorem drop_take_slice (m : Bytes) (o n N : Nat) :
    ((m.slice 0 N).drop o).take n = m.slice o (min n (N - o)) := by
  apply List.ext_getElem (by simp)
  intro i _ hi
  simp [slice]

end Bytes

end BasicOS.Lib
