/-
# BasicOS.Fs.Disk — the on-disk format of fs.h

The superblock, the inode blocks and the free bitmap, as `mkfs` writes them and
the kernel reads them.  Block numbers and inode numbers are natural numbers;
they are thirty-two bits wide where a block stores them.
-/
import BasicOS.Buf
import BasicOS.Lib.Bits

namespace BasicOS

open Lib Function

set_option autoImplicit false

/-! ## The superblock -/

structure Superblock where
  /-- Size of the file system image in blocks. -/
  size : Nat
  /-- Number of data blocks. -/
  nblocks : Nat
  ninodes : Nat
  nlog : Nat
  logstart : Nat
  inodestart : Nat
  bmapstart : Nat
  deriving DecidableEq, Repr

namespace Superblock

def decode (data : Block) : Superblock where
  size := (data.get32 0).toNat
  nblocks := (data.get32 4).toNat
  ninodes := (data.get32 8).toNat
  nlog := (data.get32 12).toNat
  logstart := (data.get32 16).toNat
  inodestart := (data.get32 20).toNat
  bmapstart := (data.get32 24).toNat

/-- The block that holds inode `i`. -/
def iblock (sb : Superblock) (i : Nat) : Nat :=
  i / ipb + sb.inodestart

/-- The block of the free map that holds the bit for block `b`. -/
def bblock (sb : Superblock) (b : Nat) : Nat :=
  b / bpb + sb.bmapstart

end Superblock

/-! ## Inodes -/

abbrev tDir : Int16 := 1
abbrev tFile : Int16 := 2
abbrev tDev : Int16 := 3

structure Dinode where
  type : Int16
  major : Int16
  minor : Int16
  nlink : Int16
  size : UInt32
  addrs : Fin (ndirect + 1) → UInt32

namespace Dinode

/-- An inode of zero bytes. -/
def zero : Dinode :=
  { type := 0, major := 0, minor := 0, nlink := 0, size := 0, addrs := fun _ => 0 }

/-- The inode at byte offset `o` of a block. -/
def decode (data : Block) (o : Nat) : Dinode where
  type := (data.get16 o).toInt16
  major := (data.get16 (o + 2)).toInt16
  minor := (data.get16 (o + 4)).toInt16
  nlink := (data.get16 (o + 6)).toInt16
  size := data.get32 (o + 8)
  addrs i := data.get32 (o + 12 + 4 * i)

/-- The sixty-four bytes of an inode. -/
def bytes (d : Dinode) : Bytes := fun j =>
  if j < 2 then Bytes.le16 d.type.toUInt16 j
  else if j < 4 then Bytes.le16 d.major.toUInt16 (j - 2)
  else if j < 6 then Bytes.le16 d.minor.toUInt16 (j - 4)
  else if j < 8 then Bytes.le16 d.nlink.toUInt16 (j - 6)
  else if j < 12 then Bytes.le32 d.size (j - 8)
  else Bytes.le32 (d.addrs (Fin.ofNat (ndirect + 1) ((j - 12) / 4))) ((j - 12) % 4)

/-- Store an inode at byte offset `o` of a block: every field is written. -/
def put (d : Dinode) (data : Block) (o : Nat) : Block :=
  data.copy o d.bytes dinodeSize

theorem decode_bytes (d : Dinode) : decode d.bytes 0 = d := by
  have type : Bytes.get16 d.bytes 0 = d.type.toUInt16 :=
    Bytes.get16_of_bytes fun c hc => by simp [bytes, hc]
  have major : Bytes.get16 d.bytes 2 = d.major.toUInt16 :=
    Bytes.get16_of_bytes fun c hc => by
      simp [bytes, show ¬ 2 + c < 2 by omega, show 2 + c < 4 by omega]
  have minor : Bytes.get16 d.bytes 4 = d.minor.toUInt16 :=
    Bytes.get16_of_bytes fun c hc => by
      simp [bytes, show ¬ 4 + c < 2 by omega, show ¬ 4 + c < 4 by omega, show 4 + c < 6 by omega]
  have nlink : Bytes.get16 d.bytes 6 = d.nlink.toUInt16 :=
    Bytes.get16_of_bytes fun c hc => by
      simp [bytes, show ¬ 6 + c < 2 by omega, show ¬ 6 + c < 4 by omega,
        show ¬ 6 + c < 6 by omega, show 6 + c < 8 by omega]
  have size : Bytes.get32 d.bytes 8 = d.size :=
    Bytes.get32_of_bytes fun c hc => by
      simp [bytes, show ¬ 8 + c < 2 by omega, show ¬ 8 + c < 4 by omega,
        show ¬ 8 + c < 6 by omega, show ¬ 8 + c < 8 by omega, show 8 + c < 12 by omega]
  have addrs : ∀ i : Fin (ndirect + 1), Bytes.get32 d.bytes (12 + 4 * i) = d.addrs i := by
    intro i
    refine Bytes.get32_of_bytes fun c hc => ?_
    have quot : (12 + 4 * i.val + c - 12) / 4 = i.val := by omega
    have rem : (12 + 4 * i.val + c - 12) % 4 = c := by omega
    have index : Fin.ofNat (ndirect + 1) i.val = i := Fin.ext (Nat.mod_eq_of_lt i.isLt)
    simp only [bytes, quot, rem, index]
    rw [if_neg (by omega), if_neg (by omega), if_neg (by omega), if_neg (by omega),
      if_neg (by omega)]
  simp only [decode, Nat.zero_add, type, major, minor, nlink, size, addrs,
    Int16.toInt16_toUInt16]

/-- An inode depends on its own bytes only. -/
theorem decode_congr {data data' : Block} {o o' : Nat}
    (same : ∀ j < dinodeSize, data (o + j) = data' (o' + j)) : decode data o = decode data' o' := by
  simp only [dinodeSize, ndirect] at same
  have shift : ∀ k c, k + c < 64 → data (o + k + c) = data' (o' + k + c) := by
    intro k c small
    rw [Nat.add_assoc, Nat.add_assoc]
    exact same (k + c) small
  have first : data.get16 o = data'.get16 o' :=
    Bytes.get16_congr fun c hc => same c (by omega)
  have half : ∀ k, k + 2 ≤ 64 → data.get16 (o + k) = data'.get16 (o' + k) :=
    fun k fits => Bytes.get16_congr fun c hc => shift k c (by omega)
  have word : ∀ k, k + 4 ≤ 64 → data.get32 (o + k) = data'.get32 (o' + k) :=
    fun k fits => Bytes.get32_congr fun c hc => shift k c (by omega)
  have addrs : ∀ i : Fin (ndirect + 1),
      data.get32 (o + 12 + 4 * i) = data'.get32 (o' + 12 + 4 * i) := by
    intro i
    have bound := i.isLt
    simp only [ndirect] at bound
    rw [Nat.add_assoc, Nat.add_assoc]
    exact word (12 + 4 * i) (by omega)
  simp only [decode, first, addrs]
  rw [half 2 (by decide), half 4 (by decide), half 6 (by decide), word 8 (by decide)]

/-- A stored inode is read back. -/
theorem decode_put (d : Dinode) (data : Block) (o : Nat) : decode (d.put data o) o = d := by
  have bytes : decode (d.put data o) o = decode d.bytes 0 := by
    refine decode_congr fun j small => ?_
    rw [put, Bytes.copy_inside (by omega) (by omega), Nat.add_sub_cancel_left, Nat.zero_add]
  rw [bytes, decode_bytes]

/-- The other inodes of the block are left alone. -/
theorem decode_put_ne (d : Dinode) (data : Block) {o o' : Nat}
    (apart : o' + dinodeSize ≤ o ∨ o + dinodeSize ≤ o') :
    decode (d.put data o) o' = decode data o' :=
  decode_congr fun j small => Bytes.copy_outside (by omega)

end Dinode

/-- Where inode `i` starts in its block. -/
def inodeOffset (i : Nat) : Nat :=
  i % ipb * dinodeSize

/-- The inode with number `i`, in blocks `store`. -/
def Superblock.dinode (sb : Superblock) (store : Nat → Block) (i : Nat) : Dinode :=
  Dinode.decode (store (sb.iblock i)) (inodeOffset i)

/-- The bit of the free map for block `b`. -/
def Superblock.used (sb : Superblock) (store : Nat → Block) (b : Nat) : Bool :=
  (store (sb.bblock b)).testBit (b % bpb)

namespace Superblock

variable (sb : Superblock) (store : Nat → Block)

theorem iblock_inj {i j : Nat} (block : sb.iblock i = sb.iblock j)
    (offset : inodeOffset i = inodeOffset j) : i = j := by
  simp only [iblock, inodeOffset, ipb, dinodeSize, bsize, ndirect] at block offset
  omega

/-- Storing one inode changes that inode and no other. -/
theorem dinode_put (d : Dinode) (i j : Nat) :
    sb.dinode (update store (sb.iblock i) (d.put (store (sb.iblock i)) (inodeOffset i))) j =
      if j = i then d else sb.dinode store j := by
  unfold dinode
  by_cases same : j = i
  · subst same
    simp [Dinode.decode_put]
  · rw [if_neg same]
    by_cases block : sb.iblock j = sb.iblock i
    · rw [block, update_self]
      refine Dinode.decode_put_ne d _ ?_
      have offset : inodeOffset j ≠ inodeOffset i := fun h => same (iblock_inj sb block h)
      simp only [inodeOffset, dinodeSize, ndirect, ipb, bsize] at offset ⊢
      omega
    · rw [update_of_ne block]

theorem dinode_congr {store' : Nat → Block} {i : Nat}
    (same : store' (sb.iblock i) = store (sb.iblock i)) :
    sb.dinode store' i = sb.dinode store i := by
  unfold dinode
  rw [same]

theorem used_congr {store' : Nat → Block} {b : Nat}
    (same : store' (sb.bblock b) = store (sb.bblock b)) :
    sb.used store' b = sb.used store b := by
  unfold used
  rw [same]

theorem bblock_inj {b c : Nat} (block : sb.bblock b = sb.bblock c) (bit : b % bpb = c % bpb) :
    b = c := by
  simp only [bblock, bpb, bsize] at block bit
  omega

/-- Setting the bit of one block changes that bit and no other. -/
theorem used_setBit (b c : Nat) :
    sb.used (update store (sb.bblock b) ((store (sb.bblock b)).setBit (b % bpb))) c =
      (decide (c = b) || sb.used store c) := by
  unfold used
  by_cases block : sb.bblock c = sb.bblock b
  · rw [block, update_self, Bytes.testBit_setBit]
    congr 1
    exact decide_eq_decide.mpr ⟨bblock_inj sb block, fun eq => by rw [eq]⟩
  · have other : c ≠ b := fun eq => block (by rw [eq])
    simp [block, other]

theorem used_clearBit (b c : Nat) :
    sb.used (update store (sb.bblock b) ((store (sb.bblock b)).clearBit (b % bpb))) c =
      (decide (c ≠ b) && sb.used store c) := by
  unfold used
  by_cases block : sb.bblock c = sb.bblock b
  · rw [block, update_self, Bytes.testBit_clearBit]
    congr 1
    exact decide_eq_decide.mpr ⟨fun h eq => h (by rw [eq]), fun h eq => h (bblock_inj sb block eq)⟩
  · have other : c ≠ b := fun eq => block (by rw [eq])
    simp [block, other]

end Superblock

end BasicOS
