/-
# BasicOS.Param — the kernel's compile-time parameters

The constants of `param.h` and `fs.h` that the modelled code reads, with the
values the preprocessor gives them.  `MAXFILE` and `FSSIZE` are unparenthesised
products in the headers; every use of them here is one where that makes no
difference.
-/
import Mathlib.Algebra.GroupWithZero.Nat
import Mathlib.Tactic.Common

namespace BasicOS

set_option autoImplicit false

/-- The text handed to `panic`. -/
abbrev Panic := String

/-! ## param.h -/

abbrev nproc : Nat := 64
abbrev ninode : Nat := 50
abbrev ndev : Nat := 10
abbrev maxopblocks : Nat := 10
abbrev logsize : Nat := maxopblocks * 3
abbrev fssize : Nat := 128 * 128 * 16

/-! ## fs.h -/

abbrev rootino : Nat := 1
abbrev bsize : Nat := 512
abbrev ndirect : Nat := 12
abbrev nindirect : Nat := bsize / 4
abbrev maxfile : Nat := 128 * 2048
abbrev dirsiz : Nat := 14

/-- Bytes of a `struct dinode`: four shorts, the size, and the addresses. -/
abbrev dinodeSize : Nat := 8 + 4 + 4 * (ndirect + 1)

/-- Inodes per block. -/
abbrev ipb : Nat := bsize / dinodeSize

/-- Bitmap bits per block. -/
abbrev bpb : Nat := bsize * 8

/-- Bytes of a `struct dirent`. -/
abbrev direntSize : Nat := 2 + dirsiz

/-! ## Tables -/

instance neZero_nproc : NeZero nproc := ⟨by decide⟩
instance neZero_ninode : NeZero ninode := ⟨by decide⟩
instance (priority := 2000) neZero_addrs : NeZero (ndirect + 1) := ⟨by decide⟩

end BasicOS
