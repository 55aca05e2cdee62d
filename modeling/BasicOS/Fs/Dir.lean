/-
# BasicOS.Fs.Dir — directories, as in fs.c

A directory is a file of sixteen-byte entries: an inode number and a name of at
most fourteen bytes, padded with zeros.  An entry with inode number zero is
free.  Names are memory that ends at the first zero byte, as in C.
-/
import BasicOS.Fs.Inode

namespace BasicOS

open Lib Function

set_option autoImplicit false

/-! ## Strings -/

/-- `strncmp(s + i, t + i, n) == 0`. -/
def strncmpEq (s t : Bytes) : Nat → Nat → Bool
  | 0, _ => true
  | n + 1, i => if s i ≠ 0 ∧ s i = t i then strncmpEq s t n (i + 1) else s i == t i

def namecmp (s t : Bytes) : Bool :=
  strncmpEq s t dirsiz 0

/-- What `strncpy` leaves in its destination: zeros from the end of `t` on. -/
def strncpy (t : Bytes) : Bytes :=
  fun i => if (List.range i).any fun j => t j == 0 then 0 else t i

/-! ## Entries -/

/-- The bytes of a `struct dirent`. -/
def dirent (inum : UInt16) (name : Bytes) : Bytes :=
  fun j => if j < 2 then Bytes.le16 inum j else strncpy name (j - 2)

/-- Read the entry at `off`; a short read is a panic. -/
def readDirent (dp : IPtr) (off : Nat) (message : Panic) : Fs Bytes := do
  let r ← readi dp (UInt32.ofNat off) (UInt32.ofNat direntSize)
  match r with
  | .done data =>
    if data.length = direntSize then return Bytes.ofList data else throw (.panic message)
  | _ => throw (.panic message)

def dirlookupLoop (dp : IPtr) (name : Bytes) (size off : Nat) : Fs (Option (IPtr × Nat)) :=
  if off < size then do
    let de ← readDirent dp off "dirlookup read"
    if de.get16 0 ≠ 0 ∧ namecmp name (de.drop 2) then
      let ip ← iget (de.get16 0).toNat
      return some (ip, off)
    else dirlookupLoop dp name size (off + direntSize)
  else return none
  termination_by size - off
  decreasing_by
    simp only [direntSize, dirsiz]
    omega

/-- Look for an entry in a directory; returns the inode and the entry's offset. -/
def dirlookup (dp : IPtr) (name : Bytes) : Fs (Option (IPtr × Nat)) := do
  let k ← get
  if (k.icache dp).dinode.type ≠ tDir then throw (.panic "dirlookup not DIR")
  else dirlookupLoop dp name (k.icache dp).dinode.size.toNat 0

/-- The offset of the first free entry, or the end of the directory. -/
def dirSlot (dp : IPtr) (size off : Nat) : Fs Nat :=
  if off < size then do
    let de ← readDirent dp off "dirlink read"
    if de.get16 0 = 0 then return off else dirSlot dp size (off + direntSize)
  else return off
  termination_by size - off
  decreasing_by
    simp only [direntSize, dirsiz]
    omega

/-- Write an entry; anything but a full write is a panic. -/
def writeDirent (dp : IPtr) (de : Bytes) (off : Nat) (message : Panic) : Fs Unit := do
  let r ← writei dp de (UInt32.ofNat off) (UInt32.ofNat direntSize)
  if r = .done (UInt32.ofNat direntSize) then return () else throw (.panic message)

/-- Write a new entry into a directory; `false` when the name is present. -/
def dirlink (dp : IPtr) (name : Bytes) (inum : Nat) : Fs Bool := do
  let present ← dirlookup dp name
  match present with
  | some (ip, _) =>
    iput ip
    return false
  | none =>
    let k ← get
    let off ← dirSlot dp (k.icache dp).dinode.size.toNat 0
    writeDirent dp (dirent (UInt16.ofNat inum) name) off "dirlink"
    return true

end BasicOS
