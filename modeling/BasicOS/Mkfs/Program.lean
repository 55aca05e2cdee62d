/-
# BasicOS.Mkfs.Program — mkfs.c

The program that builds a file system image.  Its state is the image file and
the two counters `freeinode` and `freeblock`; it stops where the source calls
`exit(1)` or fails an `assert`.  Sector numbers are natural numbers: reading past
the end of the image fails, so none gets near the width of a file offset.

An input file is its name and the pieces `read` returns for it, at most a block
each.
-/
import BasicOS.Fs.Dir

namespace BasicOS.Mkfs

open Lib Function

set_option autoImplicit false

/-! ## Layout -/

abbrev ninodes : Nat := 200
abbrev nbitmap : Nat := fssize / (bsize * 8) + 1
abbrev ninodeblocks : Nat := ninodes / ipb + 1
abbrev nlog : Nat := logsize
abbrev nmeta : Nat := 2 + nlog + ninodeblocks + nbitmap

/-- The superblock `main` writes. -/
def sb : Superblock where
  size := fssize
  nblocks := fssize - nmeta
  ninodes := ninodes
  nlog := nlog
  logstart := 2
  inodestart := 2 + nlog
  bmapstart := 2 + nlog + ninodeblocks

/-- The bytes of `struct superblock`, in a zeroed block. -/
def superBytes (sb : Superblock) : Block :=
  ((((((Bytes.put32 (fun _ => 0) 0 (UInt32.ofNat sb.size)).put32 4
    (UInt32.ofNat sb.nblocks)).put32 8 (UInt32.ofNat sb.ninodes)).put32 12
    (UInt32.ofNat sb.nlog)).put32 16 (UInt32.ofNat sb.logstart)).put32 20
    (UInt32.ofNat sb.inodestart)).put32 24 (UInt32.ofNat sb.bmapstart)

/-! ## The image -/

structure Image where
  sector : Nat → Block
  /-- The length of the image file in sectors. -/
  sectors : Nat
  freeinode : Nat
  freeblock : Nat

/-- Why `mkfs` stops early. -/
inductive Stop where
  | exit
  | assertion
  deriving DecidableEq, Repr

abbrev Mk (α : Type) := Prog Image Stop α

def wsect (sec : Nat) (buf : Block) : Mk Unit :=
  modify fun s => { s with
    sector := update s.sector sec buf, sectors := max s.sectors (sec + 1) }

def rsect (sec : Nat) : Mk Block := do
  let s ← get
  if sec < s.sectors then return s.sector sec else throw .exit

def winode (inum : Nat) (din : Dinode) : Mk Unit := do
  let buf ← rsect (sb.iblock inum)
  wsect (sb.iblock inum) (din.put buf (inodeOffset inum))

def rinode (inum : Nat) : Mk Dinode := do
  let buf ← rsect (sb.iblock inum)
  return Dinode.decode buf (inodeOffset inum)

def ialloc (type : Int16) : Mk Nat := do
  let s ← get
  let inum := s.freeinode
  set { s with freeinode := s.freeinode + 1 }
  winode inum { Dinode.zero with type, nlink := 1 }
  return inum

/-- The bitmap block with the first `used` bits set. -/
def bitmap (used : Nat) : Block :=
  (List.range used).foldl Bytes.setBit fun _ => 0

def balloc (used : Nat) : Mk Unit :=
  if used < bsize * 8 then wsect sb.bmapstart (bitmap used) else throw .assertion

/-! ## Appending to an inode -/

/-- `freeblock++`. -/
def takeBlock : Mk Nat := do
  let s ← get
  set { s with freeblock := s.freeblock + 1 }
  return s.freeblock

/-- The first index block is allocated only for the first index block's data. -/
def appendHead (bno : Nat) (din : Dinode) : Mk (Dinode × Bool) :=
  if bno = 0 ∧ din.addrs 0 = 0 then do
    let b ← takeBlock
    return ({ din with addrs := update din.addrs 0 (UInt32.ofNat b) }, true)
  else return (din, false)

/-- A pointer of an index block, allocated and written if there is none; the
flag says whether it is new. -/
def appendWord (last o : Nat) (indirect : Block) : Mk (Block × Bool) :=
  if indirect.get32 o = 0 then do
    let b ← takeBlock
    wsect last (indirect.put32 o (UInt32.ofNat b))
    return (indirect.put32 o (UInt32.ofNat b), true)
  else return (indirect, false)

/-- Follow next pointers, with `is_new` carried along. -/
def appendWalk : Nat → Bool → Nat → Block → Mk (Nat × Block)
  | 0, _, last, indirect => return (last, indirect)
  | i + 1, isNew, last, indirect => do
      let (indirect, new) ← appendWord last nextWord indirect
      let next := (indirect.get32 nextWord).toNat
      let data ← rsect next
      appendWalk i false next (if isNew || new then data.put32 nextWord 0 else data)

/-- The block for file block `bn`; also the inode, which may have got a head. -/
def appendBlock (din : Dinode) (bn : Nat) : Mk (Dinode × Nat) := do
  let (din, isNew) ← appendHead (chainSplit 0 bn).1 din
  let indirect ← rsect (din.addrs 0).toNat
  let (last, indirect) ← appendWalk (chainSplit 0 bn).1 isNew (din.addrs 0).toNat indirect
  let (indirect, _) ← appendWord last (4 * (chainSplit 0 bn).2) indirect
  return (din, (indirect.get32 (4 * (chainSplit 0 bn).2)).toNat)

/-- The loop of `iappend`: returns the inode and the offset it has reached. -/
def appendLoop (din : Dinode) (off : Nat) (p : Bytes) (n : Nat) : Mk (Dinode × Nat) :=
  if _ : n = 0 then return (din, off)
  else do
    let (din, x) ← appendBlock din (off / bsize)
    let n1 := min n ((off / bsize + 1) * bsize - off)
    let buf ← rsect x
    wsect x (buf.copy (off - off / bsize * bsize) p n1)
    appendLoop din (off + n1) (p.drop n1) (n - n1)
  termination_by n
  decreasing_by
    have := Nat.lt_div_mul_add (a := off) (b := bsize) (by decide)
    rw [Nat.add_mul]
    omega

def iappend (inum : Nat) (data : List UInt8) : Mk Unit := do
  let din ← rinode inum
  let (din, off) ← appendLoop din din.size.toNat (Bytes.ofList data) data.length
  winode inum { din with size := UInt32.ofNat off }

/-! ## The program -/

structure InputFile where
  /-- The name on the command line, without the zero byte at its end. -/
  name : List UInt8
  /-- What the calls of `read` return, until it returns nothing. -/
  pieces : List (List UInt8)
  string : ∀ c ∈ name, c ≠ 0
  sizes : ∀ piece ∈ pieces, 0 < piece.length ∧ piece.length ≤ bsize

/-- The bytes of an input file. -/
def InputFile.content (f : InputFile) : List UInt8 :=
  f.pieces.flatten

/-- A leading underscore is skipped. -/
def InputFile.stored (f : InputFile) : List UInt8 :=
  if f.name.head? = some 95 then f.name.tail else f.name

/-- A directory entry as the bytes to append. -/
def direntBytes (inum : Nat) (name : List UInt8) : List UInt8 :=
  (dirent (UInt16.ofNat inum) (Bytes.ofList name)).slice 0 direntSize

def iappends (inum : Nat) : List (List UInt8) → Mk Unit
  | [] => return ()
  | piece :: pieces => do
      iappend inum piece
      iappends inum pieces

/-- One turn of the loop over the command line. -/
def addFile (root : Nat) (f : InputFile) : Mk Unit := do
  if 47 ∈ f.name then throw .assertion
  else
    let inum ← ialloc tFile
    iappend root (direntBytes inum f.stored)
    iappends inum f.pieces

def addFiles (root : Nat) : List InputFile → Mk Unit
  | [] => return ()
  | f :: fs => do
      addFile root f
      addFiles root fs

/-- Write zeroes to the first `n` sectors. -/
def wzeroes : Nat → Mk Unit
  | 0 => return ()
  | n + 1 => do
      wzeroes n
      wsect n fun _ => 0

/-- A new image file, and the counters as `main` sets them. -/
def blank : Image where
  sector := fun _ _ => 0
  sectors := 0
  freeinode := 1
  freeblock := nmeta

theorem wzeroes_run (n : Nat) : wzeroes n blank = .ok ((), { blank with sectors := n }) := by
  induction n with
  | zero => rfl
  | succ n ih =>
    have zero : update blank.sector n (fun _ => 0) = blank.sector := update_eq_self n _
    rw [wzeroes, Prog.run_bind ih]
    show Except.ok ((), { blank with
      sector := update blank.sector n (fun _ => 0), sectors := max n (n + 1) }) = _
    rw [zero, Nat.max_eq_right (Nat.le_succ n)]

-- so that nothing unfolds the loop over the whole disk
attribute [irreducible] wzeroes

/-- The size of the root directory is rounded up. -/
def fixRoot (root : Nat) : Mk Unit := do
  let din ← rinode root
  winode root { din with size := (din.size / UInt32.ofNat bsize + 1) * UInt32.ofNat bsize }

/-- The root directory with its first two entries. -/
def addRoot : Mk Nat := do
  let root ← ialloc tDir
  if root = rootino then
    iappend root (direntBytes root [46])
    iappend root (direntBytes root [46, 46])
    return root
  else throw .assertion

def main (files : List InputFile) : Mk Unit := do
  wzeroes fssize
  wsect 1 (superBytes sb)
  let root ← addRoot
  addFiles root files
  fixRoot root
  let s ← get
  balloc s.freeblock

/-- The image a run leaves, if it completes. -/
def leaves : Except Stop (Unit × Image) → Option Image
  | .ok (_, s) => some s
  | .error _ => none

def mkfs (files : List InputFile) : Option Image :=
  leaves (main files blank)

end BasicOS.Mkfs
