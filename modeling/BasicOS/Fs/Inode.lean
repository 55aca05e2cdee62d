/-
# BasicOS.Fs.Inode — inodes and their contents, as in fs.c

The inode cache (`iget`, `ilock`, `iput`), the chain of index blocks behind an
inode (`bmap`, `itrunc`), and `readi` and `writei` on top of it.

Index block words 0 to 126 point to data blocks and word 127 to the next index
block; the inode holds the first index block in `addrs[0]`.
-/
import BasicOS.Fs.Block

namespace BasicOS

open Lib Function

set_option autoImplicit false

/-! ## The inode cache -/

/-- Find the inode in the cache, or take the first free entry for it. -/
def iget (inum : Nat) : Fs IPtr := do
  let k ← get
  match (List.finRange ninode).find? fun p => 0 < (k.icache p).ref ∧ (k.icache p).inum = inum with
  | some p =>
    set (k.setInode p { k.icache p with ref := (k.icache p).ref + 1 })
    return p
  | none =>
    match (List.finRange ninode).find? fun p => (k.icache p).ref = 0 with
    | none => throw (.panic "iget: no inodes")
    | some p =>
      set (k.setInode p { k.icache p with inum, ref := 1, valid := false })
      return p

def idup (p : IPtr) : Fs IPtr := do
  modify fun k => k.setInode p { k.icache p with ref := (k.icache p).ref + 1 }
  return p

/-- The inode `ialloc` takes: the first with type zero, from number 1 on. -/
def firstFreeInode (sb : Superblock) (store : Nat → Block) : Option Nat :=
  (List.range' 1 (sb.ninodes - 1)).find? fun i => (sb.dinode store i).type = 0

def ialloc (type : Int16) : Fs IPtr := do
  let k ← get
  match firstFreeInode k.sb k.store with
  | none => throw (.panic "ialloc: no inodes")
  | some inum =>
    logWrite (k.sb.iblock inum)
      (Dinode.put { Dinode.zero with type } (k.store (k.sb.iblock inum)) (inodeOffset inum))
    iget inum

/-- Copy a modified in-memory inode to disk. -/
def iupdate (p : IPtr) : Fs Unit := do
  let k ← get
  let ip := k.icache p
  logWrite (k.sb.iblock ip.inum) (ip.dinode.put (k.store (k.sb.iblock ip.inum)) (inodeOffset ip.inum))

/-- Lock the inode, reading it from disk if necessary. -/
def ilock (p : IPtr) : Fs Unit := do
  let k ← get
  let ip := k.icache p
  if ip.ref < 1 then throw (.panic "ilock")
  else if ip.locked then throw .blocked
  else if ip.valid then set (k.setInode p { ip with locked := true })
  else
    let dinode := k.sb.dinode k.store ip.inum
    if dinode.type = 0 then throw (.panic "ilock: no type")
    else set (k.setInode p { ip with locked := true, valid := true, dinode })

def iunlock (p : IPtr) : Fs Unit := do
  let k ← get
  let ip := k.icache p
  if ip.locked = false ∨ ip.ref < 1 then throw (.panic "iunlock")
  else set (k.setInode p { ip with locked := false })

/-! ## The chain of index blocks -/

/-- The loop at the start of `bmap`: which index block, and which word of it. -/
def chainSplit (indirectBno bn : Nat) : Nat × Nat :=
  if nindirect - 1 ≤ bn then chainSplit (indirectBno + 1) (bn - (nindirect - 1))
  else (indirectBno, bn)
  termination_by bn
  decreasing_by
    simp only [nindirect, bsize] at *
    omega

/-- Byte offset of the pointer to the next index block. -/
abbrev nextWord : Nat := 4 * (nindirect - 1)

/-- `a[NINDIRECT-1] = 0` in the buffer of a new index block. -/
def clearNext (b : Nat) : Fs Unit :=
  modify fun k => k.poke b ((k.store b).put32 nextWord 0)

/-- Store a block number in an index block. -/
def setWord (b o addr : Nat) : Fs Unit := do
  let k ← get
  logWrite b ((k.store b).put32 o (UInt32.ofNat addr))

/-- The first index block of an inode, allocated if there is none.  The inode
itself is not written here. -/
def bmapHead (p : IPtr) : Fs Nat := do
  let k ← get
  let ip := k.icache p
  if ip.dinode.addrs 0 = 0 then
    let addr ← balloc
    modify fun k => k.setInode p { k.icache p with
      dinode := { (k.icache p).dinode with
        addrs := update (k.icache p).dinode.addrs 0 (UInt32.ofNat addr) } }
    clearNext addr
    return addr
  else return (ip.dinode.addrs 0).toNat

/-- Allocate a block and store its number in an index block. -/
def allocWord (b o : Nat) : Fs Nat := do
  let new ← balloc
  setWord b o new
  return new

/-- Follow `i` next pointers, allocating index blocks where there are none. -/
def bmapWalk : Nat → Nat → Fs Nat
  | 0, addr => return addr
  | i + 1, addr => do
      let k ← get
      let next := (k.store addr).get32 nextWord
      if next = 0 then
        let new ← allocWord addr nextWord
        clearNext new
        bmapWalk i new
      else bmapWalk i next.toNat

/-- The disk block of word `bn` of an index block, allocated if there is none. -/
def bmapItem (addr bn : Nat) : Fs Nat := do
  let k ← get
  let item := (k.store addr).get32 (4 * bn)
  if item = 0 then allocWord addr (4 * bn) else return item.toNat

/-- Return the disk block address of the `bn`th block of an inode. -/
def bmap (p : IPtr) (bn : Nat) : Fs Nat := do
  let head ← bmapHead p
  let last ← bmapWalk (chainSplit 0 bn).1 head
  bmapItem last (chainSplit 0 bn).2

/-- Free the block in one entry of `addrs`, if there is one. -/
def freeAddr (p : IPtr) (i : Fin (ndirect + 1)) : Fs Unit := do
  let k ← get
  let a := (k.icache p).dinode.addrs i
  if a = 0 then return ()
  else
    bfree a.toNat
    modify fun k => k.setInode p { k.icache p with
      dinode := { (k.icache p).dinode with addrs := update (k.icache p).dinode.addrs i 0 } }

def freeAddrs (p : IPtr) : List (Fin (ndirect + 1)) → Fs Unit
  | [] => return ()
  | i :: is => do
      freeAddr p i
      freeAddrs p is

/-- Free the blocks in the given words of a block. -/
def freeWords (data : Block) : List Nat → Fs Unit
  | [] => return ()
  | j :: js => do
      if data.get32 (4 * j) = 0 then freeWords data js
      else
        bfree (data.get32 (4 * j)).toNat
        freeWords data js

/-- Free what the last entry of `addrs` leads to, as a single indirect block. -/
def freeIndirect (p : IPtr) : Fs Unit := do
  let k ← get
  let a := (k.icache p).dinode.addrs (Fin.last ndirect)
  if a = 0 then return ()
  else
    freeWords (k.store a.toNat) (List.range nindirect)
    bfree a.toNat
    modify fun k => k.setInode p { k.icache p with
      dinode := { (k.icache p).dinode with
        addrs := update (k.icache p).dinode.addrs (Fin.last ndirect) 0 } }

/-- Truncate an inode. -/
def itrunc (p : IPtr) : Fs Unit := do
  freeAddrs p ((List.finRange ndirect).map Fin.castSucc)
  freeIndirect p
  modify fun k => k.setInode p { k.icache p with
    dinode := { (k.icache p).dinode with size := 0 } }
  iupdate p

/-- Truncate an inode without links and free it on disk. -/
def ifree (p : IPtr) : Fs Unit := do
  itrunc p
  modify fun k => k.setInode p { k.icache p with
    dinode := { (k.icache p).dinode with type := 0 } }
  iupdate p
  modify fun k => k.setInode p { k.icache p with valid := false }

def dropRef (p : IPtr) : Fs Unit :=
  modify fun k => k.setInode p { k.icache p with ref := (k.icache p).ref - 1 }

/-- Drop a reference; the last one to an inode without links frees it. -/
def iput (p : IPtr) : Fs Unit := do
  let k ← get
  let ip := k.icache p
  if ip.locked then throw .blocked
  else if ip.valid ∧ ip.dinode.nlink = 0 ∧ ip.ref = 1 then
    ifree p
    dropRef p
  else dropRef p

def iunlockput (p : IPtr) : Fs Unit := do
  iunlock p
  iput p

/-! ## Reading and writing -/

/-- The entries of `devsw` with a driver: the console. -/
abbrev console : Int16 := 1

/-- What `readi` and `writei` return: -1, what a device driver returns, or the
result of the transfer. -/
inductive Io (α : Type) where
  | failed
  | device (major : Int16)
  | done (a : α)
  deriving DecidableEq, Repr

/-- The call goes to a device driver, if there is one. -/
def toDevice {α : Type} (major : Int16) : Io α :=
  if major < 0 ∨ Int16.ofNat ndev ≤ major ∨ major ≠ console then .failed else .device major

def readLoop (p : IPtr) (off n : Nat) : Fs (List UInt8) :=
  if _ : n = 0 then return []
  else do
    let m := min n (bsize - off % bsize)
    let b ← bmap p (off / bsize)
    let k ← get
    let rest ← readLoop p (off + m) (n - m)
    return (k.store b).slice (off % bsize) m ++ rest
  termination_by n
  decreasing_by
    have := Nat.mod_lt off (by decide : 0 < bsize)
    omega

/-- Read `n` bytes at `off`. -/
def readi (p : IPtr) (off n : UInt32) : Fs (Io (List UInt8)) := do
  let k ← get
  let ip := (k.icache p).dinode
  if ip.type = tDev then return toDevice ip.major
  else if off > ip.size ∨ off + n < off then return .failed
  else
    let n := if off + n > ip.size then ip.size - off else n
    let data ← readLoop p off.toNat n.toNat
    return .done data

def writeLoop (p : IPtr) (src : Bytes) (off n : Nat) : Fs Unit :=
  if _ : n = 0 then return ()
  else do
    let m := min n (bsize - off % bsize)
    let b ← bmap p (off / bsize)
    let k ← get
    logWrite b ((k.store b).copy (off % bsize) src m)
    writeLoop p (src.drop m) (off + m) (n - m)
  termination_by n
  decreasing_by
    have := Nat.mod_lt off (by decide : 0 < bsize)
    omega

/-- The end of `writei`: a file that has grown gets its new size. -/
def setSize (p : IPtr) (size : UInt32) : Fs Unit := do
  let k ← get
  if size > (k.icache p).dinode.size then
    modify fun k => k.setInode p { k.icache p with
      dinode := { (k.icache p).dinode with size } }
    iupdate p
  else return ()

/-- Write the first `n` bytes of `src` at `off`. -/
def writei (p : IPtr) (src : Bytes) (off n : UInt32) : Fs (Io UInt32) := do
  let k ← get
  let ip := (k.icache p).dinode
  if ip.type = tDev then return toDevice ip.major
  else if off > ip.size ∨ off + n < off then return .failed
  else if off + n > UInt32.ofNat (maxfile * bsize) then return .failed
  else if n = 0 then return .done n
  else
    writeLoop p src off.toNat n.toNat
    setSize p (off + n)
    return .done n

end BasicOS
