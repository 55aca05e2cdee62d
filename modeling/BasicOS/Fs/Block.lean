/-
# BasicOS.Fs.Block — the state of fs.c, and its block allocator

`Kernel` is what the file system code works on: the device with its buffer
cache, the log, the superblock and the inode cache.  A function of the source is
a program on it that returns, panics, or waits for a lock that its caller holds
(`Stop.blocked`).  There is one disk, so `dev` arguments are left out.

A buffer that a caller has modified and handed to `log_write` is one step here
(`logWrite`): the data goes to the cache and the block number to the log.
-/
import BasicOS.Fs.Disk
import BasicOS.Lib.Prog
import BasicOS.Log.Commit

namespace BasicOS

open Lib Function

set_option autoImplicit false

/-- The in-memory copy of an inode. -/
structure Inode where
  inum : Nat
  ref : Nat
  /-- `ip->lock` is held. -/
  locked : Bool
  valid : Bool
  /-- The fields copied from disk. -/
  dinode : Dinode

/-- A pointer to an entry of `icache.inode`. -/
abbrev IPtr := Fin ninode

structure Kernel where
  dev : Dev
  log : Log
  sb : Superblock
  icache : IPtr → Inode

namespace Kernel

/-- The contents of every block, as `bread` returns them. -/
def store (k : Kernel) : Nat → Block :=
  k.dev.bread

def setInode (k : Kernel) (p : IPtr) (ip : Inode) : Kernel :=
  { k with icache := update k.icache p ip }

/-- A buffer is modified without being logged. -/
def poke (k : Kernel) (b : Nat) (data : Block) : Kernel :=
  { k with dev := k.dev.store b data }

/-- A buffer is modified and logged. -/
def put (k : Kernel) (b : Nat) (data : Block) : Kernel :=
  { k with dev := k.dev.store b data, log := k.log.logAppend b }

end Kernel

/-- The kernel after `iinit` and `initlog`: the superblock is read, and what the
log holds is recovered. -/
def boot (disk : Nat → Block) : Kernel where
  dev := exec (recoverFromLog (Superblock.decode (disk 1)).logstart ⟨disk, fun _ => none⟩)
    ⟨disk, fun _ => none⟩
  log := {
    start := (Superblock.decode (disk 1)).logstart
    size := (Superblock.decode (disk 1)).nlog
    outstanding := 0
    committing := false
    lh := [] }
  sb := Superblock.decode (disk 1)
  icache := fun _ => ⟨0, 0, false, false, Dinode.zero⟩

/-- How a call ends that does not return. -/
inductive Stop where
  | panic (message : Panic)
  /-- The call sleeps on a lock that its own process holds. -/
  | blocked
  deriving DecidableEq, Repr

abbrev Fs (α : Type) := Prog Kernel Stop α

/-! ## Transactions -/

def beginOp : Fs Unit := do
  let k ← get
  match k.log.beginOp with
  | none => throw .blocked
  | some log => set { k with log }

/-- `end_op`; the last operation to end commits. -/
def endOp : Fs Unit := do
  let k ← get
  match k.log.endOp with
  | .error message => throw (.panic message)
  | .ok (false, log) => set { k with log }
  | .ok (true, log) =>
    set { k with
      dev := exec (commit log) k.dev
      log := { log with committing := false, lh := [] } }

def logWrite (b : Nat) (data : Block) : Fs Unit := do
  let k ← get
  match k.log.logWriteCheck with
  | .error message => throw (.panic message)
  | .ok () => set (k.put b data)

/-! ## Blocks -/

/-- Zero a block. -/
def bzero (b : Nat) : Fs Unit :=
  logWrite b fun _ => 0

/-- The first free bit of a bitmap block whose first bit is for block `b`. -/
def freeBit (data : Block) (b size : Nat) : Option Nat :=
  (List.range bpb).find? fun bi => decide (b + bi < size) && !data.testBit bi

/-- The block `balloc` finds. -/
def firstFree (sb : Superblock) (store : Nat → Block) : Option Nat :=
  (List.range ((sb.size + bpb - 1) / bpb)).findSome? fun j =>
    (freeBit (store (sb.bblock (j * bpb))) (j * bpb) sb.size).map (j * bpb + ·)

/-- Allocate a zeroed disk block. -/
def balloc : Fs Nat := do
  let k ← get
  match firstFree k.sb k.store with
  | none => throw (.panic "balloc: out of blocks")
  | some b =>
    logWrite (k.sb.bblock b) ((k.store (k.sb.bblock b)).setBit (b % bpb))
    bzero b
    return b

/-- Free a disk block; the superblock is read again first. -/
def bfree (b : Nat) : Fs Unit := do
  modify fun k => { k with sb := Superblock.decode (k.store 1) }
  let k ← get
  let data := k.store (k.sb.bblock b)
  if data.testBit (b % bpb) then logWrite (k.sb.bblock b) (data.clearBit (b % bpb))
  else throw (.panic "freeing free block")

end BasicOS
