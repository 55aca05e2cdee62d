/-
# BasicOS.Buf — disk blocks and the buffer cache

The disk holds blocks; the cache holds the blocks that have been read or
modified since boot.  `bread` returns the cached copy when there is one.  A
modified buffer that is not yet on disk (`B_DIRTY`) is `store`; `bwrite` puts
the data on the disk and leaves it cached.  Which buffers the cache evicts is
not modelled: eviction only ever drops a copy that equals the disk block.
-/
import BasicOS.Lib.Bytes
import BasicOS.Param

namespace BasicOS

open Function

set_option autoImplicit false

/-- The bytes of one disk block. -/
abbrev Block := Lib.Bytes

structure Dev where
  disk : Nat → Block
  cache : Nat → Option Block

namespace Dev

def bread (d : Dev) (b : Nat) : Block :=
  (d.cache b).getD (d.disk b)

/-- Write a buffer through to the disk. -/
def bwrite (d : Dev) (b : Nat) (data : Block) : Dev where
  disk := update d.disk b data
  cache := update d.cache b (some data)

/-- Leave modified data in the buffer of block `b`. -/
def store (d : Dev) (b : Nat) (data : Block) : Dev :=
  { d with cache := update d.cache b (some data) }

/-- Power is lost: what was only in the cache is gone. -/
def crash (d : Dev) : Dev :=
  { d with cache := fun _ => none }

@[simp] theorem bread_bwrite (d : Dev) (b : Nat) (data : Block) :
    (d.bwrite b data).bread = update d.bread b data := by
  funext x
  by_cases same : x = b
  · subst same
    simp [bread, bwrite]
  · simp [bread, bwrite, same]

@[simp] theorem bread_store (d : Dev) (b : Nat) (data : Block) :
    (d.store b data).bread = update d.bread b data := by
  funext x
  by_cases same : x = b
  · subst same
    simp [bread, store]
  · simp [bread, store, same]

@[simp] theorem disk_bwrite (d : Dev) (b : Nat) (data : Block) :
    (d.bwrite b data).disk = update d.disk b data := rfl

@[simp] theorem disk_store (d : Dev) (b : Nat) (data : Block) :
    (d.store b data).disk = d.disk := rfl

@[simp] theorem bread_crash (d : Dev) : d.crash.bread = d.disk := rfl

@[simp] theorem disk_crash (d : Dev) : d.crash.disk = d.disk := rfl

end Dev

end BasicOS
