/-
# BasicOS.Sys.Tree — the calls of sysfile.c that change the directory tree

`create`, `link` and `unlink`, as programs on the file system; `cwd` is the
caller's directory, and `name` what the caller's buffer for a path element holds
before it is written.  Each call is one transaction.
-/
import BasicOS.Fs.Path

namespace BasicOS

open Lib Function

set_option autoImplicit false

/-- The names `.` and `..`. -/
def dot : Bytes := Bytes.ofList [46]

def dotdot : Bytes := Bytes.ofList [46, 46]

/-- `ip->nlink += n`, in memory. -/
def addLinks (p : IPtr) (n : Int16) : Fs Unit :=
  modify fun k => k.setInode p { k.icache p with
    dinode := { (k.icache p).dinode with nlink := (k.icache p).dinode.nlink + n } }

/-- `ip->nlink += n`, written back. -/
def relink (p : IPtr) (n : Int16) : Fs Unit := do
  addLinks p n
  iupdate p

/-- The scan of `isdirempty` from `off` on. -/
def isdiremptyLoop (dp : IPtr) (size off : Nat) : Fs Bool :=
  if off < size then do
    let de ← readDirent dp off "isdirempty: readi"
    if de.get16 0 ≠ 0 then return false else isdiremptyLoop dp size (off + direntSize)
  else return true
  termination_by size - off
  decreasing_by
    simp only [direntSize, dirsiz]
    omega

/-- Is the directory empty except for `.` and `..`? -/
def isdirempty (dp : IPtr) : Fs Bool := do
  let k ← get
  isdiremptyLoop dp (k.icache dp).dinode.size.toNat (2 * direntSize)

/-! ## create -/

/-- A name that is there: `create` returns its inode, locked, if a file was asked
for and it is one. -/
def createFound (dp ip : IPtr) (type : Int16) : Fs (Option IPtr) := do
  iunlockput dp
  ilock ip
  let k ← get
  if type = tFile ∧ (k.icache ip).dinode.type = tFile then return some ip
  else
    iunlockput ip
    return none

/-- The entries `.` and `..` of a new directory, and its parent's link count. -/
def createDots (dp ip : IPtr) : Fs Unit := do
  relink dp 1
  let k ← get
  let one ← dirlink ip dot (k.icache ip).inum
  if one = false then throw (.panic "create dots")
  else
    let two ← dirlink ip dotdot (k.icache dp).inum
    if two = false then throw (.panic "create dots") else return ()

/-- A new inode with one link, locked. -/
def createInode (type major minor : Int16) : Fs IPtr := do
  let ip ← ialloc type
  ilock ip
  modify fun k => k.setInode ip { k.icache ip with
    dinode := { (k.icache ip).dinode with major, minor, nlink := 1 } }
  iupdate ip
  return ip

/-- A name that is not there: a new inode, returned locked. -/
def createNew (dp : IPtr) (name : Bytes) (type major minor : Int16) : Fs (Option IPtr) := do
  let ip ← createInode type major minor
  if type = tDir then createDots dp ip
  let k ← get
  let linked ← dirlink dp name (k.icache ip).inum
  if linked = false then throw (.panic "create: dirlink")
  else
    iunlockput dp
    return some ip

def create (cwd : IPtr) (path : List UInt8) (type major minor : Int16) (name : Bytes) :
    Fs (Option IPtr) := do
  let parent ← nameiparent cwd path name
  match parent with
  | none => return none
  | some (dp, name) =>
    ilock dp
    let found ← dirlookup dp name
    match found with
    | some (ip, _) => createFound dp ip type
    | none => createNew dp name type major minor

/-! ## link -/

/-- The label `bad` of `sys_link`. -/
def linkBad (ip : IPtr) : Fs Bool := do
  ilock ip
  relink ip (-1)
  iunlockput ip
  endOp
  return false

/-- `sys_link` from the count of the inode on. -/
def linkInode (cwd ip : IPtr) (new : List UInt8) (name : Bytes) : Fs Bool := do
  relink ip 1
  iunlock ip
  let parent ← nameiparent cwd new name
  match parent with
  | none => linkBad ip
  | some (dp, name) =>
    ilock dp
    let k ← get
    let linked ← dirlink dp name (k.icache ip).inum
    iunlockput dp
    if linked then
      iput ip
      endOp
      return true
    else linkBad ip

/-- `link(old, new)`; `false` is -1. -/
def sysLink (cwd : IPtr) (old new : List UInt8) (name : Bytes) : Fs Bool := do
  beginOp
  let found ← namei cwd old name
  match found with
  | none =>
    endOp
    return false
  | some ip =>
    ilock ip
    let k ← get
    if (k.icache ip).dinode.type = tDir then
      iunlockput ip
      endOp
      return false
    else linkInode cwd ip new name

/-! ## unlink -/

/-- The label `bad` of `sys_unlink`. -/
def unlinkBad (dp : IPtr) : Fs Bool := do
  iunlockput dp
  endOp
  return false

/-- `sys_unlink` from the erasing of the entry on. -/
def unlinkEntry (dp ip : IPtr) (off : Nat) : Fs Bool := do
  writeDirent dp (fun _ => 0) off "unlink: writei"
  let k ← get
  if (k.icache ip).dinode.type = tDir then relink dp (-1)
  iunlockput dp
  relink ip (-1)
  iunlockput ip
  endOp
  return true

/-- `sys_unlink` once the entry is found. -/
def unlinkFound (dp ip : IPtr) (off : Nat) : Fs Bool := do
  ilock ip
  let k ← get
  if (k.icache ip).dinode.nlink < 1 then throw (.panic "unlink: nlink < 1")
  else if (k.icache ip).dinode.type = tDir then
    let empty ← isdirempty ip
    if empty then unlinkEntry dp ip off
    else
      iunlockput ip
      unlinkBad dp
  else unlinkEntry dp ip off

/-- `unlink(path)`; `false` is -1. -/
def sysUnlink (cwd : IPtr) (path : List UInt8) (name : Bytes) : Fs Bool := do
  beginOp
  let parent ← nameiparent cwd path name
  match parent with
  | none =>
    endOp
    return false
  | some (dp, name) =>
    ilock dp
    if namecmp name dot ∨ namecmp name dotdot then unlinkBad dp
    else
      let found ← dirlookup dp name
      match found with
      | none => unlinkBad dp
      | some (ip, off) => unlinkFound dp ip off

end BasicOS
