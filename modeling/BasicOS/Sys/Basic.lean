/-
# BasicOS.Sys.Basic — open files and the system calls on them

The file table of file.c, the descriptors and directories of the processes, and
the system calls of sysfile.c, pipe.c and proc.c that use them.  A system call
is a program on `State` that runs to its end by itself: it returns, panics, or
waits for a lock that it holds.  A call on a pipe may also go to sleep; then what
it has done up to there is the step.

Arguments are as the call has fetched them.  `none` for a string or a
descriptor is an argument that could not be fetched.
-/
import BasicOS.Sys.Tree
import BasicOS.Pipe.Basic

namespace BasicOS.Sys

open Lib Function

set_option autoImplicit false

/-! ## State -/

abbrev nofile : Nat := 16
abbrev nfile : Nat := 100

/-- A pointer into `ftable.file`. -/
abbrev FPtr := Fin nfile

/-- An index of `ofile`. -/
abbrev Fd := Fin nofile

/-- A slot of the process table. -/
abbrev Slot := Fin nproc

inductive FileType where
  | none
  | pipe
  | inode
  deriving DecidableEq, Repr

/-- `struct file`.  `pipe` numbers the pipes in the order they were made. -/
structure File where
  type : FileType
  ref : Nat
  readable : Bool
  writable : Bool
  pipe : Nat
  ip : IPtr
  off : UInt32

/-- The state the calls work on. -/
structure State where
  k : Kernel
  file : FPtr → File
  /-- The descriptors of each process. -/
  ofile : Slot → Fd → Option FPtr
  /-- The directory of each process; a slot without a running process has none. -/
  cwd : Slot → Option IPtr
  pipe : Nat → Pipe
  /-- How many pipes have been made. -/
  made : Nat
  /-- The pipes whose pages have been given to `kfree`. -/
  freed : List Nat

/-- `initproc`. -/
abbrev initproc : Slot := 0

/-- How a call ends that does not return. -/
inductive Halt where
  /-- The file system below has stopped. -/
  | fs (stop : Stop)
  | panic (message : Panic)
  deriving DecidableEq, Repr

abbrev Act (α : Type) := Prog State Halt α

/-- A program of the file system. -/
def fs {α : Type} (m : Fs α) : Act α := fun s =>
  match m s.k with
  | .ok (a, k) => .ok (a, { s with k })
  | .error e => .error (.fs e)

def State.setFile (s : State) (f : FPtr) (x : File) : State :=
  { s with file := update s.file f x }

def State.setFd (s : State) (cur : Slot) (fd : Fd) (f : Option FPtr) : State :=
  { s with ofile := update s.ofile cur (update (s.ofile cur) fd f) }

def State.setPipe (s : State) (id : Nat) (p : Pipe) : State :=
  { s with pipe := update s.pipe id p }

/-! ## file.c -/

def filealloc : Act (Option FPtr) := do
  let s ← get
  match (List.finRange nfile).find? fun f => (s.file f).ref = 0 with
  | none => return none
  | some f =>
    set (s.setFile f { s.file f with ref := 1 })
    return some f

def filedup (f : FPtr) : Act Unit := do
  let s ← get
  if (s.file f).ref < 1 then throw (.panic "filedup")
  else set (s.setFile f { s.file f with ref := (s.file f).ref + 1 })

/-- `pipeclose` on the page of pipe `id`. -/
def closePipe (id : Nat) (writable : Bool) : Act Unit := do
  let s ← get
  match pipeclose writable (s.pipe id) with
  | some p => set (s.setPipe id p)
  | none => set { s.setPipe id ((s.pipe id).close writable) with freed := id :: s.freed }

/-- What is left to do when the last reference to a file is gone. -/
def closeLast (ff : File) : Act Unit :=
  match ff.type with
  | .pipe => closePipe ff.pipe ff.writable
  | .inode => do
      fs beginOp
      fs (iput ff.ip)
      fs endOp
  | .none => return ()

def fileclose (f : FPtr) : Act Unit := do
  let s ← get
  let ff := s.file f
  if ff.ref < 1 then throw (.panic "fileclose")
  else if ff.ref - 1 > 0 then set (s.setFile f { ff with ref := ff.ref - 1 })
  else
    set (s.setFile f { ff with ref := 0, type := .none })
    closeLast ff

/-! ## Reading and writing

The result is the number of bytes or -1, or nothing when the call has gone to
sleep on a pipe. -/

/-- `fileread` on an inode; `console` is what the console's driver returns. -/
def readInode (f : FPtr) (n : UInt32) (console : Option UInt32) : Act Int := do
  let s ← get
  let ff := s.file f
  fs (ilock ff.ip)
  let r ← fs (readi ff.ip ff.off n)
  let got : Option UInt32 :=
    match r with
    | .failed => none
    | .device _ => console
    | .done data => some (UInt32.ofNat data.length)
  modify fun s => s.setFile f { s.file f with off := (s.file f).off + got.getD 0 }
  fs (iunlock ff.ip)
  return match got with
    | none => -1
    | some r => r.toNat

/-- `fileread` on a pipe. -/
def readPipe (id n : Nat) (killed : Bool) : Act (Option Int) := do
  let s ← get
  let r := piperead killed n (s.pipe id)
  set (s.setPipe id r.2)
  return match r.1 with
    | .done bytes => some bytes.length
    | .failed => some (-1)
    | .asleep => none

def fileread (f : FPtr) (n : UInt32) (killed : Bool) (console : Option UInt32) :
    Act (Option Int) := do
  let s ← get
  if (s.file f).readable = false then return some (-1)
  else
    match (s.file f).type with
    | .pipe => readPipe (s.file f).pipe n.toNat killed
    | .inode => return some (← readInode f n console)
    | .none => throw (.panic "fileread")

/-- `max` in `filewrite`. -/
abbrev chunk : Nat := (maxopblocks - 1 - 1 - 2) / 2 * 512

/-- One transaction of `filewrite`: was it written?  What `writei` writes it
writes in full, and so does the console's driver. -/
def writeChunk (f : FPtr) (src : Bytes) (n : Nat) : Act Bool := do
  fs beginOp
  let s ← get
  let ff := s.file f
  fs (ilock ff.ip)
  let r ← fs (writei ff.ip src ff.off (UInt32.ofNat n))
  let wrote := r ≠ .failed
  modify fun s => s.setFile f { s.file f with
    off := if wrote then (s.file f).off + UInt32.ofNat n else (s.file f).off }
  fs (iunlock ff.ip)
  fs endOp
  return wrote

/-- The loop of `filewrite`: have all `n` bytes been written? -/
def writeChunks (f : FPtr) (src : Bytes) (n : Nat) : Act Bool :=
  if _ : n = 0 then return true
  else do
    let wrote ← writeChunk f src (min n chunk)
    if wrote then writeChunks f (src.drop (min n chunk)) (n - min n chunk) else return false
  termination_by n
  decreasing_by
    simp only [chunk, maxopblocks]
    omega

/-- `filewrite` on a pipe. -/
def writePipe (id : Nat) (bytes : List UInt8) (killed : Bool) : Act (Option Int) := do
  let s ← get
  let r := pipewrite killed bytes (s.pipe id)
  set (s.setPipe id r.2.2)
  return match r.1 with
    | .done => some bytes.length
    | .failed => some (-1)
    | .asleep => none

def filewrite (f : FPtr) (bytes : List UInt8) (killed : Bool) : Act (Option Int) := do
  let s ← get
  if (s.file f).writable = false then return some (-1)
  else
    match (s.file f).type with
    | .pipe => writePipe (s.file f).pipe bytes killed
    | .inode =>
      let all ← writeChunks f (Bytes.ofList bytes) bytes.length
      return some (if all then bytes.length else -1)
    | .none => throw (.panic "filewrite")

/-- `filestat`; the record itself is left out. -/
def filestat (f : FPtr) : Act Int := do
  let s ← get
  match (s.file f).type with
  | .inode =>
    fs (ilock (s.file f).ip)
    fs (iunlock (s.file f).ip)
    return 0
  | _ => return -1

/-! ## Descriptors -/

/-- Give the file the first free descriptor. -/
def fdalloc (cur : Slot) (f : FPtr) : Act (Option Fd) := do
  let s ← get
  match (List.finRange nofile).find? fun fd => s.ofile cur fd = none with
  | none => return none
  | some fd =>
    set (s.setFd cur fd (some f))
    return some fd

/-- The file of a descriptor, as `argfd` finds it. -/
def argfd (cur : Slot) (fd : Option Fd) : Act (Option (Fd × FPtr)) := do
  let s ← get
  return fd.bind fun fd => (s.ofile cur fd).map fun f => (fd, f)

def sysDup (cur : Slot) (fd : Option Fd) : Act Int := do
  match ← argfd cur fd with
  | none => return -1
  | some (_, f) =>
    match ← fdalloc cur f with
    | none => return -1
    | some new =>
      filedup f
      return (new.val : Int)

def sysClose (cur : Slot) (fd : Option Fd) : Act Int := do
  match ← argfd cur fd with
  | none => return -1
  | some (fd, f) =>
    modify fun s => s.setFd cur fd none
    fileclose f
    return 0

/-! ## Pipes -/

/-- The label `bad` of `pipealloc`, when there is no page. -/
def closeOpt (f : Option FPtr) : Act Unit :=
  match f with
  | none => return ()
  | some f => fileclose f

/-- Two files for the ends of a new pipe.  `page` is what the page held, if
`kalloc` has one. -/
def pipealloc (page : Option (Nat → UInt8)) : Act (Option (FPtr × FPtr)) := do
  match ← filealloc with
  | none => return none
  | some f0 =>
    match ← filealloc with
    | none =>
      fileclose f0
      return none
    | some f1 =>
      match page with
      | none =>
        fileclose f0
        fileclose f1
        return none
      | some page =>
        modify fun s =>
          let s := { s.setPipe s.made (Pipe.alloc page) with made := s.made + 1 }
          let s := s.setFile f0 { s.file f0 with
            type := .pipe, readable := true, writable := false, pipe := s.made - 1 }
          s.setFile f1 { s.file f1 with
            type := .pipe, readable := false, writable := true, pipe := s.made - 1 }
        return some (f0, f1)

def sysPipe (cur : Slot) (page : Option (Nat → UInt8)) : Act Int := do
  match ← pipealloc page with
  | none => return -1
  | some (rf, wf) =>
    match ← fdalloc cur rf with
    | none =>
      fileclose rf
      fileclose wf
      return -1
    | some fd0 =>
      match ← fdalloc cur wf with
      | none =>
        modify fun s => s.setFd cur fd0 none
        fileclose rf
        fileclose wf
        return -1
      | some _ => return 0

/-! ## open -/

abbrev oRdonly : UInt32 := 0x000
abbrev oWronly : UInt32 := 0x001
abbrev oRdwr : UInt32 := 0x002
abbrev oCreate : UInt32 := 0x200

/-- The first half of `sys_open`: the inode, locked. -/
def openInode (cwd : IPtr) (path : List UInt8) (omode : UInt32) (name : Bytes) :
    Fs (Option IPtr) := do
  if omode &&& oCreate ≠ 0 then create cwd path tFile 0 0 name
  else
    let found ← namei cwd path name
    match found with
    | none => return none
    | some ip =>
      ilock ip
      let k ← get
      if (k.icache ip).dinode.type = tDir ∧ omode ≠ oRdonly then
        iunlockput ip
        return none
      else return some ip

/-- The second half of `sys_open`: a file and a descriptor for the inode. -/
def openFile (cur : Slot) (ip : IPtr) (omode : UInt32) : Act Int := do
  let f ← filealloc
  let fd : Option Fd ←
    match f with
    | none => pure none
    | some f => fdalloc cur f
  match f, fd with
  | some f, some fd =>
    fs (iunlock ip)
    fs endOp
    modify fun s => s.setFile f { s.file f with
      type := .inode, ip := ip, off := 0
      readable := omode &&& oWronly = 0
      writable := omode &&& oWronly ≠ 0 ∨ omode &&& oRdwr ≠ 0 }
    return (fd.val : Int)
  | f, _ =>
    closeOpt f
    fs (iunlockput ip)
    fs endOp
    return -1

def sysOpen (cur : Slot) (cwd : IPtr) (path : Option (List UInt8)) (omode : UInt32)
    (name : Bytes) : Act Int := do
  match path with
  | none => return -1
  | some path =>
    fs beginOp
    match ← fs (openInode cwd path omode name) with
    | none =>
      fs endOp
      return -1
    | some ip => openFile cur ip omode

/-! ## Names -/

/-- `sys_mkdir` and `sys_mknod`. -/
def sysMake (cwd : IPtr) (path : Option (List UInt8)) (type major minor : Int16) (name : Bytes) :
    Act Int := do
  fs beginOp
  let made ← match path with
    | none => pure none
    | some path => fs (create cwd path type major minor name)
  match made with
  | none =>
    fs endOp
    return -1
  | some ip =>
    fs (iunlockput ip)
    fs endOp
    return 0

def sysMkdir (cwd : IPtr) (path : Option (List UInt8)) (name : Bytes) : Act Int :=
  sysMake cwd path tDir 0 0 name

def sysMknod (cwd : IPtr) (path : Option (List UInt8)) (major minor : Int16) (name : Bytes) :
    Act Int :=
  sysMake cwd path tDev major minor name

/-- What a call returns that says only whether it has failed. -/
def status (ok : Bool) : Int :=
  if ok then 0 else -1

def sysChdir (cur : Slot) (cwd : IPtr) (path : Option (List UInt8)) (name : Bytes) :
    Act Int := do
  fs beginOp
  let found ← match path with
    | none => pure none
    | some path => fs (namei cwd path name)
  match found with
  | none =>
    fs endOp
    return -1
  | some ip =>
    fs (ilock ip)
    let s ← get
    if (s.k.icache ip).dinode.type ≠ tDir then
      fs (iunlockput ip)
      fs endOp
      return -1
    else
      fs (iunlock ip)
      fs (iput cwd)
      fs endOp
      modify fun s => { s with cwd := update s.cwd cur (some ip) }
      return 0

/-! ## Processes -/

/-- The reads of `exec` and `loaduvm`; each may be the last one. -/
def execReads (ip : IPtr) : List (UInt32 × UInt32) → Fs Unit
  | [] => return ()
  | (off, n) :: reads => do
      let _ ← readi ip off n
      execReads ip reads

/-- `exec`, as far as it uses the file system.  Which `reads` it makes, and whether
it succeeds, depends on the file and on memory. -/
def sysExec (cwd : IPtr) (path : List UInt8) (reads : List (UInt32 × UInt32)) (ok : Bool)
    (name : Bytes) : Fs Bool := do
  beginOp
  let found ← namei cwd path name
  match found with
  | none =>
    endOp
    return false
  | some ip =>
    ilock ip
    execReads ip reads
    iunlockput ip
    endOp
    return ok

/-- The loop of `fork` and `thread_create` over the descriptors. -/
def dupFiles (cur np : Slot) : List Fd → Act Unit
  | [] => return ()
  | fd :: fds => do
      let s ← get
      match s.ofile cur fd with
      | none => dupFiles cur np fds
      | some f =>
        filedup f
        modify fun s => s.setFd np fd (some f)
        dupFiles cur np fds

/-- `fork` and `thread_create`: the new process has the files and the directory of
its creator.  There is no new slot when `allocproc` or the copy of the memory
fails; otherwise the slot stands for the pid that is returned. -/
def spawn (cur : Slot) (cwd : IPtr) (np : Option Slot) : Act Int := do
  match np with
  | none => return -1
  | some np =>
    dupFiles cur np (List.finRange nofile)
    let dir ← fs (idup cwd)
    modify fun s => { s with cwd := update s.cwd np (some dir) }
    return (np.val : Int)

/-- The loop of `exit` over the descriptors. -/
def closeFiles (cur : Slot) : List Fd → Act Unit
  | [] => return ()
  | fd :: fds => do
      let s ← get
      match s.ofile cur fd with
      | none => closeFiles cur fds
      | some f =>
        fileclose f
        modify fun s => s.setFd cur fd none
        closeFiles cur fds

/-- `exit` and `thread_exit`. -/
def leave (cur : Slot) (cwd : IPtr) : Act Unit := do
  if cur = initproc then throw (.panic "init exiting")
  else
    closeFiles cur (List.finRange nofile)
    fs beginOp
    fs (iput cwd)
    fs endOp
    modify fun s => { s with cwd := update s.cwd cur none }

/-! ## The machine -/

/-- The system calls, with their arguments. -/
inductive Call where
  | open (path : Option (List UInt8)) (omode : UInt32) (name : Bytes)
  | close (fd : Option Fd)
  | dup (fd : Option Fd)
  | pipe (page : Option (Nat → UInt8))
  | read (fd : Option Fd) (n : UInt32) (killed : Bool) (console : Option UInt32)
  | write (fd : Option Fd) (bytes : List UInt8) (killed : Bool)
  | fstat (fd : Option Fd)
  | link (old new : Option (List UInt8)) (name : Bytes)
  | unlink (path : Option (List UInt8)) (name : Bytes)
  | mkdir (path : Option (List UInt8)) (name : Bytes)
  | mknod (path : Option (List UInt8)) (major minor : Int16) (name : Bytes)
  | chdir (path : Option (List UInt8)) (name : Bytes)
  | exec (path : Option (List UInt8)) (reads : List (UInt32 × UInt32)) (ok : Bool) (name : Bytes)
  | fork (np : Option Slot)
  | threadCreate (np : Option Slot)
  | exit
  | threadExit

/-- Run a call of the process in slot `cur` with directory `cwd`; the result is
what it returns, if it returns. -/
def Call.run (cur : Slot) (cwd : IPtr) : Call → Act (Option Int)
  | .open path omode name => return some (← sysOpen cur cwd path omode name)
  | .close fd => return some (← sysClose cur fd)
  | .dup fd => return some (← sysDup cur fd)
  | .pipe page => return some (← sysPipe cur page)
  | .read fd n killed console => do
      match ← argfd cur fd with
      | none => return some (-1)
      | some (_, f) => fileread f n killed console
  | .write fd bytes killed => do
      match ← argfd cur fd with
      | none => return some (-1)
      | some (_, f) => filewrite f bytes killed
  | .fstat fd => do
      match ← argfd cur fd with
      | none => return some (-1)
      | some (_, f) => return some (← filestat f)
  | .link old new name => do
      match old, new with
      | some old, some new => return some (status (← fs (sysLink cwd old new name)))
      | _, _ => return some (-1)
  | .unlink path name => do
      match path with
      | some path => return some (status (← fs (sysUnlink cwd path name)))
      | none => return some (-1)
  | .mkdir path name => return some (← sysMkdir cwd path name)
  | .mknod path major minor name => return some (← sysMknod cwd path major minor name)
  | .chdir path name => return some (← sysChdir cur cwd path name)
  | .exec path reads ok name => do
      match path with
      | some path => return some (status (← fs (sysExec cwd path reads ok name)))
      | none => return some (-1)
  | .fork np => return some (← spawn cur cwd np)
  | .threadCreate np => return some (← spawn cur cwd np)
  | .exit => do
      leave cur cwd
      return none
  | .threadExit => do
      leave cur cwd
      return none

/-- The slot of the new process that a call makes. -/
def Call.newSlot : Call → Option Slot
  | .fork np | .threadCreate np => np
  | _ => none

/-- A new process goes to a slot that has none. -/
def Call.Legal (s : State) (c : Call) : Prop :=
  ∀ np ∈ c.newSlot, s.cwd np = none

instance (s : State) (c : Call) : Decidable (c.Legal s) :=
  inferInstanceAs (Decidable (∀ np ∈ c.newSlot, s.cwd np = none))

/-- A call of a running process that comes to its end, or to a sleep. -/
def step (s : State) (e : Slot × Call) : Option State :=
  match s.cwd e.1 with
  | none => none
  | some cwd =>
    if e.2.Legal s then
      match e.2.run e.1 cwd s with
      | .ok (_, s') => some s'
      | .error _ => none
    else none

/-- The state in which the first process starts: it has no files, and is in the
root directory, whose inode it has a reference to. -/
def start (k : Kernel) (root : IPtr) : State where
  k := k
  file := fun _ => ⟨.none, 0, false, false, 0, 0, 0⟩
  ofile := fun _ _ => none
  cwd := update (fun _ => none) initproc (some root)
  pipe := fun _ => ⟨fun _ => 0, 0, 0, false, false⟩
  made := 0
  freed := []

end BasicOS.Sys
