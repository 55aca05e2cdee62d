/-
# BasicOS.Syscall.Stores — where system calls store in user memory

Every entry of `syscalls[]`, with the checks it makes on its arguments and the
bytes it stores at user addresses.  What the kernel finds behind a descriptor,
in the process table and in its allocators is given by `Kern`; of a call that
stores nothing only the checks and the result are kept.  `exec`, `fork` and
`sbrk` write new pages through the kernel's own mapping, so they store at no
address of the caller.

`syscall_stores`: a call stores only below `sz`, and answers -1 to a request
outside of it, exactly when it is not a `getmeminfo` or a `thread_create` whose
buffer passes the check but is not big enough.
-/
import BasicOS.Pipe.Basic
import BasicOS.Syscall.Args

namespace BasicOS.Usys

open Lib Ptable

set_option autoImplicit false

/-- One byte stored at a user address. -/
abbrev Store := UInt32 × UInt8

/-- The stores of a loop that copies `bytes` to `p`. -/
def storeAll (p : UInt32) (bytes : List UInt8) : List Store :=
  bytes.zipIdx.map fun item => (p + UInt32.ofNat item.2, item.1)

/-- The stores of a call in their order, and what it returns if it does. -/
structure Reply where
  stores : List Store
  result : Option Int32
  deriving DecidableEq, Repr

/-- `return -1` before anything has been stored. -/
def Reply.fail : Reply :=
  { stores := [], result := some (-1) }

/-! ## Behind a descriptor -/

/-- What `stati` reads from an inode. -/
structure Stat where
  type : UInt16
  dev : UInt32
  ino : UInt32
  nlink : UInt16
  size : UInt32

/-- A `struct file` as a read meets it.  A pipe comes with the state in which
`piperead` gets the lock for the last time, a device with the characters typed
until the call ends. -/
inductive File where
  | pipe (readable : Bool) (p : Pipe) (killed : Bool)
  | inode (readable : Bool) (st : Stat) (off : UInt32) (data : Bytes)
  | device (readable : Bool) (st : Stat) (typed : List UInt8)

def File.readable : File → Bool
  | pipe readable _ _ => readable
  | inode readable _ _ _ => readable
  | device readable _ _ => readable

/-- The loop of `consoleread`: what it stores, and whether it comes to an end
before the reader is killed. -/
def consoleCopy : Nat → List UInt8 → List UInt8 × Bool
  | 0, _ => ([], true)
  | _ + 1, [] => ([], false)
  | n + 1, c :: typed =>
    if c = 4 then ([], true)
    else if c = 10 then ([c], true)
    else ((c :: (consoleCopy n typed).1), (consoleCopy n typed).2)

/-- The bytes `readi` copies of an inode's data. -/
def readiBytes (size off : UInt32) (data : Bytes) (n : UInt32) : Option (List UInt8) :=
  if off > size ∨ off + n < off then none
  else some (data.slice off.toNat (if off + n > size then size - off else n).toNat)

/-- `fileread(f, p, n)`: the bytes stored from `p` on, and the result. -/
def fileread (f : File) (n : UInt32) : List UInt8 × Option Int32 :=
  if f.readable = false then ([], some (-1))
  else
    match f with
    | .pipe _ p killed =>
      match (piperead killed n.toNat p).1 with
      | .done bytes => (bytes, some (Int32.ofNat bytes.length))
      | .failed => ([], some (-1))
      | .asleep => ([], none)
    | .inode _ st off data =>
      match readiBytes st.size off data n with
      | some bytes => (bytes, some (Int32.ofNat bytes.length))
      | none => ([], some (-1))
    | .device _ _ typed =>
      let copied := consoleCopy n.toNat typed
      (copied.1, some (if copied.2 then Int32.ofNat copied.1.length else -1))

/-- `stati`: the stores into a `struct stat` at `p`. -/
def stati (st : Stat) (p : UInt32) : List Store :=
  storeAll (p + 4) ((Bytes.le32 st.dev).slice 0 4) ++
    storeAll (p + 8) ((Bytes.le32 st.ino).slice 0 4) ++
    storeAll p ((Bytes.le16 st.type).slice 0 2) ++
    storeAll (p + 12) ((Bytes.le16 st.nlink).slice 0 2) ++
    storeAll (p + 16) ((Bytes.le32 st.size).slice 0 4)

/-- `sizeof(struct stat)`. -/
def statSize : Nat := 20

def filestat (f : File) (p : UInt32) : Reply :=
  match f with
  | .pipe _ _ _ => .fail
  | .inode _ st _ _ => { stores := stati st p, result := some 0 }
  | .device _ st _ => { stores := stati st p, result := some 0 }

/-! ## The kernel around a call -/

/-- An entry of the process table as `getmeminfo` reads it; `name` gives the
bytes from `p->name` on, `leafPages` the present page directory entries. -/
structure ProcInfo where
  pid : Int32
  name : Bytes
  sz : UInt32
  leafPages : UInt32

/-- What the call finds in the kernel. -/
structure Kern where
  ofile : UInt32 → Option File
  procs : List ProcInfo
  /-- The descriptors of a new pipe, when `pipealloc` and `fdalloc` succeed. -/
  newPipe : Option (UInt32 × UInt32)
  /-- The pid of a new thread, when `allocproc` succeeds. -/
  allocproc : Option Int32
  /-- How often `mutex_lock` finds the lock taken. -/
  spins : Nat
  /-- The result of a call that stores nothing. -/
  result : Int32

/-- `NOFILE`. -/
def nofile : UInt32 := 16

section Calls

variable (u : Caller) (k : Kern)

def argfd (n : UInt32) : Option File := do
  let fd ← u.argint n
  -- `fd < 0 || fd >= NOFILE` of the source, as one unsigned comparison
  if fd ≥ nofile then none else k.ofile fd

/-- A call that stores nothing once its arguments are fetched. -/
def quiet {α : Type} (args : Option α) : Reply :=
  match args with
  | none => .fail
  | some _ => { stores := [], result := some k.result }

def sysRead : Reply :=
  match argfd u k 0, u.argint 2 with
  | some f, some n =>
    match u.argptr 1 n.toInt32 with
    | some p =>
      let got := fileread f n
      { stores := storeAll p got.1, result := got.2 }
    | none => .fail
  | _, _ => .fail

def sysWrite : Reply :=
  quiet k do
    let _ ← argfd u k 0
    let n ← u.argint 2
    u.argptr 1 n.toInt32

def sysFstat : Reply :=
  match argfd u k 0, u.argptr 1 (Int32.ofNat statSize) with
  | some f, some p => filestat f p
  | _, _ => .fail

def sysPipe : Reply :=
  match u.argptr 0 8, k.newPipe with
  | some p, some (fd0, fd1) =>
    { stores := storeAll p ((Bytes.le32 fd0).slice 0 4) ++
        storeAll (p + 4) ((Bytes.le32 fd1).slice 0 4)
      result := some 0 }
  | _, _ => .fail

/-- `getmeminfo(pid, name, len)`. -/
def getmeminfo (pid : Int32) (name len : UInt32) : Reply :=
  match k.procs.find? fun p => p.pid = pid with
  | none => { stores := [], result := some 0 }
  | some p =>
    let mem := pgroundup p.sz + pgsize + pgsize + p.leafPages * pgsize
    { stores := storeAll name (p.name.slice 0 len.toNat), result := some mem.toInt32 }

def sysGetmeminfo : Reply :=
  match u.argint 0, u.argstr 1, u.argint 2 with
  | some pid, some name, some len => getmeminfo k pid.toInt32 name.1 len
  | _, _, _ => .fail

/-- `thread_create(fcn, arg, stack)`; `fcn` goes into the trap frame only. -/
def threadCreate (arg stack : UInt32) : Reply :=
  match k.allocproc with
  | none => .fail
  | some pid =>
    let top := stack + pgsize
    { stores := storeAll (top - 4) ((Bytes.le32 arg).slice 0 4) ++
        storeAll (top - 4 - 4) ((Bytes.le32 0xffffffff).slice 0 4)
      result := some pid }

def sysThreadCreate : Reply :=
  match u.argptr 0 4, u.argptr 1 4, u.argptr 2 4 with
  | some _, some arg, some stack => threadCreate k arg stack
  | _, _, _ => .fail

/-- `thread_sleep(chan, lk)`: `mutex_unlock` stores 0, each `xchg` of
`mutex_lock` stores 1. -/
def threadSleep (lk : UInt32) : Reply :=
  if lk = 0 then { stores := [], result := none }
  else
    { stores := storeAll lk ((Bytes.le32 0).slice 0 4) ++
        (List.replicate (k.spins + 1) ((Bytes.le32 1).slice 0 4)).flatMap (storeAll lk)
      result := some 0 }

def sysThreadSleep : Reply :=
  match u.argptr 0 4, u.argptr 1 4 with
  | some _, some lk => threadSleep k lk
  | _, _ => .fail

/-- The loop of `sys_exec` over the words at `uargv`. -/
def execArgs (uargv : UInt32) : Nat → UInt32 → Option Unit
  | 0, _ => none
  | fuel + 1, i => do
      let uarg ← u.fetchint (uargv + 4 * i)
      if uarg = 0 then some ()
      else
        let _ ← u.fetchstr uarg
        execArgs uargv fuel (i + 1)

/-- `MAXARG`. -/
def maxarg : Nat := 32

/-- The system call number `num` of `syscalls[]`. -/
def syscalls : Nat → Option Reply
  | 1 => some (quiet k (some ()))                                       -- fork
  | 2 => some { stores := [], result := none }                          -- exit
  | 3 => some (quiet k (some ()))                                       -- wait
  | 4 => some (sysPipe u k)
  | 5 => some (sysRead u k)
  | 6 => some (quiet k (u.argint 0))                                    -- kill
  | 7 => some (quiet k do                                               -- exec
      let _ ← u.argstr 0
      execArgs u (← u.argint 1) maxarg 0)
  | 8 => some (sysFstat u k)
  | 9 => some (quiet k (u.argstr 0))                                    -- chdir
  | 10 => some (quiet k (argfd u k 0))                                  -- dup
  | 11 => some (quiet k (some ()))                                      -- getpid
  | 12 => some (quiet k (u.argint 0))                                   -- sbrk
  | 13 => some (quiet k (u.argint 0))                                   -- sleep
  | 14 => some (quiet k (some ()))                                      -- uptime
  | 15 => some (quiet k do let _ ← u.argstr 0; u.argint 1)              -- open
  | 16 => some (sysWrite u k)
  | 17 => some (quiet k do let _ ← u.argstr 0; let _ ← u.argint 1; u.argint 2) -- mknod
  | 18 => some (quiet k (u.argstr 0))                                   -- unlink
  | 19 => some (quiet k do let _ ← u.argstr 0; u.argstr 1)              -- link
  | 20 => some (quiet k (u.argstr 0))                                   -- mkdir
  | 21 => some (quiet k (argfd u k 0))                                  -- close
  | 22 => some (sysThreadCreate u k)
  | 23 => some (quiet k (some ()))                                      -- thread_join
  | 24 => some { stores := [], result := none }                         -- thread_exit
  | 25 => some (sysThreadSleep u k)
  | 26 => some (quiet k (u.argptr 0 4))                                 -- thread_wakeup
  | 27 => some (quiet k (some ()))                                      -- memtop
  | 28 => some (sysGetmeminfo u k)
  | _ => none

/-- `syscall`, with the number from `%eax`. -/
def syscall (num : Nat) : Reply :=
  (syscalls u k num).getD .fail

/-! ## What a call is asked to store -/

/-- The user range that the arguments of a call name for its results. -/
def target : Nat → Option (UInt32 × Nat)
  | 4 => do return (← u.argint 0, 8)
  | 5 => do return (← u.argint 1, (← u.argint 2).toNat)
  | 8 => do return (← u.argint 1, statSize)
  | 22 => do return ((← u.argint 2) + pgsize - 4 - 4, 8)
  | 25 => do return (← u.argint 1, 4)
  | 28 => do return (← u.argint 1, (← u.argint 2).toNat)
  | _ => none

/-- The call stores below `sz` only, and answers -1 to a request outside. -/
structure Obeys (num : Nat) : Prop where
  inside : ∀ store ∈ (syscall u k num).stores, store.1 < u.sz
  outside : ∀ p len, target u num = some (p, len) → ¬ u.Inside p len →
    syscall u k num = .fail

/-- The two calls whose checks do not cover what they store: `len` bytes at
`name`, and a page at `stack`. -/
structure Guarded (num : Nat) : Prop where
  getmeminfo : num = 28 → ∀ pid name len, u.argint 0 = some pid → u.argstr 1 = some name →
    u.argint 2 = some len → u.Inside name.1 len.toNat
  threadCreate : num = 22 → ∀ fcn arg stack, u.argptr 0 4 = some fcn → u.argptr 1 4 = some arg →
    u.argptr 2 4 = some stack → k.allocproc.isSome → u.Inside stack pgsize.toNat

end Calls

/-! ## Stores below `sz` -/

variable {u : Caller} {k : Kern}

theorem Caller.Inside.shift {p : UInt32} {len o n : Nat} (inside : u.Inside p len)
    (fits : o + n ≤ len) : u.Inside (p + UInt32.ofNat o) n := by
  have limit := u.sz_le
  have whole : p.toNat + len ≤ u.sz.toNat := inside
  rw [Caller.Inside, UInt32.toNat_add, UInt32.toNat_ofNat', Nat.mod_eq_of_lt (a := o) (by omega),
    Nat.mod_eq_of_lt (by omega)]
  omega

theorem storeAll_inside {p : UInt32} {bytes : List UInt8} (inside : u.Inside p bytes.length) :
    ∀ store ∈ storeAll p bytes, store.1 < u.sz := by
  intro store mem
  obtain ⟨⟨b, i⟩, item, rfl⟩ := List.mem_map.mp mem
  have low : i < bytes.length := by
    simpa using List.snd_lt_of_mem_zipIdx item
  have at_i : u.Inside (p + UInt32.ofNat i) 1 := inside.shift low
  exact UInt32.lt_iff_toNat_lt.mpr at_i

/-- A field of a structure that lies below `sz`. -/
theorem storeAll_field {p : UInt32} {len o n : Nat} {src : Bytes} (inside : u.Inside p len)
    (fits : o + n ≤ len) : ∀ store ∈ storeAll (p + UInt32.ofNat o) (src.slice 0 n),
      store.1 < u.sz :=
  storeAll_inside (by simpa using inside.shift fits)

theorem consoleCopy_length_le (n : Nat) (typed : List UInt8) :
    (consoleCopy n typed).1.length ≤ n := by
  induction n generalizing typed with
  | zero => simp [consoleCopy]
  | succ n ih =>
    cases typed with
    | nil => simp [consoleCopy]
    | cons c typed =>
      rw [consoleCopy]
      split
      · simp
      · split
        · simp
        · exact Nat.succ_le_succ (ih typed)

theorem readiBytes_length_le {size off n : UInt32} {data : Bytes} {bytes : List UInt8}
    (h : readiBytes size off data n = some bytes) : bytes.length ≤ n.toNat := by
  rw [readiBytes] at h
  split at h
  · cases h
  · next bounds =>
      obtain rfl := Option.some.inj h
      rw [Bytes.length_slice]
      simp only [gt_iff_lt, not_or, UInt32.not_lt, UInt32.le_iff_toNat_le] at bounds
      split
      · next past =>
          rw [gt_iff_lt, UInt32.lt_iff_toNat_lt] at past
          rw [UInt32.toNat_sub_of_le _ _ (UInt32.le_iff_toNat_le.mpr bounds.1)]
          rw [UInt32.toNat_add] at past bounds
          omega
      · exact Nat.le_refl _

/-- `fileread` stores at most `n` bytes, whatever the file is. -/
theorem fileread_length_le (f : File) (n : UInt32) : (fileread f n).1.length ≤ n.toNat := by
  rw [fileread.eq_def]
  split
  · exact Nat.zero_le _
  · cases f with
    | pipe readable p killed =>
      rcases piperead_cases killed n.toNat p with ⟨out, -⟩ | ⟨out, -, -⟩ | ⟨out, -⟩
      · simp [out]
      · simp [out]
      · simpa [out] using pipereadCopy_length_le n.toNat p
    | inode readable st off data =>
      cases got : readiBytes st.size off data n with
      | none => simp [got]
      | some bytes => simpa [got] using readiBytes_length_le got
    | device readable st typed => exact consoleCopy_length_le n.toNat typed

theorem stati_inside {st : Stat} {p : UInt32} (inside : u.Inside p statSize) :
    ∀ store ∈ stati st p, store.1 < u.sz := by
  have first : u.Inside p 2 := by
    simpa using inside.shift (o := 0) (n := 2) (by decide)
  simp only [stati, List.mem_append]
  rintro store ((((dev | ino) | type) | nlink) | size)
  · exact storeAll_field (o := 4) inside (by decide) store dev
  · exact storeAll_field (o := 8) inside (by decide) store ino
  · exact storeAll_inside (by simpa using first) store type
  · exact storeAll_field (o := 12) inside (by decide) store nlink
  · exact storeAll_field (o := 16) inside (by decide) store size

/-! ## Call by call -/

/-- A call obeys when it stores nothing and is asked for nothing. -/
theorem obeys_silent {num : Nat} (stores : (syscall u k num).stores = [])
    (asked : target u num = none) : Obeys u k num := by
  refine ⟨by simp [stores], fun p len named => ?_⟩
  rw [asked] at named
  cases named

/-- A call that fails obeys. -/
theorem obeys_fail {num : Nat} (failed : syscall u k num = .fail) : Obeys u k num :=
  ⟨by simp [failed, Reply.fail], fun _ _ _ _ => failed⟩

/-- A call whose target lies below `sz` obeys when its stores do. -/
theorem obeys_inside {num : Nat} (p : UInt32) (len : Nat) (asked : target u num = some (p, len))
    (inside : u.Inside p len) (stores : ∀ store ∈ (syscall u k num).stores, store.1 < u.sz) :
    Obeys u k num := by
  refine ⟨stores, fun p' len' named out => ?_⟩
  rw [asked, Option.some.injEq, Prod.mk.injEq] at named
  obtain ⟨rfl, rfl⟩ := named
  exact absurd inside out

@[simp] theorem quiet_stores {α : Type} (k : Kern) (args : Option α) :
    (quiet k args).stores = [] := by
  cases args <;> rfl

/-- The calls other than `pipe`, `read`, `fstat`, `thread_create`, `thread_sleep`
and `getmeminfo` store nothing. -/
theorem syscall_silent {num : Nat} (other : num ∉ [4, 5, 8, 22, 25, 28]) :
    (syscall u k num).stores = [] ∧ target u num = none := by
  simp only [List.mem_cons, List.not_mem_nil, or_false, not_or] at other
  constructor
  · rw [syscall]
    unfold syscalls
    split <;> simp_all [sysWrite, Reply.fail]
  · unfold target
    split <;> simp_all

theorem sysPipe_obeys : Obeys u k 4 := by
  have call : syscall u k 4 = sysPipe u k := rfl
  rcases passed : u.argptr 0 8 with _ | p
  · exact obeys_fail (by simp [call, sysPipe, passed])
  · obtain ⟨fetched, -, -, inside⟩ := Caller.argptr_eq_some.mp passed
    have inside : u.Inside p 8 := inside
    refine obeys_inside p 8 (by simp [target, fetched]) inside ?_
    rw [call, sysPipe, passed]
    rcases k.newPipe with _ | ⟨fd0, fd1⟩
    · simp [Reply.fail]
    · simp only [List.mem_append]
      rintro store (first | second)
      · have half : u.Inside p 4 := by simpa using inside.shift (o := 0) (n := 4) (by decide)
        exact storeAll_inside (by simpa using half) store first
      · exact storeAll_field (o := 4) inside (by decide) store second

theorem sysRead_obeys : Obeys u k 5 := by
  have call : syscall u k 5 = sysRead u k := rfl
  rcases file : argfd u k 0 with _ | f
  · exact obeys_fail (by simp [call, sysRead, file])
  rcases size : u.argint 2 with _ | n
  · exact obeys_fail (by simp [call, sysRead, file, size])
  rcases passed : u.argptr 1 n.toInt32 with _ | p
  · exact obeys_fail (by simp [call, sysRead, file, size, passed])
  obtain ⟨fetched, -, -, inside⟩ := Caller.argptr_eq_some.mp passed
  have inside : u.Inside p n.toNat := inside
  refine obeys_inside p n.toNat (by simp [target, fetched, size]) inside ?_
  simp only [call, sysRead, file, size, passed]
  have fits := fileread_length_le f n
  exact storeAll_inside (Nat.le_trans (Nat.add_le_add_left fits _) inside)

theorem sysFstat_obeys : Obeys u k 8 := by
  have call : syscall u k 8 = sysFstat u k := rfl
  rcases file : argfd u k 0 with _ | f
  · exact obeys_fail (by simp [call, sysFstat, file])
  rcases passed : u.argptr 1 (Int32.ofNat statSize) with _ | p
  · exact obeys_fail (by simp [call, sysFstat, file, passed])
  obtain ⟨fetched, -, -, inside⟩ := Caller.argptr_eq_some.mp passed
  have inside : u.Inside p statSize := inside
  refine obeys_inside p statSize (by simp [target, fetched]) inside ?_
  simp only [call, sysFstat, file, passed]
  cases f with
  | pipe readable p killed => simp [filestat, Reply.fail]
  | inode readable st off data => exact stati_inside inside
  | device readable st typed => exact stati_inside inside

theorem sysThreadSleep_obeys : Obeys u k 25 := by
  have call : syscall u k 25 = sysThreadSleep u k := rfl
  rcases chan : u.argptr 0 4 with _ | c
  · exact obeys_fail (by simp [call, sysThreadSleep, chan])
  rcases passed : u.argptr 1 4 with _ | lk
  · exact obeys_fail (by simp [call, sysThreadSleep, chan, passed])
  obtain ⟨fetched, -, -, inside⟩ := Caller.argptr_eq_some.mp passed
  have inside : u.Inside lk 4 := inside
  refine obeys_inside lk 4 (by simp [target, fetched]) inside ?_
  simp only [call, sysThreadSleep, chan, passed, threadSleep]
  split
  · simp
  · simp only [List.mem_append, List.mem_flatMap]
    rintro store (unlock | ⟨bytes, again, lock⟩)
    · exact storeAll_inside (by simpa using inside) store unlock
    · rw [List.eq_of_mem_replicate again] at lock
      exact storeAll_inside (by simpa using inside) store lock

/-! ## The two calls that trust their caller -/

/-- What `getmeminfo` returns is a number of pages. -/
theorem pages_ne (sz leaf : UInt32) :
    (pgroundup sz + pgsize + pgsize + leaf * pgsize).toInt32 ≠ -1 := by
  have whole : (pgroundup sz).toNat % 2 ^ 12 = 0 := by
    rw [pgroundup, UInt32.toNat_and, Nat.and_mod_two_pow]
    exact Nat.and_zero _
  intro same
  have words : (pgroundup sz + pgsize + pgsize + leaf * pgsize).toNat = 2 ^ 32 - 1 := by
    have := congrArg (fun x : Int32 => x.toUInt32.toNat) same
    exact this
  have page : pgsize.toNat = 4096 := rfl
  simp only [UInt32.toNat_add, UInt32.toNat_mul, page] at words
  omega

theorem sysGetmeminfo_obeys : Obeys u k 28 ↔
    ∀ pid name len, u.argint 0 = some pid → u.argstr 1 = some name → u.argint 2 = some len →
      u.Inside name.1 len.toNat := by
  have call : syscall u k 28 = sysGetmeminfo u k := rfl
  constructor
  · intro obeys pid name len at_pid at_name at_len
    by_contra out
    have asked : target u 28 = some (name.1, len.toNat) := by
      simp [target, (Caller.argstr_eq_some at_name).1, at_len]
    have failed := obeys.outside _ _ asked out
    simp only [call, sysGetmeminfo, at_pid, at_name, at_len, getmeminfo, Reply.fail] at failed
    split at failed
    · simp at failed
    · simp only [Reply.mk.injEq, Option.some.injEq] at failed
      exact pages_ne _ _ failed.2
  · intro guarded
    rcases at_pid : u.argint 0 with _ | pid
    · exact obeys_fail (by simp [call, sysGetmeminfo, at_pid])
    rcases at_name : u.argstr 1 with _ | name
    · exact obeys_fail (by simp [call, sysGetmeminfo, at_pid, at_name])
    rcases at_len : u.argint 2 with _ | len
    · exact obeys_fail (by simp [call, sysGetmeminfo, at_pid, at_name, at_len])
    have inside := guarded pid name len at_pid at_name at_len
    refine obeys_inside name.1 len.toNat ?_ inside ?_
    · simp [target, (Caller.argstr_eq_some at_name).1, at_len]
    · simp only [call, sysGetmeminfo, at_pid, at_name, at_len, getmeminfo]
      split
      · simp
      · exact storeAll_inside (by simpa using inside)

/-- The two words `thread_create` stores are the last of the page at `stack`. -/
theorem stackTop_inside {stack : UInt32} (low : stack < u.sz) :
    u.Inside (stack + pgsize - 4 - 4) 8 ↔ u.Inside stack pgsize.toNat := by
  have limit := u.sz_le
  have := UInt32.lt_iff_toNat_lt.mp low
  have page : pgsize.toNat = 4096 := rfl
  have word : (4 : UInt32).toNat = 4 := rfl
  rw [Caller.Inside, Caller.Inside, UInt32.toNat_sub, UInt32.toNat_sub, UInt32.toNat_add, page,
    word]
  omega

theorem sysThreadCreate_obeys : Obeys u k 22 ↔
    ∀ fcn arg stack, u.argptr 0 4 = some fcn → u.argptr 1 4 = some arg →
      u.argptr 2 4 = some stack → k.allocproc.isSome → u.Inside stack pgsize.toNat := by
  have call : syscall u k 22 = sysThreadCreate u k := rfl
  constructor
  · intro obeys fcn arg stack at_fcn at_arg at_stack allocated
    obtain ⟨fetched, -, low, -⟩ := Caller.argptr_eq_some.mp at_stack
    obtain ⟨pid, at_pid⟩ := Option.isSome_iff_exists.mp allocated
    by_contra out
    have asked : target u 22 = some (stack + pgsize - 4 - 4, 8) := by simp [target, fetched]
    have failed := obeys.outside _ _ asked (fun inside => out ((stackTop_inside low).mp inside))
    have stored := congrArg (fun r : Reply => r.stores.length) failed
    simp [call, sysThreadCreate, at_fcn, at_arg, at_stack, threadCreate, at_pid, Reply.fail,
      storeAll] at stored
  · intro guarded
    rcases at_fcn : u.argptr 0 4 with _ | fcn
    · exact obeys_fail (by simp [call, sysThreadCreate, at_fcn])
    rcases at_arg : u.argptr 1 4 with _ | arg
    · exact obeys_fail (by simp [call, sysThreadCreate, at_fcn, at_arg])
    rcases at_stack : u.argptr 2 4 with _ | stack
    · exact obeys_fail (by simp [call, sysThreadCreate, at_fcn, at_arg, at_stack])
    rcases at_pid : k.allocproc with _ | pid
    · exact obeys_fail (by
        simp [call, sysThreadCreate, at_fcn, at_arg, at_stack, threadCreate, at_pid])
    obtain ⟨fetched, -, low, -⟩ := Caller.argptr_eq_some.mp at_stack
    have page := guarded fcn arg stack at_fcn at_arg at_stack (by simp [at_pid])
    have inside := (stackTop_inside low).mpr page
    refine obeys_inside _ _ (by simp [target, fetched]) inside ?_
    simp only [call, sysThreadCreate, at_fcn, at_arg, at_stack, threadCreate, at_pid,
      List.mem_append]
    have first : u.Inside (stack + pgsize - 4 - 4) 4 := by
      simpa using inside.shift (o := 0) (n := 4) (by decide)
    have second : u.Inside (stack + pgsize - 4) 4 := by
      have := inside.shift (o := 4) (n := 4) (by decide)
      have same : stack + pgsize - 4 - 4 + UInt32.ofNat 4 = stack + pgsize - 4 :=
        UInt32.sub_add_cancel _ _
      rwa [same] at this
    rintro store (word | word)
    · exact storeAll_inside (by simpa using second) store word
    · exact storeAll_inside (by simpa using first) store word

/-- **System calls store below `sz` only.**  For every state of the caller, every
call number and all argument words: a call stores only at addresses below `sz`,
and answers -1 to a request that is not below `sz` without storing anything,
exactly when it is not a `getmeminfo` with a longer `len` than there is room
after `name`, nor a `thread_create` with less than a page after `stack`. -/
theorem syscall_stores (u : Caller) (k : Kern) (num : Nat) : Obeys u k num ↔ Guarded u k num := by
  constructor
  · intro obeys
    refine ⟨?_, ?_⟩
    · rintro rfl
      exact sysGetmeminfo_obeys.mp obeys
    · rintro rfl
      exact sysThreadCreate_obeys.mp obeys
  · intro guarded
    by_cases other : num ∈ [4, 5, 8, 22, 25, 28]
    · simp only [List.mem_cons, List.not_mem_nil, or_false] at other
      rcases other with rfl | rfl | rfl | rfl | rfl | rfl
      · exact sysPipe_obeys
      · exact sysRead_obeys
      · exact sysFstat_obeys
      · exact sysThreadCreate_obeys.mpr (guarded.threadCreate rfl)
      · exact sysThreadSleep_obeys
      · exact sysGetmeminfo_obeys.mpr (guarded.getmeminfo rfl)
    · obtain ⟨stores, asked⟩ := syscall_silent other
      exact obeys_silent stores asked

/-- A process of one page: `%esp` is 0, and the words 4, 8 and 12 are the
arguments. -/
def onePage (a0 a1 a2 : UInt32) : Caller where
  sz := 4096
  esp := 0
  mem := Bytes.put32 (Bytes.put32 (Bytes.put32 (fun _ => 0) 4 a0) 8 a1) 12 a2
  below := by decide

/-- A kernel with one process and a free entry in its table. -/
def oneProcess : Kern where
  ofile _ := none
  procs := [{ pid := 1, name := fun _ => 0, sz := 4096, leafPages := 1 }]
  newPipe := none
  allocproc := some 2
  spins := 0
  result := 0

/-- **Two calls store above `sz`**: `getmeminfo` with a buffer of 16 bytes that
starts 6 bytes below `sz`, and `thread_create` with a stack 8 bytes below it. -/
theorem stores_above_sz :
    (∃ store ∈ (syscall (onePage 1 4090 16) oneProcess 28).stores, ¬ store.1 < 4096) ∧
      (∃ store ∈ (syscall (onePage 0 0 4088) oneProcess 22).stores, ¬ store.1 < 4096) ∧
      ¬ Obeys (onePage 1 4090 16) oneProcess 28 ∧ ¬ Obeys (onePage 0 0 4088) oneProcess 22 := by
  have first : ∃ store ∈ (syscall (onePage 1 4090 16) oneProcess 28).stores,
      ¬ store.1 < 4096 := by
    decide +kernel
  have second : ∃ store ∈ (syscall (onePage 0 0 4088) oneProcess 22).stores,
      ¬ store.1 < 4096 := by
    decide +kernel
  refine ⟨first, second, fun obeys => ?_, fun obeys => ?_⟩
  · obtain ⟨store, mem, above⟩ := first
    exact above (obeys.inside store mem)
  · obtain ⟨store, mem, above⟩ := second
    exact above (obeys.inside store mem)

end BasicOS.Usys
