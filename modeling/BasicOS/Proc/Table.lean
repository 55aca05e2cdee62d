/-
# BasicOS.Proc.Table — the process table of proc.c

`struct proc` with the fields the calls below read and write, the table itself,
and `fork`, `thread_create`, `exec`, `exit`, `thread_exit`, `wait`,
`thread_join` and `growproc` as functions on it.  Each call is one step; `wait`
and `thread_join` are one scan under `ptable.lock`, which reaps a child, returns
-1 or puts the caller to sleep.  The scheduler, `sleep`, `wakeup` and `kill` are
steps of their own.

Page directories are numbered in the order they are made, so that a directory
made later is never confused with a freed one.  `freed` lists the directories
passed to `freevm`, in order.  Whether memory can be had is up to the caller of
the model: every allocation has a flag that says how it went.
-/
import BasicOS.Param
import Mathlib.Data.List.FinRange
import Mathlib.Logic.Function.Basic

namespace BasicOS.Ptable

open Function

set_option autoImplicit false

inductive ProcState where
  | unused | embryo | sleeping | runnable | running | zombie
  deriving DecidableEq, Repr

/-- A pointer to an entry of `ptable.proc`. -/
abbrev Slot := Fin nproc

/-- What a process sleeps on: the address of a `struct proc`, or another one. -/
inductive Chan where
  | proc (s : Slot)
  | addr (a : Nat)
  deriving DecidableEq, Repr

structure Proc where
  sz : UInt32
  pgdir : Option Nat
  state : ProcState
  pid : Nat
  parent : Option Slot
  chan : Option Chan
  killed : Bool
  isthread : Bool
  deriving DecidableEq, Repr

structure Table where
  proc : Slot → Proc
  initproc : Slot
  nextpid : Nat
  /-- The number of page directories made so far. -/
  nextPgdir : Nat
  /-- The page directories passed to `freevm`. -/
  freed : List Nat

def Table.set (t : Table) (s : Slot) (p : Proc) : Table :=
  { t with proc := update t.proc s p }

/-! ## Waking up -/

def Proc.wake (chan : Option Chan) (p : Proc) : Proc :=
  if p.state = .sleeping ∧ p.chan = chan then { p with state := .runnable } else p

/-- Wake up all processes sleeping on `chan`. -/
def wakeup1 (chan : Option Chan) (t : Table) : Table :=
  { t with proc := fun s => (t.proc s).wake chan }

/-! ## Making processes -/

/-- The first `UNUSED` entry of the table. -/
def firstUnused (t : Table) : Option Slot :=
  (List.finRange nproc).find? fun s => (t.proc s).state = .unused

/-- An entry becomes an `EMBRYO` with a new pid. -/
def Table.embryo (t : Table) (s : Slot) : Table :=
  { t.set s { t.proc s with state := .embryo, pid := t.nextpid } with nextpid := t.nextpid + 1 }

/-- `allocproc`; `kstack` says whether `kalloc` finds a kernel stack. -/
def allocproc (t : Table) (kstack : Bool) : Option Slot × Table :=
  match firstUnused t with
  | none => (none, t)
  | some s =>
    let t := t.embryo s
    if kstack then (some s, t) else (none, t.set s { t.proc s with state := .unused })

/-- How `copyuvm` goes: `setupkvm` fails, a later allocation fails and the new
directory is freed again, or the copy is made. -/
inductive Copy where
  | noDirectory | undone | done
  deriving DecidableEq, Repr

/-- Make a page directory. -/
def Table.newPgdir (t : Table) : Table :=
  { t with nextPgdir := t.nextPgdir + 1 }

def Table.freevm (t : Table) (pgdir : Option Nat) : Table :=
  { t with freed := t.freed ++ pgdir.toList }

def fork (t : Table) (cur : Slot) (kstack : Bool) (copy : Copy) : Table × Int :=
  match allocproc t kstack with
  | (none, t) => (t, -1)
  | (some np, t) =>
    let abandoned := t.set np { t.proc np with pgdir := none, state := .unused }
    match copy with
    | .noDirectory => (abandoned, -1)
    | .undone => (abandoned.newPgdir.freevm (some t.nextPgdir), -1)
    | .done =>
      (t.newPgdir.set np
        { t.proc np with
          pgdir := some t.nextPgdir
          sz := (t.proc cur).sz
          parent := some cur
          state := .runnable }, (t.proc np).pid)

def threadCreate (t : Table) (cur : Slot) (kstack : Bool) : Table × Int :=
  match allocproc t kstack with
  | (none, t) => (t, -1)
  | (some np, t) =>
    (t.set np
      { t.proc np with
        pgdir := (t.proc cur).pgdir
        sz := (t.proc cur).sz
        parent := some cur
        isthread := true
        state := .runnable }, (t.proc np).pid)

/-- How `exec` goes: it fails before or after it has made a directory, or it
succeeds with an image of some size. -/
inductive Image where
  | noDirectory | undone | done (sz : UInt32)
  deriving DecidableEq, Repr

def exec (t : Table) (cur : Slot) : Image → Table × Int
  | .noDirectory => (t, -1)
  | .undone => (t.newPgdir.freevm (some t.nextPgdir), -1)
  | .done sz =>
    ((t.newPgdir.set cur { t.proc cur with pgdir := some t.nextPgdir, sz := sz }).freevm
      (t.proc cur).pgdir, 0)

/-! ## Ending and reaping processes -/

/-- Pass the children of `cur` to init. -/
def reparent (t : Table) (cur : Slot) : Table :=
  { t with proc := fun s =>
      if (t.proc s).parent = some cur then { t.proc s with parent := some t.initproc }
      else t.proc s }

/-- The common body of `exit` and `thread_exit`; `none` is the panic of init. -/
def leave (t : Table) (cur : Slot) : Option Table :=
  if cur = t.initproc then none
  else
    let orphans := (List.finRange nproc).any fun s =>
      (t.proc s).parent = some cur ∧ (t.proc s).state = .zombie
    let t := wakeup1 ((t.proc cur).parent.map .proc) t
    let t := reparent t cur
    let t := if orphans then wakeup1 (some (.proc t.initproc)) t else t
    some (t.set cur { t.proc cur with state := .zombie })

def exit (t : Table) (cur : Slot) : Option Table := leave t cur

def threadExit (t : Table) (cur : Slot) : Option Table := leave t cur

/-- The entries `wait` (`thread = false`) and `thread_join` (`thread = true`)
look at. -/
def kids (thread : Bool) (t : Table) (cur : Slot) : List Slot :=
  (List.finRange nproc).filter fun s =>
    (t.proc s).isthread = thread ∧ (t.proc s).parent = some cur

/-- The exited child a scan finds first. -/
def found (thread : Bool) (t : Table) (cur : Slot) : Option Slot :=
  (kids thread t cur).find? fun s => (t.proc s).state = .zombie

/-- The common loop of `wait` and `thread_join`: only `wait` frees the page
directory.  The second component is `none` when the caller goes to sleep. -/
def scan (thread : Bool) (t : Table) (cur : Slot) : Table × Option Int :=
  match found thread t cur with
  | some s =>
    let t' := if thread then t else t.freevm (t.proc s).pgdir
    (t'.set s { t.proc s with pid := 0, parent := none, killed := false, state := .unused },
      some (t.proc s).pid)
  | none =>
    if (kids thread t cur).isEmpty ∨ (t.proc cur).killed then (t, some (-1))
    else (t.set cur { t.proc cur with chan := some (.proc cur), state := .sleeping }, none)

def wait (t : Table) (cur : Slot) : Table × Option Int := scan false t cur

def threadJoin (t : Table) (cur : Slot) : Table × Option Int := scan true t cur

/-! ## Growing the address space -/

abbrev pgsize : UInt32 := 4096

abbrev kernbase : UInt32 := 0x80000000

def pgroundup (sz : UInt32) : UInt32 :=
  (sz + (pgsize - 1)) &&& ~~~(pgsize - 1)

/-- What `allocuvm` returns; `mem` says whether the pages it asks for are there. -/
def allocuvmSize (oldsz newsz : UInt32) (mem : Bool) : UInt32 :=
  if newsz ≥ kernbase then 0
  else if newsz < oldsz then oldsz
  else if pgroundup oldsz < newsz ∧ mem = false then 0
  else newsz

/-- What `deallocuvm` returns. -/
def deallocuvmSize (oldsz newsz : UInt32) : UInt32 :=
  if newsz ≥ oldsz then oldsz else newsz

/-- The size `growproc(n)` gives a process of size `sz`; `none` when it fails. -/
def growSize (isthread : Bool) (sz : UInt32) (n : Int32) (mem : Bool) : Option UInt32 :=
  if 0 < n then
    let grown := allocuvmSize sz (sz + n.toUInt32) mem
    if grown = 0 then none else some grown
  else if n < 0 then
    if isthread then none
    else
      let shrunk := deallocuvmSize sz (sz + n.toUInt32)
      if shrunk = 0 then none else some shrunk
  else some sz

/-- `if(curproc->isthread) curproc->parent->sz = sz`. -/
def growParent (t : Table) (cur : Slot) (sz : UInt32) : Table :=
  match (t.proc cur).isthread, (t.proc cur).parent with
  | true, some q => t.set q { t.proc q with sz := sz }
  | _, _ => t

/-- The loop of `growproc` over the table. -/
def growThreads (t : Table) (cur : Slot) : Table :=
  { t with
    proc := fun s =>
      if (t.proc s).isthread = true ∧
          ((t.proc s).parent = (t.proc cur).parent ∨ (t.proc s).parent = some cur) then
        { t.proc s with sz := (t.proc cur).sz }
      else t.proc s }

def growproc (t : Table) (cur : Slot) (n : Int32) (mem : Bool) : Table × Int :=
  match growSize (t.proc cur).isthread (t.proc cur).sz n mem with
  | none => (t, -1)
  | some sz =>
    let oldsz := (t.proc cur).sz
    let t := t.set cur { t.proc cur with sz := sz }
    (growThreads (growParent t cur sz) cur, oldsz.toNat)

/-! ## The machine -/

inductive Event where
  | fork (cur : Slot) (kstack : Bool) (copy : Copy)
  | threadCreate (cur : Slot) (kstack : Bool)
  | exec (cur : Slot) (image : Image)
  | exit (cur : Slot)
  | threadExit (cur : Slot)
  | wait (cur : Slot)
  | threadJoin (cur : Slot)
  | sbrk (cur : Slot) (n : Int32) (mem : Bool)
  /-- The scheduler picks a process. -/
  | schedule (s : Slot)
  | yield (cur : Slot)
  | sleep (cur : Slot) (chan : Chan)
  | wakeup (chan : Chan)
  | kill (pid : Nat)
  deriving DecidableEq, Repr

/-- The process that makes a call. -/
def Event.caller : Event → Option Slot
  | fork cur _ _ => some cur
  | threadCreate cur _ => some cur
  | exec cur _ => some cur
  | exit cur => some cur
  | threadExit cur => some cur
  | wait cur => some cur
  | threadJoin cur => some cur
  | sbrk cur _ _ => some cur
  | yield cur => some cur
  | sleep cur _ => some cur
  | schedule _ => none
  | wakeup _ => none
  | kill _ => none

/-- The entry `kill(pid)` finds first. -/
def target (t : Table) (pid : Nat) : Option Slot :=
  (List.finRange nproc).find? fun s => (t.proc s).pid = pid

def kill (t : Table) (pid : Nat) : Table × Int :=
  match target t pid with
  | some s =>
    let p := t.proc s
    (t.set s { p with
      killed := true
      state := if p.state = .sleeping then .runnable else p.state }, 0)
  | none => (t, -1)

/-- The effect of an event on the table. -/
def act (t : Table) : Event → Option Table
  | .fork cur kstack copy => some (fork t cur kstack copy).1
  | .threadCreate cur kstack => some (threadCreate t cur kstack).1
  | .exec cur image => some (exec t cur image).1
  | .exit cur => exit t cur
  | .threadExit cur => threadExit t cur
  | .wait cur => some (wait t cur).1
  | .threadJoin cur => some (threadJoin t cur).1
  | .sbrk cur n mem => some (growproc t cur n mem).1
  | .schedule s =>
    -- a process that resumes inside `sleep` clears its channel
    if (t.proc s).state = .runnable then
      some (t.set s { t.proc s with state := .running, chan := none })
    else none
  | .yield cur => some (t.set cur { t.proc cur with state := .runnable })
  | .sleep cur chan =>
    some (t.set cur { t.proc cur with chan := some chan, state := .sleeping })
  | .wakeup chan => some (wakeup1 (some chan) t)
  | .kill pid => some (kill t pid).1

/-- Only a running process makes calls. -/
def step (t : Table) (e : Event) : Option Table :=
  if ∀ cur ∈ e.caller, (t.proc cur).state = .running then act t e else none

/-- An entry that has never been used. -/
def Proc.blank : Proc :=
  { sz := 0, pgdir := none, state := .unused, pid := 0, parent := none, chan := none,
    killed := false, isthread := false }

/-- The table after `userinit`: one runnable process of one page. -/
def userinit : Table where
  proc := update (fun _ => Proc.blank) 0
    { Proc.blank with sz := pgsize, pgdir := some 0, state := .runnable, pid := 1 }
  initproc := 0
  nextpid := 2
  nextPgdir := 1
  freed := []

end BasicOS.Ptable
