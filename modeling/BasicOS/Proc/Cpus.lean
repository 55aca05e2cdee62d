/-
# BasicOS.Proc.Cpus — processors, ptable.lock and swtch

The process table of `Proc.Table` under any number of processors.  Each processor has
its `c->proc` and a point it has come to, in its scheduler or in a process.
`ptable.lock` is a word.  It is taken by the scheduler or by a process, and handed
over by `swtch` to whatever runs next on the processor.  The changes a process makes
under the lock are one step; `acquire`, `swtch`, the stores to `c->proc` and `release`
are steps of their own, and what `fork` does to the new entry outside the lock is too.

`growproc`, which takes the lock and changes no state, is left out.
-/
import BasicOS.Proc.Table

namespace BasicOS.Ptable

open Function

set_option autoImplicit false

/-! ## Processors -/

/-- What a process does between `acquire` and `release` of `ptable.lock`. -/
inductive Crit where
  | yield
  | sleep (chan : Chan)
  | wakeup (chan : Chan)
  | kill (pid : Nat)
  /-- The search of `allocproc`. -/
  | allocproc
  /-- `np->state = RUNNABLE`, at the end of `fork` and `thread_create`. -/
  | publish
  /-- `exit` and `thread_exit`, from `acquire` on. -/
  | exit
  /-- One scan of `wait` or `thread_join`. -/
  | scan (thread : Bool)
  deriving DecidableEq

/-- What a processor does next. -/
inductive Where where
  /-- The scheduler: `acquire(&ptable.lock)`. -/
  | idle
  /-- The scheduler at an entry of the table. -/
  | scan (k : Nat)
  /-- The scheduler: `swtch(&(c->scheduler), p->context)`. -/
  | entering (p : Slot)
  /-- The scheduler after the `swtch`: `c->proc = 0`. -/
  | leaving (p : Slot)
  /-- `wakeup` in an interrupt while the scheduler is idle. -/
  | handler (chan : Chan)
  | handled
  /-- In a process, without `ptable.lock`. -/
  | run (p : Slot)
  | crit (p : Slot) (todo : Crit)
  /-- `sched`: `swtch(&p->context, mycpu()->scheduler)`. -/
  | swtch (p : Slot)
  /-- `release(&ptable.lock)`. -/
  | unlock (p : Slot)
  deriving DecidableEq

namespace Where

/-- The processor has `ptable.lock`. -/
def holds : Where → Bool
  | .idle | .run _ => false
  | _ => true

/-- The process that the processor is at. -/
def cur : Where → Option Slot
  | .entering p | .leaving p | .run p | .crit p _ | .swtch p | .unlock p => some p
  | _ => none

/-- The process has changed its state in order to leave. -/
def parked : Where → Bool
  | .leaving _ | .swtch _ => true
  | _ => false

/-- The kernel stack of a process that the processor is on. -/
def stack : Where → Option Slot
  | .run p | .crit p _ | .swtch p | .unlock p => some p
  | _ => none

end Where

/-- Where a process goes on when it is switched to. -/
inductive Context where
  /-- `yield` and `forkret`: `release(&ptable.lock)`. -/
  | release
  /-- `sleep`: `p->chan = 0`, and then `release`. -/
  | awake
  /-- `sleep` in `wait` or `thread_join`: `p->chan = 0`, and then the next scan. -/
  | rescan (thread : Bool)
  deriving DecidableEq

/-- `np` of `fork` and `thread_create`: not allocated, without a stack, with a stack,
or complete. -/
inductive Making where
  | no
  | embryo (np : Slot)
  | stacked (np : Slot)
  | filled (np : Slot)
  deriving DecidableEq

namespace Making

def slot : Making → Option Slot
  | .no => none
  | .embryo np | .stacked np | .filled np => some np

def hasStack : Making → Bool
  | .stacked _ | .filled _ => true
  | _ => false

end Making

/-- The sections that come at a point of `fork`: outside it, all but the last; within
it, those of interrupts and the last. -/
def Crit.allowed : Crit → Making → Bool
  | .yield, _ | .wakeup _, _ => true
  | .publish, .filled _ => true
  | .publish, _ => false
  | _, .no => true
  | _, _ => false

structure Machine (C : Type) where
  table : Table
  /-- `ptable.lock.locked`. -/
  locked : Bool
  /-- `c->proc`. -/
  proc : C → Option Slot
  pos : C → Where
  context : Slot → Context
  /-- Whether the entry has a kernel stack. -/
  kstack : Slot → Bool
  making : Slot → Making

inductive Move (C : Type) where
  /-- The scheduler takes the lock. -/
  | acquire (c : C)
  /-- An interrupt on an idle processor takes it for a wakeup. -/
  | interrupt (c : C) (chan : Chan)
  /-- The process takes it. -/
  | enter (c : C) (todo : Crit)
  /-- The processor that has it makes its next step. -/
  | go (c : C)
  /-- `kalloc` in `allocproc`. -/
  | kalloc (c : C) (ok : Bool)
  /-- `copyuvm` in `fork`, and what follows. -/
  | copyuvm (c : C) (copy : Copy)
  /-- `thread_create` after `allocproc`. -/
  | share (c : C)
  deriving DecidableEq

section

variable {C : Type} [DecidableEq C]

namespace Machine

def state (m : Machine C) (p : Slot) : ProcState :=
  (m.table.proc p).state

def goto (m : Machine C) (c : C) (w : Where) : Machine C :=
  { m with pos := update m.pos c w }

/-- The scheduler at entry `k`. -/
def schedule (m : Machine C) (c : C) (k : Nat) : Machine C :=
  if inside : k < nproc then
    let p : Slot := ⟨k, inside⟩
    if (m.table.proc p).state = .runnable then
      { m.goto c (.entering p) with
        proc := update m.proc c (some p)
        table := m.table.set p { m.table.proc p with state := .running } }
    else m.goto c (.scan (k + 1))
  else { m.goto c .idle with locked := false }

/-- `swtch` to a process. -/
def resume (m : Machine C) (c : C) (p : Slot) : Machine C :=
  let awake := m.table.set p { m.table.proc p with chan := none }
  match m.context p with
  | .release => m.goto c (.unlock p)
  | .awake => { m.goto c (.unlock p) with table := awake }
  | .rescan thread => { m.goto c (.crit p (.scan thread)) with table := awake }

/-- A process under the lock. -/
def perform (m : Machine C) (c : C) (p : Slot) : Crit → Option (Machine C)
  | .yield =>
    some { m.goto c (.swtch p) with
      table := m.table.set p { m.table.proc p with state := .runnable }
      context := update m.context p .release }
  | .sleep chan =>
    some { m.goto c (.swtch p) with
      table := m.table.set p { m.table.proc p with chan := some chan, state := .sleeping }
      context := update m.context p .awake }
  | .wakeup chan => some { m.goto c (.unlock p) with table := wakeup1 (some chan) m.table }
  | .kill pid => some { m.goto c (.unlock p) with table := (Ptable.kill m.table pid).1 }
  | .allocproc =>
    match firstUnused m.table with
    | none => some (m.goto c (.unlock p))
    | some np =>
      some { m.goto c (.unlock p) with
        table := m.table.embryo np
        making := update m.making p (.embryo np) }
  | .publish =>
    match m.making p with
    | .filled np =>
      some { m.goto c (.unlock p) with
        table := m.table.set np { m.table.proc np with state := .runnable }
        making := update m.making p .no }
    | _ => none
  | .exit => (leave m.table p).map fun t => { m.goto c (.swtch p) with table := t }
  | .scan thread =>
    match found thread m.table p, Ptable.scan thread m.table p with
    | some s, (t, _) =>
      some { m.goto c (.unlock p) with table := t, kstack := update m.kstack s false }
    | none, (t, some _) => some { m.goto c (.unlock p) with table := t }
    | none, (t, none) =>
      some { m.goto c (.swtch p) with
        table := t
        context := update m.context p (.rescan thread) }

def go (m : Machine C) (c : C) : Option (Machine C) :=
  match m.pos c with
  | .idle | .run _ => none
  | .scan k => some (m.schedule c k)
  | .entering p => some (m.resume c p)
  | .leaving p => some { m.goto c (.scan (p + 1)) with proc := update m.proc c none }
  | .handler chan => some { m.goto c .handled with table := wakeup1 (some chan) m.table }
  | .handled => some { m.goto c .idle with locked := false }
  | .crit p todo => m.perform c p todo
  | .swtch p => some (m.goto c (.leaving p))
  | .unlock p => some { m.goto c (.run p) with locked := false }

/-- `fork` gives the new entry up: `np->state = UNUSED`. -/
def abandon (m : Machine C) (p np : Slot) : Machine C :=
  { m with
    table := m.table.set np { m.table.proc np with state := .unused }
    making := update m.making p .no }

def kalloc (m : Machine C) (p : Slot) (ok : Bool) : Option (Machine C) :=
  match m.making p, ok with
  | .embryo np, true =>
    some { m with
      kstack := update m.kstack np true
      context := update m.context np .release
      making := update m.making p (.stacked np) }
  | .embryo np, false => some (m.abandon p np)
  | _, _ => none

def copyuvm (m : Machine C) (p : Slot) (copy : Copy) : Option (Machine C) :=
  match m.making p, copy with
  | .stacked np, .noDirectory =>
    some { m.abandon p np with kstack := update m.kstack np false }
  | .stacked np, .undone =>
    let m := { m with table := m.table.newPgdir.freevm (some m.table.nextPgdir) }
    some { m.abandon p np with kstack := update m.kstack np false }
  | .stacked np, .done =>
    some { m with
      table := m.table.newPgdir.set np { m.table.proc np with
        pgdir := some m.table.nextPgdir
        sz := (m.table.proc p).sz
        parent := some p }
      making := update m.making p (.filled np) }
  | _, _ => none

def share (m : Machine C) (p : Slot) : Option (Machine C) :=
  match m.making p with
  | .stacked np =>
    some { m with
      table := m.table.set np { m.table.proc np with
        pgdir := (m.table.proc p).pgdir
        sz := (m.table.proc p).sz
        parent := some p
        isthread := true }
      making := update m.making p (.filled np) }
  | _ => none

def step (m : Machine C) : Move C → Option (Machine C)
  | .acquire c =>
    match m.pos c, m.locked with
    | .idle, false => some { m.goto c (.scan 0) with locked := true }
    | _, _ => none
  | .interrupt c chan =>
    match m.pos c, m.locked with
    | .idle, false => some { m.goto c (.handler chan) with locked := true }
    | _, _ => none
  | .enter c todo =>
    match m.pos c, m.locked with
    | .run p, false =>
      if todo.allowed (m.making p) then some { m.goto c (.crit p todo) with locked := true }
      else none
    | _, _ => none
  | .go c => m.go c
  | .kalloc c ok =>
    match m.pos c with
    | .run p => m.kalloc p ok
    | _ => none
  | .copyuvm c copy =>
    match m.pos c with
    | .run p => m.copyuvm p copy
    | _ => none
  | .share c =>
    match m.pos c with
    | .run p => m.share p
    | _ => none

/-- After `userinit`: the first process is RUNNABLE, and every processor is about to
look for a process. -/
def boot : Machine C where
  table := userinit
  locked := false
  proc _ := none
  pos _ := .idle
  context _ := .release
  kstack p := p = userinit.initproc
  making _ := .no

end Machine

end

end BasicOS.Ptable
