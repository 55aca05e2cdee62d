/-
# BasicOS.Dev.Ide — the disk queue of ide.c

`idequeue` and the `qnext` fields, the buffers in the hands of callers of `iderw`, and
a device that carries out one command at a time.  `iderw` and `ideintr` run under
`idelock`; the processes are at a monitor (`Lib.Monitor`), with a channel for each
buffer.  A processor that takes the interrupt, and the device itself, are taken as
processes that are in no call.

A buffer comes to `iderw` with whatever its holder has left in it.  The cache has a
block in one buffer only, so two buffers in use are for different blocks.

The state also records the buffers in the order of their requests (`arrived`), of the
commands given to the device (`started`) and of the interrupts (`served`), and whether
the device reported an error for the last request of a buffer (`failed`).
-/
import BasicOS.Lib.Monitor
import BasicOS.Lib.Path
import BasicOS.Param
import Mathlib.Data.Fintype.Card

namespace BasicOS.Ide

open Lib Function

set_option autoImplicit false
set_option linter.unusedSectionVars false

/-- The fields of `struct buf` that the driver uses, but for `qnext`. -/
structure Buf (α : Type) where
  dev : Nat
  blockno : Nat
  /-- `B_VALID`. -/
  valid : Bool
  /-- `B_DIRTY`. -/
  dirty : Bool
  data : α
  deriving DecidableEq, Repr

/-- Which disk, and which block of it. -/
def Buf.addr {α : Type} (b : Buf α) : Nat × Nat :=
  (b.dev % 2, b.blockno)

/-- `(b->flags & (B_VALID|B_DIRTY)) == B_VALID`. -/
def Buf.ready {α : Type} (b : Buf α) : Bool :=
  b.valid && !b.dirty

/-- What the device was told: the block, and the data to write to it, if any. -/
structure Command (α : Type) where
  addr : Nat × Nat
  write : Option α
  deriving DecidableEq, Repr

/-- The command that `idestart` gives for a buffer. -/
def Buf.command {α : Type} (b : Buf α) : Command α where
  addr := b.addr
  write := if b.dirty then some b.data else none

inductive Device (α : Type) where
  | idle
  | busy (command : Command α)
  /-- The command is completed, and `idewait(1)` will report whether without error. -/
  | done (command : Command α) (ok : Bool)
  deriving DecidableEq, Repr

def Device.command {α : Type} : Device α → Option (Command α)
  | idle => none
  | busy command => some command
  | done command _ => some command

/-- `B` are the buffers of the cache. -/
structure Disk (B α : Type) where
  /-- The pointer in `idequeue`, at `none`, and in the `qnext` of each buffer; a null
  pointer is `none`. -/
  slot : Option B → Option B
  buf : B → Buf α
  /-- The buffers whose lock a caller of `iderw` holds. -/
  held : B → Bool
  device : Device α
  block : Nat × Nat → α
  arrived : List B
  started : List B
  served : List B
  failed : B → Bool

/-- Where a process stands in `iderw`; its request is the one that arrived at the
place `ticket`. -/
inductive Task (B : Type) where
  | idle
  | entering (b : B)
  | waiting (b : B) (ticket : Nat)
  deriving DecidableEq, Repr

inductive Act (B α : Type) where
  /-- `iderw(b)` is called, with these contents of the buffer. -/
  | iderw (b : B) (buf : Buf α)
  /-- The device completes its command. -/
  | complete (ok : Bool)
  | ideintr
  /-- The call that has begun goes on. -/
  | go

section Model

variable {B α : Type} [DecidableEq B] [Fintype B]

/-- `idestart`. -/
def idestart (d : Disk B α) (b : B) : Option (Disk B α) :=
  if (d.buf b).blockno ≥ fssize then none
  else some { d with device := .busy (d.buf b).command, started := d.started ++ [b] }

/-- The loop `for(pp=&idequeue; *pp; pp=&(*pp)->qnext)`; it has to end within the
number of buffers. -/
def walk (slot : Option B → Option B) : Nat → Option B → Option (Option B)
  | 0, _ => none
  | fuel + 1, pp =>
    match slot pp with
    | none => some pp
    | some b => walk slot fuel (some b)

/-- Append `b` to the queue. -/
def enqueue (slot : Option B → Option B) (b : B) : Option (Option B → Option B) :=
  let slot := update slot (some b) none
  (walk slot (Fintype.card B + 1) none).map fun pp => update slot pp (some b)

/-- The test of the loop in `iderw`: return, or sleep on the buffer. -/
def await (d : Disk B α) (b : B) (ticket : Nat) : Stretch (Disk B α) (Task B) B :=
  if (d.buf b).ready then ⟨{ d with held := update d.held b false }, [], .idle, none⟩
  else ⟨d, [], .waiting b ticket, some b⟩

/-- `iderw` from where it takes `idelock`. -/
def request (d : Disk B α) (b : B) : Option (Stretch (Disk B α) (Task B) B) := do
  let slot ← enqueue d.slot b
  let ticket := d.arrived.length
  let d := { d with slot := slot, arrived := d.arrived ++ [b] }
  let d ← if slot none = some b then idestart d b else some d
  return await d b ticket

/-- The head of the queue, `b`, leaves it: a read takes the data, unless there was an
error; the flags do not depend on that. -/
def retire (d : Disk B α) (b : B) (command : Command α) (ok : Bool) : Disk B α :=
  let x := d.buf b
  let data := if x.dirty = false ∧ ok then d.block command.addr else x.data
  { d with
    slot := update d.slot none (d.slot (some b))
    buf := update d.buf b { x with data := data, valid := true, dirty := false }
    device := .idle
    served := d.served ++ [b]
    failed := update d.failed b (!ok) }

/-- `ideintr` for the head of the queue, `b`: the disk is started on the next. -/
def finish (d : Disk B α) (b : B) (command : Command α) (ok : Bool) :
    Option (Stretch (Disk B α) (Task B) B) := do
  let d := retire d b command ok
  let d ← match d.slot none with
    | none => some d
    | some b' => idestart d b'
  return ⟨d, [b], .idle, none⟩

/-- `ideintr`; without a request in the queue it does nothing. -/
def ideintr (d : Disk B α) : Option (Stretch (Disk B α) (Task B) B) :=
  match d.slot none, d.device with
  | none, _ => some ⟨d, [], .idle, none⟩
  | some b, .done command ok => finish d b command ok
  | some _, _ => none

/-- The sections under `idelock`. -/
def underLock (d : Disk B α) : Act B α → Task B → Option (Stretch (Disk B α) (Task B) B)
  | .go, .entering b => request d b
  | .go, .waiting b ticket => some (await d b ticket)
  | .ideintr, .idle => ideintr d
  | _, _ => none

/-- The call of `iderw`, up to `acquire(&idelock)`, and the device. -/
def unlocked (havedisk1 : Bool) (d : Disk B α) : Act B α → Task B → Option (Task B × Disk B α)
  | .iderw b buf, .idle =>
    if d.held b = false ∧ (∀ b', d.held b' = true → (d.buf b').addr ≠ buf.addr) ∧
        buf.ready = false ∧ (buf.dev = 0 ∨ havedisk1) then
      some (.entering b, { d with
        buf := update d.buf b buf
        held := update d.held b true })
    else none
  | .complete ok, .idle =>
    match d.device with
    | .busy command => some (.idle, { d with
        device := .done command ok
        block := match command.write with
          | some data => if ok then update d.block command.addr data else d.block
          | none => d.block })
    | _ => none
  | _, _ => none

def monitor (havedisk1 : Bool) : Monitor (Disk B α) (Task B) B (Act B α) where
  body a _ task d := underLock d a task
  free a task d := unlocked havedisk1 d a task

abbrev State (P B α : Type) := MState P (Disk B α) (Task B) B

abbrev Event (P B α : Type) := MEvent P (Act B α)

/-- Nobody is in the driver, and the queue is empty. -/
def init {P : Type} (block : Nat × Nat → α) (buf : B → Buf α) : State P B α :=
  MState.init
    { slot := fun _ => none, buf := buf, held := fun _ => false, device := .idle, block := block,
      arrived := [], started := [], served := [], failed := fun _ => false }
    .idle

/-! ## The queue as a list -/

section Queue

variable {slot : Option B → Option B} {q : List B} {b : B}

/-- The pointers from `idequeue` on are the buffers `q`, in this order. -/
def Linked (slot : Option B → Option B) (q : List B) : Prop :=
  Path slot none (none :: q.map some) none

theorem Linked.first (linked : Linked slot q) : slot none = q.head? := by
  have rest : Path slot (slot none) (q.map some) none := linked.tail
  cases q with
  | nil => exact rest.ends
  | cons b q => exact rest.head

theorem nodup_locations (once : q.Nodup) : (none :: q.map some).Nodup := by
  refine List.nodup_cons.mpr ⟨by simp, once.map (Option.some_injective B)⟩

/-- The walk ends at the last pointer of the queue. -/
theorem walk_ends {fuel : Nat} {pp : Option B} (path : Path slot pp (pp :: q.map some) none)
    (enough : q.length < fuel) :
    ∃ ys last, pp :: q.map some = ys ++ [last] ∧ walk slot fuel pp = some last := by
  induction q generalizing fuel pp with
  | nil =>
    obtain ⟨fuel, rfl⟩ : ∃ n, fuel = n + 1 := ⟨fuel - 1, by simp at enough; omega⟩
    have null : slot pp = none := path.tail.ends
    exact ⟨[], pp, rfl, by rw [walk, null]⟩
  | cons b q ih =>
    obtain ⟨fuel, rfl⟩ : ∃ n, fuel = n + 1 := ⟨fuel - 1, by simp at enough; omega⟩
    have rest : Path slot (slot pp) (some b :: q.map some) none := path.tail
    have to_b : slot pp = some b := rest.head
    rw [to_b] at rest
    obtain ⟨ys, last, split, ends⟩ := ih rest (by simpa using enough)
    refine ⟨pp :: ys, last, ?_, ?_⟩
    · rw [List.map_cons, split]
      rfl
    · rw [walk, to_b]
      exact ends

theorem enqueue_linked (linked : Linked slot q) (once : q.Nodup) (fresh : b ∉ q) :
    ∃ slot', enqueue slot b = some slot' ∧ Linked slot' (q ++ [b]) := by
  have cut : Path (update slot (some b) none) none (none :: q.map some) none := by
    refine linked.congr fun x mem => update_of_ne ?_ _ _
    rintro rfl
    simp [fresh] at mem
  have enough : q.length < Fintype.card B + 1 := Nat.lt_succ_of_le once.length_le_card
  obtain ⟨ys, last, split, ends⟩ := walk_ends cut enough
  refine ⟨update (update slot (some b) none) last (some b), ?_, ?_⟩
  · simp only [enqueue, ends, Option.map_some]
  · have other : last ≠ some b := by
      have mem : last ∈ none :: q.map some := by simp [split]
      rintro rfl
      simp [fresh] at mem
    have locations := nodup_locations once
    rw [split] at cut locations
    have onward : Path (update (update slot (some b) none) last (some b)) (some b) [some b] none := by
      refine .cons ?_
      rw [update_of_ne other.symm, update_self]
      exact .nil none
    have listed : none :: (q ++ [b]).map some = ys ++ last :: [some b] := by
      rw [List.map_append, ← List.cons_append, split]
      simp
    rw [Linked, listed]
    exact cut.relink locations onward

theorem dequeue_linked (linked : Linked slot (b :: q)) (once : (b :: q).Nodup) :
    Linked (update slot none (slot (some b))) q := by
  have path : Path slot none ([] ++ none :: some b :: q.map some) none := linked
  exact path.remove (nodup_locations once)

end Queue

/-! ## The invariant -/

/-- The buffer whose lock the process holds. -/
def Task.buf : Task B → Option B
  | idle => none
  | entering b => some b
  | waiting b _ => some b

/-- The queue is `q`, and the device works for its head. -/
structure Queued (d : Disk B α) (q : List B) : Prop where
  linked : Linked d.slot q
  once : q.Nodup
  arrived : d.arrived = d.served ++ q
  started : d.started = d.served ++ q.take 1
  command : d.device.command = q.head?.map fun b => (d.buf b).command
  /-- A write that was completed without error is on the disk. -/
  stored : ∀ command data, d.device = .done command true → command.write = some data →
    d.block command.addr = data

/-- A request in the queue is not ready; one that has left it is, and has the data of
its block unless the device reported an error. -/
def Answered (d : Disk B α) (q : List B) (b : B) (ticket : Nat) : Prop :=
  (∃ j, q[j]? = some b ∧ ticket = d.served.length + j ∧ (d.buf b).ready = false) ∨
  (b ∉ q ∧ ticket < d.served.length ∧ (d.buf b).ready = true ∧
    (d.failed b = false → (d.buf b).data = d.block (d.buf b).addr))

structure Callers {P : Type} (d : Disk B α) (q : List B) (task : P → Task B) : Prop where
  held : ∀ p b, (task p).buf = some b → d.held b = true
  one : ∀ p p' b, (task p).buf = some b → (task p').buf = some b → p = p'
  apart : ∀ b b', d.held b = true → d.held b' = true → (d.buf b).addr = (d.buf b').addr → b = b'
  entering : ∀ p b, task p = .entering b → b ∉ q ∧ (d.buf b).ready = false
  waiting : ∀ p b t, task p = .waiting b t → d.arrived[t]? = some b ∧ Answered d q b t
  queued : ∀ b ∈ q, ∃ p t, task p = .waiting b t

def Inv {P : Type} (d : Disk B α) (task : P → Task B) : Prop :=
  ∃ q, Queued d q ∧ Callers d q task

section Steps

variable {P : Type} [DecidableEq P] {d d' : Disk B α} {q : List B} {task : P → Task B} {p : P}
  {b : B} {t : Nat}

theorem Callers.ne_of_held (h : Callers d q task) (free : d.held b = false) {c : B}
    (there : (task p).buf = some c) : c ≠ b := by
  rintro rfl
  rw [h.held p c there] at free
  cases free

theorem Callers.held_of_mem (h : Callers d q task) (mem : b ∈ q) : d.held b = true := by
  obtain ⟨p, t, waits⟩ := h.queued b mem
  exact h.held p b (by rw [waits]; rfl)

/-- The test at the end of the loop in `iderw`. -/
theorem await_inv (queued : Queued d q) (h : Callers d q task) (here : task p = .waiting b t) :
    Inv (await d b t).data (update task p (await d b t).next) := by
  unfold await
  by_cases ready : (d.buf b).ready = true
  · rw [if_pos ready]
    have out : b ∉ q := by
      obtain ⟨-, ⟨j, -, -, notReady⟩ | ⟨out, -⟩⟩ := h.waiting p b t here
      · rw [ready] at notReady
        cases notReady
      · exact out
    -- the other processes have other buffers
    have others : ∀ {p' c}, ((update task p .idle) p').buf = some c →
        (task p').buf = some c ∧ c ≠ b := by
      intro p' c there
      by_cases same : p' = p
      · rw [same, update_self] at there
        cases there
      · rw [update_of_ne same] at there
        refine ⟨there, ?_⟩
        rintro rfl
        exact same (h.one p' p c there (by rw [here]; rfl))
    have kept : ∀ {p' x}, (update task p .idle) p' = x → x ≠ .idle → task p' = x := by
      intro p' x there other
      by_cases same : p' = p
      · rw [same, update_self] at there
        exact absurd there.symm other
      · rwa [update_of_ne same] at there
    refine ⟨q, ⟨queued.linked, queued.once, queued.arrived, queued.started, queued.command,
      queued.stored⟩, ?_, ?_, ?_, ?_, ?_, ?_⟩
    · intro p' c there
      obtain ⟨before, other⟩ := others there
      exact (update_of_ne other _ _).trans (h.held p' c before)
    · intro p' p'' c there there'
      exact h.one p' p'' c (others there).1 (others there').1
    · intro c c' held held'
      have still : ∀ {c}, update d.held b false c = true → d.held c = true := by
        intro c held
        by_cases same : c = b
        · rw [same, update_self] at held
          cases held
        · rwa [update_of_ne same] at held
      exact h.apart c c' (still held) (still held')
    · intro p' c there
      exact h.entering p' c (kept there nofun)
    · intro p' c t' there
      exact h.waiting p' c t' (kept there nofun)
    · intro c mem
      obtain ⟨p', t', waits⟩ := h.queued c mem
      refine ⟨p', t', ?_⟩
      rw [update_of_ne ?_]
      · exact waits
      · rintro rfl
        rw [here] at waits
        cases waits
        exact out mem
  · rw [if_neg ready]
    have same : update task p (.waiting b t) = task := by
      rw [← here]
      exact update_eq_self p task
    rw [same]
    exact ⟨q, queued, h⟩

/-- `b` is put at the end of the queue. -/
theorem arrive (queued : Queued d q) (h : Callers d q task) (here : task p = .entering b)
    {slot : Option B → Option B} (linked : Linked slot (q ++ [b])) (device : Device α)
    (started : List B) (starts : started = d.served ++ (q ++ [b]).take 1)
    (command : device.command = (q ++ [b]).head?.map fun b => (d.buf b).command)
    (stored : ∀ command data, device = .done command true → command.write = some data →
      d.block command.addr = data) :
    Queued { d with slot, device, started, arrived := d.arrived ++ [b] } (q ++ [b]) ∧
    Callers { d with slot, device, started, arrived := d.arrived ++ [b] } (q ++ [b])
      (update task p (.waiting b d.arrived.length)) := by
  obtain ⟨fresh, notReady⟩ := h.entering p b here
  have once : (q ++ [b]).Nodup := by
    refine List.nodup_append.mpr ⟨queued.once, List.nodup_singleton b, ?_⟩
    rintro c mem c' mem' rfl
    rw [List.mem_singleton.mp mem'] at mem
    exact fresh mem
  have own : ∀ p', ((update task p (.waiting b d.arrived.length)) p').buf = (task p').buf := by
    intro p'
    by_cases same : p' = p
    · rw [same, update_self, here]
      rfl
    · rw [update_of_ne same]
  have others : ∀ {p' c}, p' ≠ p → (task p').buf = some c → c ≠ b := by
    rintro p' c other there rfl
    exact other (h.one p' p c there (by rw [here]; rfl))
  refine ⟨⟨linked, once, ?_, starts, command, stored⟩, ?_, ?_, h.apart, ?_, ?_, ?_⟩
  · show d.arrived ++ [b] = _
    rw [queued.arrived, List.append_assoc]
  · intro p' c there
    rw [own] at there
    exact h.held p' c there
  · intro p' p'' c there there'
    rw [own] at there there'
    exact h.one p' p'' c there there'
  · intro p' c there
    by_cases same : p' = p
    · rw [same, update_self] at there
      cases there
    · rw [update_of_ne same] at there
      obtain ⟨out, unready⟩ := h.entering p' c there
      have other := others same (c := c) (by rw [there]; rfl)
      exact ⟨by simp [out, other], unready⟩
  · intro p' c t' there
    by_cases same : p' = p
    · rw [same, update_self] at there
      cases there
      refine ⟨by simp, .inl ⟨q.length, by simp, ?_, notReady⟩⟩
      simp [queued.arrived]
    · rw [update_of_ne same] at there
      have other := others same (c := c) (by rw [there]; rfl)
      obtain ⟨arrived, answered⟩ := h.waiting p' c t' there
      refine ⟨?_, ?_⟩
      · obtain ⟨inside, -⟩ := List.getElem?_eq_some_iff.mp arrived
        rw [List.getElem?_append_left inside]
        exact arrived
      · rcases answered with ⟨j, at_j, ticket, unready⟩ | ⟨out, served, ready, data⟩
        · obtain ⟨inside, -⟩ := List.getElem?_eq_some_iff.mp at_j
          exact .inl ⟨j, by rw [List.getElem?_append_left inside]; exact at_j, ticket, unready⟩
        · exact .inr ⟨by simp [out, other], served, ready, data⟩
  · intro c mem
    rcases List.mem_append.mp mem with mem | mem
    · obtain ⟨p', t', waits⟩ := h.queued c mem
      refine ⟨p', t', ?_⟩
      rw [update_of_ne ?_]
      · exact waits
      · rintro rfl
        rw [here] at waits
        cases waits
    · rw [List.mem_singleton.mp mem]
      exact ⟨p, _, update_self _ _ _⟩

theorem request_inv (queued : Queued d q) (h : Callers d q task) (here : task p = .entering b)
    {r : Stretch (Disk B α) (Task B) B} (does : request d b = some r) :
    Inv r.data (update task p r.next) := by
  obtain ⟨fresh, -⟩ := h.entering p b here
  obtain ⟨slot, put, linked⟩ := enqueue_linked queued.linked queued.once fresh
  have first := linked.first
  unfold request at does
  rw [put] at does
  simp only [Option.bind_eq_bind, Option.bind_some] at does
  by_cases empty : q = []
  · subst empty
    have head : slot none = some b := first
    rw [if_pos head] at does
    unfold idestart at does
    split at does
    · cases does
    · cases does
      obtain ⟨queued', h'⟩ := arrive queued h here linked (.busy (d.buf b).command)
        (d.started ++ [b]) (by rw [queued.started]; simp) (by simp [Device.command]) nofun
      have after := await_inv queued' h' (update_self p _ task)
      rw [update_idem] at after
      exact after
  · have behind : (q ++ [b]).head? = q.head? := by
      cases q with
      | nil => exact absurd rfl empty
      | cons c q => rfl
    have other : slot none ≠ some b := by
      rw [first, behind]
      intro head
      exact fresh (List.mem_of_mem_head? head)
    rw [if_neg other] at does
    cases does
    have starts : d.started = d.served ++ (q ++ [b]).take 1 := by
      rw [queued.started]
      cases q with
      | nil => exact absurd rfl empty
      | cons c q => rfl
    obtain ⟨queued', h'⟩ := arrive queued h here linked d.device d.started starts
      (by rw [behind]; exact queued.command) queued.stored
    have after := await_inv queued' h' (update_self p _ task)
    rw [update_idem] at after
    exact after

/-- The data and the flags of the buffer that is served. -/
theorem buf_retire (d : Disk B α) (b : B) (command : Command α) (ok : Bool) :
    (retire d b command ok).buf b = { d.buf b with
      data := if (d.buf b).dirty = false ∧ ok then d.block command.addr else (d.buf b).data
      valid := true
      dirty := false } :=
  update_self _ _ _

theorem buf_retire_of_ne (d : Disk B α) {b c : B} (other : c ≠ b) (command : Command α) (ok : Bool) :
    (retire d b command ok).buf c = d.buf c :=
  update_of_ne other _ _

theorem addr_retire (d : Disk B α) (b c : B) (command : Command α) (ok : Bool) :
    ((retire d b command ok).buf c).addr = (d.buf c).addr := by
  by_cases same : c = b
  · rw [same, buf_retire]
    rfl
  · rw [buf_retire_of_ne d same]

/-- A request that was carried out without error leaves the data of the block in the
buffer, or the other way round. -/
theorem data_retire (queued : Queued d (b :: q)) {command : Command α}
    (done : d.device = .done command true) :
    ((retire d b command true).buf b).data = d.block (d.buf b).addr := by
  have was : command = (d.buf b).command := by
    have head := queued.command
    rw [done] at head
    exact Option.some.inj head
  have addr : command.addr = (d.buf b).addr := congrArg Command.addr was
  rw [buf_retire]
  by_cases dirty : (d.buf b).dirty = true
  · have written : command.write = some (d.buf b).data := by
      rw [was]
      exact if_pos dirty
    have stored := queued.stored command _ done written
    simp [dirty, ← stored, addr]
  · simp [dirty, addr]

/-- The head of the queue has been served. -/
theorem depart (queued : Queued d (b :: q)) (h : Callers d (b :: q) task) {command : Command α}
    {ok : Bool} (done : d.device = .done command ok) (device : Device α) (started : List B)
    (starts : started = d.served ++ [b] ++ q.take 1)
    (executes : device.command = q.head?.map fun b => (d.buf b).command)
    (pending : ∀ command, device ≠ .done command true) :
    Queued { retire d b command ok with device, started } q ∧
    Callers { retire d b command ok with device, started } q task := by
  obtain ⟨gone, once⟩ := List.nodup_cons.mp queued.once
  have apart : ∀ {c}, c ∈ q → c ≠ b := by
    rintro c mem rfl
    exact gone mem
  have outside : ∀ {c}, c ∉ b :: q → c ≠ b ∧ c ∉ q := by
    intro c out
    exact ⟨fun same => out (same ▸ List.mem_cons_self), fun mem => out (List.mem_cons_of_mem b mem)⟩
  have length : (retire d b command ok).served.length = d.served.length + 1 := by simp [retire]
  refine ⟨⟨dequeue_linked queued.linked queued.once, once, ?_, starts, ?_, ?_⟩,
    h.held, h.one, ?_, ?_, ?_, ?_⟩
  · show d.arrived = d.served ++ [b] ++ q
    rw [queued.arrived, List.append_assoc]
    rfl
  · rw [executes]
    cases q with
    | nil => rfl
    | cons c q => simp [buf_retire_of_ne d (apart List.mem_cons_self)]
  · intro command data isDone
    exact absurd isDone (pending command)
  · intro c c' held held' same
    exact h.apart c c' held held' (by simpa only [addr_retire] using same)
  · intro p' c there
    obtain ⟨out, unready⟩ := h.entering p' c there
    obtain ⟨other, out⟩ := outside out
    refine ⟨out, ?_⟩
    simpa only [buf_retire_of_ne d other] using unready
  · intro p' c t' there
    obtain ⟨arrived, answered⟩ := h.waiting p' c t' there
    refine ⟨arrived, ?_⟩
    simp only [Answered, length, addr_retire]
    rcases answered with ⟨j, at_j, ticket, unready⟩ | ⟨out, served, ready, data⟩
    · cases j with
      | zero =>
        obtain rfl : b = c := Option.some.inj at_j
        refine .inr ⟨gone, by omega, ?_, ?_⟩
        · rw [buf_retire]
          rfl
        · intro fine
          obtain rfl : ok = true := by simpa [retire] using fine
          exact data_retire queued done
      | succ j =>
        have mem : c ∈ q := List.mem_of_getElem? (by simpa using at_j)
        refine .inl ⟨j, by simpa using at_j, by omega, ?_⟩
        rw [buf_retire_of_ne d (apart mem)]
        exact unready
    · obtain ⟨other, out⟩ := outside out
      refine .inr ⟨out, by omega, ?_, ?_⟩
      · rw [buf_retire_of_ne d other]
        exact ready
      · rw [buf_retire_of_ne d other]
        intro fine
        exact data (by simpa [retire, update_of_ne other] using fine)
  · intro c mem
    exact h.queued c (List.mem_cons_of_mem b mem)

theorem ideintr_inv (queued : Queued d q) (h : Callers d q task) (here : task p = .idle)
    {r : Stretch (Disk B α) (Task B) B} (does : ideintr d = some r) :
    Inv r.data (update task p r.next) := by
  have stays : update task p .idle = task := by
    rw [← here]
    exact update_eq_self p task
  unfold ideintr at does
  split at does
  · cases does
    rw [stays]
    exact ⟨q, queued, h⟩
  · rename_i b command ok head done
    obtain ⟨q, rfl⟩ : ∃ q', q = b :: q' := by
      rw [queued.linked.first] at head
      cases q with
      | nil => cases head
      | cons c q =>
        cases head
        exact ⟨q, rfl⟩
    have after : (retire d b command ok).slot none = q.head? :=
      (dequeue_linked queued.linked queued.once).first
    unfold finish at does
    simp only [after, Option.bind_eq_bind] at does
    cases q with
    | nil =>
      cases does
      rw [stays]
      exact ⟨[], depart queued h done .idle d.started (by rw [queued.started]; simp) rfl nofun⟩
    | cons c q =>
      simp only [List.head?_cons, idestart] at does
      split at does
      · cases does
      · cases does
        rw [stays]
        have other : c ≠ b := by
          rintro rfl
          exact (List.nodup_cons.mp queued.once).1 List.mem_cons_self
        refine ⟨c :: q, depart queued h done (.busy _) (d.started ++ [c]) ?_ ?_ nofun⟩
        · rw [queued.started]
          simp
        · simp [Device.command, buf_retire_of_ne d other]
  · cases does

theorem call_inv (queued : Queued d q) (h : Callers d q task) (here : task p = .idle) {x : Buf α}
    (free : d.held b = false) (apart : ∀ b', d.held b' = true → (d.buf b').addr ≠ x.addr)
    (unready : x.ready = false) :
    Inv { d with buf := update d.buf b x, held := update d.held b true }
      (update task p (.entering b)) := by
  have fresh : b ∉ q := by
    intro mem
    rw [h.held_of_mem mem] at free
    cases free
  have same : ∀ {c}, c ∈ q → update d.buf b x c = d.buf c := by
    intro c mem
    refine update_of_ne ?_ _ _
    rintro rfl
    exact fresh mem
  have others : ∀ {p' c}, p' ≠ p → ((update task p (.entering b)) p').buf = some c →
      (task p').buf = some c ∧ c ≠ b := by
    intro p' c other there
    rw [update_of_ne other] at there
    exact ⟨there, h.ne_of_held free there⟩
  refine ⟨q, ⟨queued.linked, queued.once, queued.arrived, queued.started, ?_, queued.stored⟩,
    ?_, ?_, ?_, ?_, ?_, ?_⟩
  · rw [queued.command]
    cases q with
    | nil => rfl
    | cons c q => simp [same List.mem_cons_self]
  · intro p' c there
    by_cases at_p : p' = p
    · rw [at_p, update_self] at there
      cases there
      exact update_self b true d.held
    · obtain ⟨before, other⟩ := others at_p there
      exact (update_of_ne other _ _).trans (h.held p' c before)
  · intro p' p'' c there there'
    by_cases at_p : p' = p <;> by_cases at_p' : p'' = p
    · rw [at_p, at_p']
    · rw [at_p, update_self] at there
      cases there
      exact absurd rfl (others at_p' there').2
    · rw [at_p', update_self] at there'
      cases there'
      exact absurd rfl (others at_p there).2
    · exact h.one p' p'' c (others at_p there).1 (others at_p' there').1
  · intro c c' held held' equal
    by_cases hc : c = b <;> by_cases hc' : c' = b
    · rw [hc, hc']
    · simp only [update_of_ne hc'] at held' equal
      rw [hc] at equal
      simp only [update_self] at equal
      exact absurd equal.symm (apart c' held')
    · simp only [update_of_ne hc] at held equal
      rw [hc'] at equal
      simp only [update_self] at equal
      exact absurd equal (apart c held)
    · simp only [update_of_ne hc, update_of_ne hc'] at held held' equal
      exact h.apart c c' held held' equal
  · intro p' c there
    by_cases at_p : p' = p
    · rw [at_p, update_self] at there
      cases there
      exact ⟨fresh, by simpa only [update_self] using unready⟩
    · obtain ⟨-, other⟩ := others at_p (c := c) (by rw [there]; rfl)
      rw [update_of_ne at_p] at there
      obtain ⟨out, notReady⟩ := h.entering p' c there
      exact ⟨out, by simpa only [update_of_ne other] using notReady⟩
  · intro p' c t' there
    by_cases at_p : p' = p
    · rw [at_p, update_self] at there
      cases there
    · obtain ⟨-, other⟩ := others at_p (c := c) (by rw [there]; rfl)
      rw [update_of_ne at_p] at there
      have before := h.waiting p' c t' there
      simp only [Answered, update_of_ne other]
      exact before
  · intro c mem
    obtain ⟨p', t', waits⟩ := h.queued c mem
    refine ⟨p', t', ?_⟩
    rw [update_of_ne ?_]
    · exact waits
    · rintro rfl
      rw [here] at waits
      cases waits

theorem complete_inv (queued : Queued d q) (h : Callers d q task) {command : Command α}
    (busy : d.device = .busy command) (ok : Bool) {block : Nat × Nat → α}
    (stored : block = match command.write with
      | some data => if ok then update d.block command.addr data else d.block
      | none => d.block) :
    Inv { d with device := .done command ok, block } task := by
  have executes := queued.command
  rw [busy] at executes
  refine ⟨q, ⟨queued.linked, queued.once, queued.arrived, queued.started, executes, ?_⟩,
    h.held, h.one, h.apart, h.entering, ?_, h.queued⟩
  · intro command' data isDone write
    cases isDone
    simp [stored, write]
  · intro p' c t' there
    obtain ⟨arrived, answered⟩ := h.waiting p' c t' there
    refine ⟨arrived, answered.imp_right ?_⟩
    rintro ⟨out, served, ready, data⟩
    refine ⟨out, served, ready, fun fine => (data fine).trans ?_⟩
    -- the command is for the head of the queue, which is another buffer
    have away : (d.buf c).addr ≠ command.addr := by
      intro equal
      cases q with
      | nil => cases executes
      | cons b q =>
        have was : command = (d.buf b).command := Option.some.inj executes
        rw [was] at equal
        have same := h.apart c b (h.held p' c (by rw [there]; rfl))
          (h.held_of_mem List.mem_cons_self) equal
        exact out (same ▸ List.mem_cons_self)
    show d.block (d.buf c).addr = block (d.buf c).addr
    rw [stored]
    cases command.write with
    | none => rfl
    | some data =>
      by_cases good : ok = true
      · simp only [if_pos good, update_of_ne away]
      · simp only [if_neg good]

theorem step_inv {havedisk1 : Bool} {s s' : State P B α} {e : Event P B α}
    (inv : Inv s.data s.local) (stepped : (monitor havedisk1).step s e = some s') :
    Inv s'.data s'.local := by
  refine Monitor.step_keeps (I := Inv) ?_ ?_ inv stepped
  · rintro a killed l p r d task ⟨q, queued, h⟩ here does
    change underLock d a l = some r at does
    unfold underLock at does
    split at does
    · exact request_inv queued h here does
    · cases does
      exact await_inv queued h here
    · exact ideintr_inv queued h here does
    · cases does
  · rintro a l l' p d d' task ⟨q, queued, h⟩ here does
    change unlocked havedisk1 d a l = some (l', d') at does
    unfold unlocked at does
    split at does
    · split at does
      · rename_i guard
        cases does
        exact call_inv queued h here guard.1 guard.2.1 guard.2.2.1
      · cases does
    · split at does
      · rename_i busy
        cases does
        have stays : update task p .idle = task := by
          rw [← here]
          exact update_eq_self p task
        rw [stays]
        exact complete_inv queued h busy _ rfl
      · cases does
    · cases does

theorem init_inv (block : Nat × Nat → α) (buf : B → Buf α) :
    Inv (init block buf : State P B α).data (init block buf : State P B α).local := by
  refine ⟨[], ⟨.cons (.nil none), List.nodup_nil, rfl, rfl, rfl, nofun⟩, ?_⟩
  exact ⟨nofun, nofun, nofun, nofun, nofun, nofun⟩

/-- A process leaves `iderw` only after the test of its loop. -/
theorem returns_ready {havedisk1 : Bool} {s s' : State P B α} {e : Event P B α}
    (waits : s.local p = .waiting b t) (stepped : (monitor havedisk1).step s e = some s')
    (back : s'.local p = .idle) :
    (s.data.buf b).ready = true ∧
      s'.data = { s.data with held := update s.data.held b false } := by
  rcases Monitor.step_local stepped with ⟨-, same⟩ | ⟨p', a, r, -, does, data, moved⟩ |
    ⟨p', a, l, -, does, moved⟩
  · rw [same, waits] at back
    cases back
  · obtain rfl : p = p' := by
      by_contra other
      rw [moved, update_of_ne other, waits] at back
      cases back
    rw [waits] at does
    have done : r = await s.data b t := by
      cases a with
      | go => exact (Option.some.inj does).symm
      | _ => cases does
    rw [moved, update_self, done] at back
    rw [done] at data
    unfold await at back data
    split at back
    · rename_i ready
      rw [if_pos ready] at data
      exact ⟨ready, data⟩
    · cases back
  · obtain rfl : p = p' := by
      by_contra other
      rw [moved, update_of_ne other, waits] at back
      cases back
    rw [waits] at does
    cases a <;> cases does

end Steps

/-- **The disk queue**, in every state: the pointers from `idequeue` on are the buffers
with a request that is not completed, each once; the device works for the first of
them; requests are served and started in the order of their arrival.  A caller of
`iderw` returns only after its own request was served, and then its buffer has the
data of its block, unless the device reported an error for the request. -/
theorem disk_queue {P : Type} [DecidableEq P] (havedisk1 : Bool) (block : Nat × Nat → α)
    (buf : B → Buf α) (es : List (Event P B α)) (s : State P B α)
    (reached : run (monitor havedisk1).step (init block buf) es = some s) :
    ∃ q : List B,
      (Linked s.data.slot q ∧ q.Nodup ∧ ∀ b, b ∈ q ↔
        ∃ p t, s.local p = .waiting b t ∧ (s.data.buf b).ready = false) ∧
      s.data.device.command = q.head?.map (fun b => (s.data.buf b).command) ∧
      s.data.arrived = s.data.served ++ q ∧ s.data.started = s.data.served ++ q.take 1 ∧
      ∀ p b t e s', s.local p = .waiting b t → (monitor havedisk1).step s e = some s' →
        s'.local p = .idle → s'.data.arrived[t]? = some b ∧ t < s'.data.served.length ∧
        (s'.data.buf b).valid = true ∧ (s'.data.buf b).dirty = false ∧
        (s'.data.failed b = false →
          (s'.data.buf b).data = s'.data.block (s'.data.buf b).addr) := by
  obtain ⟨q, queued, h⟩ : Inv s.data s.local :=
    run_invariant (monitor havedisk1).step (I := fun s => Inv s.data s.local)
      (fun _ _ _ inv stepped => step_inv inv stepped) (init_inv block buf) reached
  refine ⟨q, ⟨queued.linked, queued.once, ?_⟩, queued.command, queued.arrived, queued.started, ?_⟩
  · intro b
    constructor
    · intro mem
      obtain ⟨p, t, waits⟩ := h.queued b mem
      refine ⟨p, t, waits, ?_⟩
      obtain ⟨-, ⟨j, -, -, unready⟩ | ⟨out, -⟩⟩ := h.waiting p b t waits
      · exact unready
      · exact absurd mem out
    · rintro ⟨p, t, waits, unready⟩
      obtain ⟨-, ⟨j, at_j, -⟩ | ⟨-, -, ready, -⟩⟩ := h.waiting p b t waits
      · exact List.mem_of_getElem? at_j
      · rw [ready] at unready
        cases unready
  · intro p b t e s' waits stepped back
    obtain ⟨ready, data⟩ := returns_ready waits stepped back
    obtain ⟨arrived, ⟨j, -, -, unready⟩ | ⟨-, served, -, right⟩⟩ := h.waiting p b t waits
    · rw [ready] at unready
      cases unready
    · rw [data]
      obtain ⟨valid, clean⟩ := Bool.and_eq_true_iff.mp ready
      exact ⟨arrived, served, valid, by simpa using clean, right⟩

end Model

/-! ## A read, without an error and with one -/

/-- Process 0 reads block 5 of disk 1; process 1 is the device, and takes the interrupt. -/
def oneRead (ok : Bool) : List (Event (Fin 2) (Fin 1) Nat) :=
  [.free 0 (.iderw 0 ⟨1, 5, false, false, 0⟩), .enter 0 .go, .sleepAcquire 0, .sleepRelease 0,
    .sleepSwitch 0, .free 1 (.complete ok), .enter 1 .ideintr, .wake 1, .release 1, .resume 0]

theorem read_returns_block : ∃ s s',
    run (monitor true).step (init (fun _ => 7) fun _ => ⟨0, 0, false, false, 0⟩) (oneRead true) =
      some s ∧
    (monitor true).step s (.enter 0 .go) = some s' ∧ s'.local 0 = .idle ∧
    (s'.data.buf 0).valid = true ∧ (s'.data.buf 0).data = s'.data.block (s'.data.buf 0).addr := by
  obtain ⟨s, s', done, waits, stepped, back, fine⟩ : ∃ s s',
      run (monitor true).step (init (fun _ => 7) fun _ => ⟨0, 0, false, false, 0⟩)
        (oneRead true) = some s ∧
      s.local 0 = .waiting 0 0 ∧ (monitor true).step s (.enter 0 .go) = some s' ∧
      s'.local 0 = .idle ∧ s'.data.failed 0 = false := ⟨_, _, rfl, rfl, rfl, rfl, rfl⟩
  obtain ⟨q, -, -, -, -, returns⟩ := disk_queue true _ _ _ s done
  obtain ⟨-, -, valid, -, data⟩ := returns 0 0 0 _ s' waits stepped back
  exact ⟨s, s', done, stepped, back, valid, data fine⟩

/-- The device reports an error, and `iderw` returns a buffer that is marked valid and
holds what it held before. -/
theorem failed_read_is_valid : ∃ s,
    run (monitor true).step (init (fun _ => 7) fun _ => ⟨0, 0, false, false, 0⟩)
      (oneRead false ++ [.enter 0 .go, .release 0]) = some s ∧
    s.local 0 = .idle ∧ (s.data.buf 0).valid = true ∧ (s.data.buf 0).dirty = false ∧
    (s.data.buf 0).data = 0 ∧ s.data.block (s.data.buf 0).addr = 7 :=
  ⟨_, rfl, rfl, rfl, rfl, rfl, rfl⟩

end BasicOS.Ide
