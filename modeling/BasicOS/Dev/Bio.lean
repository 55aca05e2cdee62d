/-
# BasicOS.Dev.Bio — the buffer cache of bio.c

Any number of processes read blocks, change what they have read and hand it to
`log_write` or `bwrite`, and release it.  What a call does under `bcache.lock` is one
step; `acquiresleep` waits until the lock of the buffer is free.  The disk does what it
is told.  The commit of the log is such a sequence of calls too: it reads log blocks and
home blocks, copies between them, writes and releases them.

The state also records which buffers `bget` has ever given out (`assigned`), which have
been changed since they were last stored (`modified`), and what was last stored for each
block (`stored`).  The memory of the cache is zero at boot, so a buffer that was never
given out looks like one of block 0 of device 0: a lookup of that block finds the first
of them, and the next lookup has to find the same one.
-/
import BasicOS.Lib.Linked
import BasicOS.Lib.Run
import BasicOS.Lib.Tally
import BasicOS.Param
import Mathlib.Data.Fintype.Option

namespace BasicOS.Bio

open Lib Function

set_option autoImplicit false
set_option linter.unusedSectionVars false

abbrev nbuf : Nat := maxopblocks * 3

instance neZero_nbuf : NeZero nbuf := ⟨by decide⟩

/-- The nodes of the list: the buffers, and `bcache.head`. -/
abbrev Buf := Option (Fin nbuf)

/-- `&bcache.head`. -/
abbrev head : Buf := none

/-- `dev` and `blockno`. -/
abbrev Key := UInt32 × UInt32

/-- Where a process stands in a call. -/
inductive Pc where
  /-- In no call. -/
  | ready
  /-- `bget` has chosen the buffer, and takes its lock. -/
  | locking (b : Buf) (k : Key)
  /-- `bread` has the buffer, and looks at `B_VALID`. -/
  | checking (b : Buf) (k : Key)
  /-- `bread` returns the buffer. -/
  | returned (b : Buf) (k : Key)
  /-- `brelse` has given up the lock of the buffer. -/
  | releasing (b : Buf)
  deriving DecidableEq, Repr

/-- The buffer on which a call counts without its lock. -/
def Pc.waits : Pc → Option Buf
  | locking b _ => some b
  | releasing b => some b
  | _ => none

/-- The buffer of a call. -/
def Pc.buf : Pc → Option Buf
  | ready => none
  | locking b _ => some b
  | checking b _ => some b
  | returned b _ => some b
  | releasing b => some b

/-- The cache, with the processes `P` that use it and the disk behind it. -/
structure Cache (P D : Type) where
  links : Links Buf
  key : Buf → Key
  refcnt : Buf → Nat
  /-- `B_VALID`. -/
  valid : Buf → Bool
  /-- `B_DIRTY`. -/
  dirty : Buf → Bool
  data : Buf → D
  /-- The process that holds the sleeplock of the buffer. -/
  lock : Buf → Option P
  disk : Key → D
  pc : P → Pc
  assigned : Buf → Bool
  modified : Buf → Bool
  stored : Key → D

inductive Act (D : Type) where
  | bread (k : Key)
  /-- Change the data of a buffer that is held. -/
  | modify (b : Buf) (d : D)
  | logWrite (b : Buf)
  | bwrite (b : Buf)
  | brelse (b : Buf)
  /-- The call that has begun goes on. -/
  | go

section Model

variable {P D : Type} [DecidableEq P]

/-- The list that `binit` makes. -/
def binit : Links Buf :=
  (List.finRange nbuf).foldl (fun l b => l.push head (some b)) ⟨fun _ => head, fun _ => head⟩

def boot (disk : Key → D) (data : Buf → D) : Cache P D where
  links := binit
  key _ := (0, 0)
  refcnt _ := 0
  valid _ := false
  dirty _ := false
  data := data
  lock _ := none
  disk := disk
  pc _ := .ready
  assigned _ := false
  modified _ := false
  stored := disk

/-- `bget` up to where it takes the lock of the buffer: the buffer of the block, or
else the least recently used one that is free.  With none free, the kernel panics. -/
def bget (s : Cache P D) (k : Key) : Option (Buf × Cache P D) :=
  match scan s.links.next head (fun b => s.key b = k) (nbuf + 1) (s.links.next head) with
  | none => none
  | some (some b) =>
    some (b, { s with refcnt := update s.refcnt b (s.refcnt b + 1)
                      assigned := update s.assigned b true })
  | some none =>
    match scan s.links.prev head (fun b => s.refcnt b = 0 && !s.dirty b) (nbuf + 1)
        (s.links.prev head) with
    | some (some b) =>
      some (b, { s with key := update s.key b k
                        valid := update s.valid b false
                        dirty := update s.dirty b false
                        refcnt := update s.refcnt b 1
                        assigned := update s.assigned b true })
    | _ => none

/-- `iderw`: write a dirty buffer, or read. -/
def iderw (s : Cache P D) (b : Buf) : Cache P D :=
  if s.dirty b then
    { s with disk := update s.disk (s.key b) (s.data b)
             valid := update s.valid b true
             dirty := update s.dirty b false }
  else
    { s with data := update s.data b (s.disk (s.key b))
             valid := update s.valid b true }

/-- `brelse` under `bcache.lock`. -/
def unref (s : Cache P D) (b : Buf) : Cache P D :=
  let refcnt := s.refcnt b - 1
  { s with refcnt := update s.refcnt b refcnt
           links := if refcnt = 0 then (s.links.unlink b).push head b else s.links }

def step (s : Cache P D) : P × Act D → Option (Cache P D)
  | (p, .bread k) =>
    if s.pc p = .ready then
      (bget s k).map fun r => { r.2 with pc := update s.pc p (.locking r.1 k) }
    else none
  | (p, .modify b d) =>
    if s.pc p = .ready ∧ s.lock b = some p then
      some { s with data := update s.data b d, modified := update s.modified b true }
    else none
  | (p, .logWrite b) =>
    if s.pc p = .ready ∧ s.lock b = some p then
      some { s with dirty := update s.dirty b true
                    modified := update s.modified b false
                    stored := update s.stored (s.key b) (s.data b) }
    else none
  | (p, .bwrite b) =>
    if s.pc p = .ready ∧ s.lock b = some p then
      some (iderw { s with dirty := update s.dirty b true
                           modified := update s.modified b false
                           stored := update s.stored (s.key b) (s.data b) } b)
    else none
  | (p, .brelse b) =>
    -- What was changed has been stored.
    if s.pc p = .ready ∧ s.lock b = some p ∧ s.modified b = false then
      some { s with lock := update s.lock b none, pc := update s.pc p (.releasing b) }
    else none
  | (p, .go) =>
    match s.pc p with
    | .ready => none
    | .locking b k =>
      if s.lock b = none then
        some { s with lock := update s.lock b (some p), pc := update s.pc p (.checking b k) }
      else none
    | .checking b k =>
      let s := if s.valid b then s else iderw s b
      some { s with pc := update s.pc p (.returned b k) }
    | .returned _ _ => some { s with pc := update s.pc p .ready }
    | .releasing b => some { unref s b with pc := update s.pc p .ready }

end Model

/-! ## The invariant -/

/-- The list has every buffer. -/
structure Listed (links : Links Buf) (xs : List Buf) : Prop where
  linked : Linked links head xs
  all : ∀ b : Fin nbuf, some b ∈ xs

/-- A lookup finds the buffer that was given out for the block; a buffer that never was
still has the key it had at boot. -/
structure Indexed (key : Buf → Key) (assigned : Buf → Bool) (xs : List Buf) : Prop where
  found : ∀ b, assigned b = true → xs.find? (fun x => key x = key b) = some b
  blank : ∀ b, assigned b = false → key b = (0, 0)

section Invariant

variable {P D : Type} [DecidableEq P] [Fintype P]

/-- What the flags say about the data and the disk. -/
structure Truthful (s : Cache P D) : Prop where
  blank : ∀ b, s.assigned b = false → s.valid b = false ∧ s.dirty b = false
  backed : ∀ b, s.dirty b = true → s.valid b = true
  current : ∀ b, s.assigned b = true → s.valid b = true → s.modified b = false →
    s.data b = s.stored (s.key b)
  clean : ∀ b, s.assigned b = true → s.dirty b = false → s.disk (s.key b) = s.stored (s.key b)
  uncached : ∀ k, (∀ b, s.assigned b = true → s.key b ≠ k) → s.disk k = s.stored k

/-- The references that a lock is. -/
def held : Option P → Nat
  | none => 0
  | some _ => 1

/-- A reference is a held lock or a call that counts on the buffer. -/
def holders (lock : Buf → Option P) (pc : P → Pc) (b : Buf) : Nat :=
  held (lock b) + tally (fun p => (pc p).waits) b

/-- What a call knows about its buffer. -/
def Fits (s : Cache P D) (p : P) : Pc → Prop
  | .ready => True
  | .locking b k => s.assigned b = true ∧ s.key b = k
  | .checking b k =>
    s.assigned b = true ∧ s.key b = k ∧ s.lock b = some p ∧ s.modified b = false
  | .returned b k =>
    s.assigned b = true ∧ s.key b = k ∧ s.lock b = some p ∧ s.modified b = false ∧
      s.valid b = true
  | .releasing b => s.assigned b = true

structure Inv (s : Cache P D) (xs : List Buf) : Prop where
  listed : Listed s.links xs
  indexed : Indexed s.key s.assigned xs
  counted : ∀ b, s.refcnt b = holders s.lock s.pc b
  truthful : Truthful s
  fits : ∀ p, Fits s p (s.pc p)
  owned : ∀ b p, s.lock b = some p → s.assigned b = true ∧
    ((∃ k, s.pc p = .checking b k) ∨ s.valid b = true)
  changed : ∀ b, s.modified b = true → s.lock b ≠ none

/-! ## The list -/

theorem Listed.length {links : Links Buf} {xs : List Buf} (h : Listed links xs) :
    xs.length < nbuf + 1 := by
  have once := h.linked.once
  have short := once.length_le_card
  rw [List.length_cons, Fintype.card_option, Fintype.card_fin] at short
  omega

theorem Listed.moved {links : Links Buf} {xs : List Buf} {b : Buf} (h : Listed links xs)
    (mem : b ∈ xs) : Listed ((links.unlink b).push head b) (b :: xs.filter (· ≠ b)) where
  linked := by
    have once := List.nodup_cons.mp h.linked.once
    refine (h.linked.unlink mem).push ?_
    rw [List.mem_cons, not_or]
    exact ⟨fun same => once.1 (same ▸ mem), by simp⟩
  all c := by
    by_cases same : some c = b
    · simp [same]
    · exact List.mem_cons_of_mem _ (List.mem_filter.mpr ⟨h.all c, by simpa using same⟩)

theorem binit_listed : ∃ xs, Listed binit xs := by
  have grows : ∀ (bs : List (Fin nbuf)) (l : Links Buf) (xs : List Buf), Linked l head xs →
      bs.Nodup → (∀ b ∈ bs, some b ∉ xs) →
      Linked (bs.foldl (fun l b => l.push head (some b)) l) head
        ((bs.map some).reverse ++ xs) := by
    intro bs
    induction bs with
    | nil => exact fun l xs linked _ _ => linked
    | cons b bs ih =>
      intro l xs linked once new
      have once := List.nodup_cons.mp once
      have fresh : (some b : Buf) ∉ head :: xs := by
        simp [new b List.mem_cons_self]
      have later := ih _ _ (linked.push fresh) once.2 fun c mem => by
        have other : c ≠ b := fun same => once.1 (same ▸ mem)
        simp [other, new c (List.mem_cons_of_mem _ mem)]
      simpa using later
  refine ⟨_, grows _ _ [] (Linked.alone rfl rfl) (List.nodup_finRange nbuf) (by simp), ?_⟩
  intro b
  simp

/-! ## The index -/

section Index

variable {key : Buf → Key} {assigned : Buf → Bool} {xs : List Buf} {b : Buf} {k : Key}

section

variable (h : Indexed key assigned xs)

include h

theorem Indexed.mem (given : assigned b = true) : b ∈ xs :=
  List.mem_of_find?_eq_some (h.found b given)

theorem Indexed.unique {c : Buf} (hb : assigned b = true)
    (hc : assigned c = true) (same : key b = key c) : b = c := by
  have found := h.found b hb
  rw [same, h.found c hc] at found
  exact (Option.some.inj found).symm

/-- The block is found: the buffer was given out for it, or is given out now. -/
theorem Indexed.hit
    (found : xs.find? (fun x => key x = k) = some b) :
    Indexed key (update assigned b true) xs where
  found c given := by
    by_cases same : c = b
    · subst same
      have here : key c = k := by simpa using List.find?_some found
      rw [here]
      exact found
    · rw [update_of_ne same] at given
      exact h.found c given
  blank c new := by
    by_cases same : c = b
    · simp [same] at new
    · rw [update_of_ne same] at new
      exact h.blank c new

/-- The block is not found, and a buffer is given out for it. -/
theorem Indexed.recycle (mem : b ∈ xs)
    (absent : ∀ x ∈ xs, key x ≠ k) : Indexed (update key b k) (update assigned b true) xs where
  found c given := by
    by_cases same : c = b
    · subst same
      rw [update_self, List.find?_eq_some_iff_append]
      obtain ⟨ys, zs, cut, early⟩ := List.eq_append_cons_of_mem mem
      refine ⟨by simp, ys, zs, cut, fun x hx => ?_⟩
      have other : x ≠ c := fun same => early (same ▸ hx)
      rw [update_of_ne other]
      simpa using absent x (by simp [cut, hx])
    · rw [update_of_ne same] at given
      have found := h.found c given
      have kept : key c ≠ k := absent c (h.mem given)
      rw [update_of_ne same]
      rw [List.find?_eq_some_iff_append] at found ⊢
      obtain ⟨-, ys, zs, cut, early⟩ := found
      refine ⟨by simp [same], ys, zs, cut, fun x hx => ?_⟩
      by_cases here : x = b
      · simpa [here] using kept.symm
      · rw [update_of_ne here]
        exact early x hx
  blank c new := by
    by_cases same : c = b
    · simp [same] at new
    · rw [update_of_ne same] at new ⊢
      exact h.blank c new

/-- A buffer that was given out becomes the most recently used one. -/
theorem Indexed.moved (given : assigned b = true) :
    Indexed key assigned (b :: xs.filter (· ≠ b)) where
  found c hc := by
    by_cases same : key b = key c
    · obtain rfl := h.unique given hc same
      simp
    · rw [List.find?_cons_of_neg (by simpa using same), find?_without (by simpa using same)]
      exact h.found c hc
  blank := h.blank

end

end Index

/-! ## References -/

/-- A process moves on, and a lock is taken or given up. -/
theorem holders_moves (lock lock' : Buf → Option P) {pc : P → Pc} {p : P} {c : Pc}
    {o o' : Option Buf} (before : (pc p).waits = o) (after : c.waits = o') (b : Buf) :
    (holders lock' (update pc p c) b : Int) =
      holders lock pc b + held (lock' b) - held (lock b) + credit o' b - credit o b := by
  have moved : (fun q => (update pc p c q).waits) = update (fun q => (pc q).waits) p o' := by
    funext q
    rw [← after]
    exact apply_update (fun _ => Pc.waits) pc p c q
  have tallied := tally_update (fun q => (pc q).waits) p o' b
  rw [← moved, before] at tallied
  simp only [holders, Nat.cast_add, tallied]
  omega

section References

variable {s s' : Cache P D} {xs : List Buf} {p : P} {b : Buf}

/-- A call keeps what it knows while its buffer keeps its block, and a buffer that it
holds is left alone. -/
theorem Fits.frame {c : Pc} (h : Fits s p c)
    (given : ∀ b, s.assigned b = true → s'.assigned b = true)
    (keys : ∀ b, c.buf = some b → s'.key b = s.key b)
    (held : ∀ b, s.lock b = some p → s'.lock b = some p ∧
      (s.modified b = false → s'.modified b = false) ∧ (s.valid b = true → s'.valid b = true)) :
    Fits s' p c := by
  cases c with
  | ready => trivial
  | locking x k => exact ⟨given x h.1, (keys x rfl).trans h.2⟩
  | checking x k =>
    obtain ⟨assigned, key, lock, calm⟩ := h
    obtain ⟨lock', calm', -⟩ := held x lock
    exact ⟨given x assigned, (keys x rfl).trans key, lock', calm' calm⟩
  | returned x k =>
    obtain ⟨assigned, key, lock, calm, valid⟩ := h
    obtain ⟨lock', calm', valid'⟩ := held x lock
    exact ⟨given x assigned, (keys x rfl).trans key, lock', calm' calm, valid' valid⟩
  | releasing x => exact given x h

theorem Inv.recount (inv : Inv s xs) {lock' : Buf → Option P} {refcnt' : Buf → Nat} {c : Pc}
    (o o' : Option Buf) (before : (s.pc p).waits = o) (after : c.waits = o')
    (balance : ∀ x, (refcnt' x : Int) =
      s.refcnt x + held (lock' x) - held (s.lock x) + credit o' x - credit o x) (x : Buf) :
    refcnt' x = holders lock' (update s.pc p c) x := by
  have moved := holders_moves s.lock lock' before after x
  have counted := inv.counted x
  have change := balance x
  omega

theorem Inv.referenced (inv : Inv s xs) (at_b : (s.pc p).buf = some b) : 0 < s.refcnt b := by
  have fits := inv.fits p
  have waiting : (s.pc p).waits = some b → 0 < s.refcnt b := by
    intro waits
    have pos : 0 < tally (fun q => (s.pc q).waits) b := tally_pos (i := p) waits
    rw [inv.counted b, holders]
    omega
  have holding : s.lock b = some p → 0 < s.refcnt b := by
    intro lock
    rw [inv.counted b, holders, lock, held]
    omega
  cases here : s.pc p with
  | ready => simp [here, Pc.buf] at at_b
  | locking x k =>
    rw [here] at at_b
    exact waiting (by rw [here]; exact at_b)
  | checking x k =>
    rw [here] at at_b fits
    cases at_b
    exact holding fits.2.2.1
  | returned x k =>
    rw [here] at at_b fits
    cases at_b
    exact holding fits.2.2.1
  | releasing x =>
    rw [here] at at_b
    exact waiting (by rw [here]; exact at_b)

theorem Inv.unlocked (inv : Inv s xs) (free : s.refcnt b = 0) : s.lock b = none := by
  have counted := inv.counted b
  rw [free, holders] at counted
  cases lock : s.lock b with
  | none => rfl
  | some q =>
    rw [lock, held] at counted
    omega

end References

end Invariant

end BasicOS.Bio
