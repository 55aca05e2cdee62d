/-
# BasicOS.Log.Cache — the log over the buffer cache

The log keeps the blocks of a transaction in the cache until they are committed:
`log_write` marks their buffers dirty, and `bget` recycles no dirty buffer.  The cache has
`NBUF` buffers, and the log may hold as many blocks.

The machine is that of `Log.Protocol` together with that of `Dev.Bio`.  Any process may use
the cache at any time; only a commit calls `bwrite`.  A commit ends when it has written
every block of the header home.  So a dirty buffer is that of a block in the header which
the commit, if there is one, has still to write (`Ok`).

`commit` is the code of log.c as calls of bio.c.

* `commit_buffers` — with no other process at the cache and a log no longer than `NBUF`, every
  `bread` of the commit finds a buffer, and no buffer is dirty after it.
* `commit_starved` — a log of `LOGSIZE + 1` blocks on the disk can hold `LOGSIZE`, and then every
  buffer is dirty and the commit has none for its first log block.
-/
import BasicOS.Dev.Alone
import BasicOS.Log.Admission
import BasicOS.Log.Commit

namespace BasicOS.LogCache

open Lib Function
open Bio (Buf Key nbuf)

set_option autoImplicit false
set_option linter.unusedSectionVars false

/-! ## The machine -/

section Model

variable {P : Type} [DecidableEq P]

structure Sys (P : Type) where
  cache : Bio.Cache P Block
  proto : Protocol.Sys P
  /-- What the running commit has written with `bwrite`. -/
  written : List Key

inductive Event (P : Type) where
  | cache (p : P) (a : Bio.Act Block)
  | log (e : Protocol.Event P)
  /-- The locked part of `log_write`. -/
  | logWrite (p : P) (b : Buf)

variable (dev : UInt32)

/-- Block `x` of the device. -/
def homeKey (x : Nat) : Key :=
  (dev, UInt32.ofNat x)

/-- Block `i` of the log; the header is block 0. -/
def logKey (lg : Log) (i : Nat) : Key :=
  (dev, UInt32.ofNat (lg.start + i))

def cacheStep (s : Sys P) (p : P) : Bio.Act Block → Option (Sys P)
  | .logWrite _ => none
  | .bwrite b =>
    if s.proto.phase p = .committing then
      (Bio.step s.cache (p, .bwrite b)).map fun c =>
        { s with cache := c, written := s.cache.key b :: s.written }
    else none
  | a => (Bio.step s.cache (p, a)).map fun c => { s with cache := c }

/-- A commit ends when every block of the header is written. -/
def logStep (s : Sys P) : Protocol.Event P → Option (Sys P)
  | .logAppend _ _ => none
  | .commit p =>
    if ∀ x ∈ s.proto.log.lh, homeKey dev x ∈ s.written then
      (Protocol.step s.proto (.commit p)).map fun q => { s with proto := q, written := [] }
    else none
  | e => (Protocol.step s.proto e).map fun q => { s with proto := q }

/-- fs.c logs blocks of the device that are not blocks of the log. -/
def Loggable (lg : Log) (k : Key) : Prop :=
  k.1 = dev ∧ ∀ i < lg.size, k ≠ logKey dev lg i

instance (lg : Log) (k : Key) : Decidable (Loggable dev lg k) :=
  inferInstanceAs (Decidable (_ ∧ _))

def act (s : Sys P) : Event P → Option (Sys P)
  | .cache p a => cacheStep s p a
  | .log e => logStep dev s e
  | .logWrite p b =>
    if Loggable dev s.proto.log (s.cache.key b) then
      match Bio.step s.cache (p, .logWrite b),
          Protocol.step s.proto (.logAppend p (s.cache.key b).2.toNat) with
      | some c, some q => some { s with cache := c, proto := q }
      | _, _ => none
    else none

def step (s : Sys P) (e : Event P) : Option (Sys P) :=
  if s.proto.panicked.isSome then none else act dev s e

/-- The log that `initlog` sets up, over the cache as recovery leaves it. -/
def init (c : Bio.Cache P Block) (start size : Nat) : Sys P :=
  ⟨c, Protocol.init start size, []⟩

/-! ## The code -/

def bread (p : P) (k : Key) (s : Sys P) : Option (Buf × Sys P) := do
  let s ← step dev s (.cache p (.bread k))
  let s ← step dev s (.cache p .go)
  let s ← step dev s (.cache p .go)
  match s.cache.pc p with
  | .returned b _ => (step dev s (.cache p .go)).map fun s => (b, s)
  | _ => none

/-- New data for a buffer, and `bwrite`. -/
def store (p : P) (b : Buf) (d : Block) (s : Sys P) : Option (Sys P) := do
  let s ← step dev s (.cache p (.modify b d))
  step dev s (.cache p (.bwrite b))

def brelse (p : P) (b : Buf) (s : Sys P) : Option (Sys P) := do
  let s ← step dev s (.cache p (.brelse b))
  step dev s (.cache p .go)

/-- Copy modified blocks from cache to log. -/
def writeLog (p : P) : Nat → List Nat → Sys P → Option (Sys P)
  | _, [], s => some s
  | tail, x :: xs, s => do
      let (lbuf, s) ← bread dev p (logKey dev s.proto.log (tail + 1)) s
      let (cbuf, s) ← bread dev p (homeKey dev x) s
      let s ← store dev p lbuf (s.cache.data cbuf) s
      let s ← brelse dev p cbuf s
      let s ← brelse dev p lbuf s
      writeLog p (tail + 1) xs s

/-- Copy committed blocks from log to their home location. -/
def installTrans (p : P) : Nat → List Nat → Sys P → Option (Sys P)
  | _, [], s => some s
  | tail, x :: xs, s => do
      let (lbuf, s) ← bread dev p (logKey dev s.proto.log (tail + 1)) s
      let (dbuf, s) ← bread dev p (homeKey dev x) s
      let s ← store dev p dbuf (s.cache.data lbuf) s
      let s ← brelse dev p lbuf s
      let s ← brelse dev p dbuf s
      installTrans p (tail + 1) xs s

/-- Write a header to disk. -/
def writeHead (p : P) (lh : List Nat) (s : Sys P) : Option (Sys P) := do
  let (buf, s) ← bread dev p (logKey dev s.proto.log 0) s
  let s ← store dev p buf (putHead (s.cache.data buf) lh) s
  brelse dev p buf s

/-- `commit`.  The header in memory is cleared by the last step; nobody looks at it
before. -/
def commit (p : P) (s : Sys P) : Option (Sys P) :=
  if s.proto.log.lh.length > 0 then do
    let lh := s.proto.log.lh
    let s ← writeLog dev p 0 lh s
    let s ← writeHead dev p lh s
    let s ← installTrans dev p 0 lh s
    let s ← writeHead dev p [] s
    step dev s (.log (.commit p))
  else step dev s (.log (.commit p))

/-! ## What a step can do -/

/-- The steps, with their guards. -/
inductive Moves (s : Sys P) : Event P → Sys P → Prop where
  | cache {p : P} {a : Bio.Act Block} {c : Bio.Cache P Block} (plain : ∀ b, a ≠ .logWrite b)
      (does : Bio.step s.cache (p, a) = some c) {written : List Key}
      (wrote : written = s.written ∧ (∀ b, a ≠ .bwrite b) ∨
        s.proto.phase p = .committing ∧ ∃ b, a = .bwrite b ∧ written = s.cache.key b :: s.written) :
      Moves s (.cache p a) { s with cache := c, written }
  | commit {p : P} {q : Protocol.Sys P} (all : ∀ x ∈ s.proto.log.lh, homeKey dev x ∈ s.written)
      (does : Protocol.Moves s.proto (.commit p) q) :
      Moves s (.log (.commit p)) { s with proto := q, written := [] }
  | log {e : Protocol.Event P} {q : Protocol.Sys P} (plain : ∀ p, e ≠ .commit p)
      (silent : ∀ p b, e ≠ .logAppend p b) (does : Protocol.Moves s.proto e q) :
      Moves s (.log e) { s with proto := q }
  | logWrite {p : P} {b : Buf} {c : Bio.Cache P Block} {q : Protocol.Sys P}
      (allowed : Loggable dev s.proto.log (s.cache.key b))
      (marks : Bio.step s.cache (p, .logWrite b) = some c)
      (does : Protocol.Moves s.proto (.logAppend p (s.cache.key b).2.toNat) q) :
      Moves s (.logWrite p b) { s with cache := c, proto := q }

variable {dev} {s s' : Sys P}

theorem moves_of_step {e : Event P} (stepped : step dev s e = some s') : Moves dev s e s' := by
  simp only [step, Option.ite_none_left_eq_some] at stepped
  obtain ⟨-, acts⟩ := stepped
  cases e with
  | cache p a =>
    simp only [act] at acts
    cases a with
    | logWrite b => cases acts
    | bwrite b =>
      simp only [cacheStep, Option.ite_none_right_eq_some, Option.map_eq_some_iff] at acts
      obtain ⟨phase, c, does, rfl⟩ := acts
      exact .cache (by nofun) does (.inr ⟨phase, b, rfl, rfl⟩)
    | _ =>
      obtain ⟨c, does, rfl⟩ := Option.map_eq_some_iff.mp acts
      exact .cache (by nofun) does (.inl ⟨rfl, by nofun⟩)
  | log e =>
    simp only [act] at acts
    cases e with
    | logAppend p b => cases acts
    | commit p =>
      simp only [logStep, Option.ite_none_right_eq_some, Option.map_eq_some_iff] at acts
      obtain ⟨all, q, does, rfl⟩ := acts
      exact .commit all (Protocol.moves_of_step does).2
    | _ =>
      obtain ⟨q, does, rfl⟩ := Option.map_eq_some_iff.mp acts
      exact .log (by nofun) (by nofun) (Protocol.moves_of_step does).2
  | logWrite p b =>
    simp only [act, Option.ite_none_right_eq_some] at acts
    obtain ⟨allowed, acts⟩ := acts
    split at acts
    · rename_i c q marks does
      cases acts
      exact .logWrite allowed marks (Protocol.moves_of_step does).2
    · cases acts

end Model

/-! ## The invariant -/

section Invariant

variable {P : Type} [DecidableEq P] [Fintype P] {dev : UInt32} {s s' : Sys P}

structure Ok (dev : UInt32) (s : Sys P) : Prop where
  cache : ∃ xs, Bio.Inv s.cache xs
  proto : Protocol.Inv s.proto.log s.proto.phase
  /-- A dirty buffer is for a block of the header that is still to be written home. -/
  dirty : ∀ b, s.cache.dirty b = true →
    ∃ x ∈ s.proto.log.lh, s.cache.key b = homeKey dev x ∧ homeKey dev x ∉ s.written
  /-- The header has blocks outside the log. -/
  home : ∀ x ∈ s.proto.log.lh, Loggable dev s.proto.log (homeKey dev x)
  /-- Only a commit writes. -/
  busy : s.written ≠ [] → ∃ p, s.proto.phase p = .committing

theorem moves_fixed {q q' : Protocol.Sys P} {e : Protocol.Event P} (h : Protocol.Moves q e q') :
    q'.log.start = q.log.start ∧ q'.log.size = q.log.size := by
  cases h <;> exact ⟨rfl, rfl⟩

theorem Loggable.congr {lg lg' : Log} (same : lg'.start = lg.start ∧ lg'.size = lg.size) {k : Key}
    (ok : Loggable dev lg k) : Loggable dev lg' k := by
  unfold Loggable logKey
  rw [same.1, same.2]
  exact ok

/-- Only the end of its commit takes a process out of it. -/
theorem committing_stays {q q' : Protocol.Sys P} {e : Protocol.Event P} {p : P}
    (h : Protocol.Moves q e q') (here : q.phase p = .committing) (other : ∀ p, e ≠ .commit p) :
    q'.phase p = .committing := by
  have elsewhere : ∀ {r : P} {x : Protocol.Phase}, q.phase r ≠ .committing →
      update q.phase r x p = .committing := by
    intro r x away
    rw [update_of_ne fun same => away (by rw [← same, here])]
    exact here
  cases h with
  | sleep at_p => exact elsewhere (by rcases at_p with h | h <;> rw [h] <;> nofun)
  | admitted at_p => exact elsewhere (by rcases at_p with h | h <;> rw [h] <;> nofun)
  | tooBig => exact here
  | outside => exact here
  | check at_p => exact elsewhere (by rw [at_p]; nofun)
  | append at_p => exact elsewhere (by rw [at_p]; nofun)
  | clash => exact here
  | last at_p => exact elsewhere (by rw [at_p]; nofun)
  | leave at_p =>
    show (update q.phase _ .idle p).wake = .committing
    rw [elsewhere (by rw [at_p]; nofun)]
    rfl
  | commit => exact absurd rfl (other _)
  | finish at_p =>
    show (update q.phase _ .idle p).wake = .committing
    rw [elsewhere (by rw [at_p]; nofun)]
    rfl

theorem homeKey_toNat {k : Key} (device : k.1 = dev) : homeKey dev k.2.toNat = k := by
  rw [homeKey, UInt32.ofNat_toNat, ← device]

/-- Every step keeps the invariant. -/
theorem step_ok {e : Event P} (ok : Ok dev s) (stepped : step dev s e = some s') : Ok dev s' := by
  obtain ⟨xs, inv⟩ := ok.cache
  cases moves_of_step stepped with
  | @cache p a c plain does written wrote =>
    refine ⟨Bio.step_inv inv does, ok.proto, fun b set => ?_, ok.home, fun some_written => ?_⟩
    · obtain ⟨before, away⟩ := Bio.step_dirty inv does plain set
      obtain ⟨x, mem, key, left⟩ := ok.dirty b before
      refine ⟨x, mem, (Bio.step_key inv does (.inr before)).trans key, ?_⟩
      rcases wrote with ⟨rfl, -⟩ | ⟨-, b', rfl, rfl⟩
      · exact left
      · -- the buffer that was written is clean now, and no other is for its block
        rw [List.mem_cons, not_or]
        refine ⟨fun same => away b' rfl ?_, left⟩
        have guard := (Option.ite_none_right_eq_some.mp does).1
        exact inv.indexed.unique (inv.given_of_dirty before) (inv.owned b' p guard.2).1
          (key.trans same)
    · rcases wrote with ⟨rfl, -⟩ | ⟨phase, -⟩
      · exact ok.busy some_written
      · exact ⟨p, phase⟩
  | @commit p q all does =>
    have cleared : q.log.lh = [] := (Protocol.moves_header does).1
    refine ⟨ok.cache, Protocol.moves_inv ok.proto does, fun b set => ?_, ?_, fun h => absurd rfl h⟩
    · obtain ⟨x, mem, -, left⟩ := ok.dirty b set
      exact absurd (all x mem) left
    · show ∀ x ∈ q.log.lh, _
      rw [cleared]
      exact nofun
  | @log e q plain silent does =>
    have header : q.log.lh = s.proto.log.lh := by
      rw [(Protocol.moves_header does).1]
      cases e with
      | logAppend p b => exact absurd rfl (silent p b)
      | commit p => exact absurd rfl (plain p)
      | _ => rfl
    refine ⟨ok.cache, Protocol.moves_inv ok.proto does, ?_, ?_, fun some_written => ?_⟩
    · show ∀ b, s.cache.dirty b = true → ∃ x ∈ q.log.lh, _
      rw [header]
      exact ok.dirty
    · show ∀ x ∈ q.log.lh, Loggable dev q.log _
      rw [header]
      exact fun x mem => (ok.home x mem).congr (moves_fixed does)
    · obtain ⟨p, here⟩ := ok.busy some_written
      exact ⟨p, committing_stays does here plain⟩
  | @logWrite p b c q allowed marks does =>
    obtain ⟨guard, marked⟩ := Option.ite_none_right_eq_some.mp marks
    have marked := Option.some.inj marked
    have header : q.log.lh = Log.absorb s.proto.log.lh (s.cache.key b).2.toNat :=
      (Protocol.moves_header does).1
    have this_key : homeKey dev (s.cache.key b).2.toNat = s.cache.key b :=
      homeKey_toNat allowed.1
    -- an operation runs, so no commit does
    have none_written : s.written = [] := by
      by_contra some_written
      obtain ⟨r, commits⟩ := ok.busy some_written
      have idle : s.proto.log.committing = false := by
        cases does with
        | append here => exact ok.proto.not_committing (p := p) (by rw [here]; rfl)
      have calm := ok.proto.no_commits idle r
      rw [commits] at calm
      cases calm
    refine ⟨Bio.step_inv inv marks, Protocol.moves_inv ok.proto does, ?_, ?_,
      fun h => absurd none_written h⟩
    · intro b' set
      show ∃ x ∈ q.log.lh, _
      rw [header]
      subst marked
      by_cases same : b' = b
      · refine ⟨_, Log.mem_absorb.mpr (.inr rfl), ?_, ?_⟩
        · rw [this_key, same]
        · rw [none_written]
          exact List.not_mem_nil
      · have before : s.cache.dirty b' = true := by
          have set : update s.cache.dirty b true b' = true := set
          rwa [update_of_ne same] at set
        obtain ⟨x, mem, rest⟩ := ok.dirty b' before
        exact ⟨x, Log.mem_absorb.mpr (.inl mem), rest⟩
    · show ∀ x ∈ q.log.lh, Loggable dev q.log _
      rw [header]
      intro x mem
      rcases Log.mem_absorb.mp mem with old | rfl
      · exact (ok.home x old).congr (moves_fixed does)
      · rw [this_key]
        exact allowed.congr (moves_fixed does)

/-! ## A commit with nobody else at the cache -/

section Commit

variable {p : P} {own : List Buf} {left : List Nat} {b : Buf} {k : Key} {x : Nat}

/-- A process has the buffers `own`, and nobody else is at the cache; the dirty buffers are for
blocks among `left`. -/
structure Working (dev : UInt32) (s : Sys P) (p : P) (own : List Buf) (left : List Nat) :
    Prop where
  running : s.proto.panicked = none
  inv : ∃ xs, Bio.Inv s.cache xs
  alone : Bio.Alone s.cache p own
  dirty : ∀ b, s.cache.dirty b = true → ∃ x ∈ left, s.cache.key b = homeKey dev x

/-- `bget` has the block, or a buffer for it. -/
def Free (s : Sys P) (own : List Buf) (k : Key) : Prop :=
  (∃ b, s.cache.assigned b = true ∧ s.cache.key b = k) ∨
    ∃ b : Fin nbuf, some b ∉ own ∧ s.cache.dirty (some b) = false

theorem Working.free (work : Working dev s p own left) (few : left.length + own.length < nbuf)
    (k : Key) : Free s own k := by
  obtain ⟨xs, inv⟩ := work.inv
  refine .inr (Bio.exists_clean inv (left.map (homeKey dev)) (fun b set => ?_) (by simpa))
  obtain ⟨x, mem, key⟩ := work.dirty b set
  exact List.mem_map.mpr ⟨x, mem, key.symm⟩

/-- For one of the blocks themselves there is a buffer in any case: if it is not in the cache,
one less is dirty. -/
theorem Working.free_home (work : Working dev s p own left) (mem : x ∈ left)
    (few : left.length + own.length ≤ nbuf) : Free s own (homeKey dev x) := by
  obtain ⟨xs, inv⟩ := work.inv
  by_cases cached : ∃ b, s.cache.assigned b = true ∧ s.cache.key b = homeKey dev x
  · exact .inl cached
  · have less := List.length_erase_of_mem mem
    have pos := List.length_pos_of_mem mem
    refine .inr (Bio.exists_clean inv ((left.erase x).map (homeKey dev)) (fun b set => ?_) (by
      rw [List.length_map]
      omega))
    obtain ⟨y, there, key⟩ := work.dirty b set
    have other : y ≠ x := by
      rintro rfl
      exact cached ⟨b, inv.given_of_dirty set, key⟩
    exact List.mem_map.mpr ⟨y, (List.mem_erase_of_ne other).mpr there, key.symm⟩

theorem step_plain {a : Bio.Act Block} {c : Bio.Cache P Block} (running : s.proto.panicked = none)
    (does : Bio.step s.cache (p, a) = some c) (plain : ∀ b, a ≠ .logWrite b ∧ a ≠ .bwrite b) :
    step dev s (.cache p a) = some { s with cache := c } := by
  simp only [step, running, Option.isSome_none, Bool.false_eq_true, if_false, act]
  cases a with
  | logWrite b => exact absurd rfl (plain b).1
  | bwrite b => exact absurd rfl (plain b).2
  | _ => simp only [cacheStep, does, Option.map_some]

theorem bread_spec (work : Working dev s p own left) (apart : ∀ b ∈ own, s.cache.key b ≠ k)
    (free : Free s own k) :
    ∃ b s', bread dev p k s = some (b, s') ∧ Working dev s' p (b :: own) left ∧
      s'.proto = s.proto ∧ s'.written = s.written ∧ b ∉ own ∧ s'.cache.key b = k ∧
      s'.cache.dirty = s.cache.dirty ∧
      ∀ c, c ∈ own ∨ s.cache.dirty c = true → s'.cache.key c = s.cache.key c := by
  obtain ⟨xs, inv⟩ := work.inv
  obtain ⟨b, c₁, c₂, c₃, c₄, first, second, third, here, fourth, got⟩ :=
    work.alone.bread inv apart free
  have chosen : step dev s (.cache p (.bread k)) = some { s with cache := c₁ } :=
    step_plain work.running first (by simp)
  have locked : step dev { s with cache := c₁ } (.cache p .go) = some { s with cache := c₂ } :=
    step_plain work.running second (by simp)
  have checked : step dev { s with cache := c₂ } (.cache p .go) = some { s with cache := c₃ } :=
    step_plain work.running third (by simp)
  have returned : step dev { s with cache := c₃ } (.cache p .go) = some { s with cache := c₄ } :=
    step_plain work.running fourth (by simp)
  refine ⟨b, { s with cache := c₄ }, ?_, ⟨work.running, got.inv, got.alone,
    fun c set => ?_⟩, rfl, rfl, got.fresh, got.key, got.dirty, got.keeps⟩
  · simp only [bread, chosen, locked, checked, here, returned, Option.bind_eq_bind,
      Option.bind_some, Option.map_some]
  · have before : s.cache.dirty c = true := by rwa [← got.dirty]
    obtain ⟨x, mem, key⟩ := work.dirty c before
    exact ⟨x, mem, (got.keeps c (.inr before)).trans key⟩

/-- A buffer that is written is clean. -/
theorem store_spec (left' : List Nat) (work : Working dev s p own left)
    (commits : s.proto.phase p = .committing) (mine : b ∈ own) (d : Block)
    (rest : ∀ x ∈ left, homeKey dev x ≠ s.cache.key b → x ∈ left') :
    ∃ s', store dev p b d s = some s' ∧ Working dev s' p own left' ∧ s'.proto = s.proto ∧
      s'.written = s.cache.key b :: s.written ∧ s'.cache.key = s.cache.key := by
  obtain ⟨xs, inv⟩ := work.inv
  obtain ⟨c₁, c₂, first, key₁, second, inv₂, alone₂, key₂, dirty₂⟩ := work.alone.bwrite inv mine d
  have changed : step dev s (.cache p (.modify b d)) = some { s with cache := c₁ } :=
    step_plain work.running first (by simp)
  have wrote : step dev { s with cache := c₁ } (.cache p (.bwrite b)) =
      some { s with cache := c₂, written := c₁.key b :: s.written } := by
    simp only [step, work.running, Option.isSome_none, Bool.false_eq_true, if_false, act, cacheStep,
      commits, if_true, second, Option.map_some]
  refine ⟨{ s with cache := c₂, written := c₁.key b :: s.written }, ?_,
    ⟨work.running, inv₂, alone₂, fun c set => ?_⟩, rfl, ?_, key₂⟩
  · simp only [store, changed, wrote, Option.bind_eq_bind, Option.bind_some]
  · have set : update s.cache.dirty b false c = true := by rwa [← dirty₂]
    have other : c ≠ b := by
      rintro rfl
      rw [update_self] at set
      cases set
    rw [update_of_ne other] at set
    obtain ⟨x, mem, key⟩ := work.dirty c set
    have lock : s.cache.lock b = some p := by rw [work.alone.lock, if_pos mine]
    refine ⟨x, rest x mem fun same => other ?_, by rw [key₂, key]⟩
    exact inv.indexed.unique (inv.given_of_dirty set) (inv.owned b p lock).1 (key.trans same)
  · show c₁.key b :: s.written = _
    rw [key₁]

theorem brelse_spec (own' : List Buf) (work : Working dev s p own left) (mine : b ∈ own)
    (rest : ∀ c, c ∈ own' ↔ c ∈ own ∧ c ≠ b) :
    ∃ s', brelse dev p b s = some s' ∧ Working dev s' p own' left ∧ s'.proto = s.proto ∧
      s'.written = s.written ∧ s'.cache.key = s.cache.key ∧ s'.cache.dirty = s.cache.dirty := by
  obtain ⟨xs, inv⟩ := work.inv
  obtain ⟨c₁, c₂, first, second, inv₂, alone₂, key₂, dirty₂⟩ := work.alone.brelse inv mine rest
  have unlocked : step dev s (.cache p (.brelse b)) = some { s with cache := c₁ } :=
    step_plain work.running first (by simp)
  have dropped : step dev { s with cache := c₁ } (.cache p .go) = some { s with cache := c₂ } :=
    step_plain work.running second (by simp)
  refine ⟨{ s with cache := c₂ }, ?_, ⟨work.running, inv₂, alone₂, fun c set => ?_⟩,
    rfl, rfl, key₂, dirty₂⟩
  · simp only [brelse, unlocked, dropped, Option.bind_eq_bind, Option.bind_some]
  · obtain ⟨x, mem, key⟩ := work.dirty c (by rwa [← dirty₂])
    exact ⟨x, mem, by rw [key₂, key]⟩

/-- A log block and a block of the header are in two buffers. -/
theorem breads_spec {i : Nat} (work : Working dev s p [] left) (fits : left.length < nbuf)
    (mem : x ∈ left) (home : Loggable dev s.proto.log (homeKey dev x))
    (inside : i < s.proto.log.size) :
    ∃ lbuf s₁ cbuf s₂, bread dev p (logKey dev s.proto.log i) s = some (lbuf, s₁) ∧
      bread dev p (homeKey dev x) s₁ = some (cbuf, s₂) ∧
      Working dev s₂ p [cbuf, lbuf] left ∧ s₂.proto = s.proto ∧ s₂.written = s.written ∧
      cbuf ≠ lbuf ∧ s₂.cache.key lbuf = logKey dev s.proto.log i ∧
      s₂.cache.key cbuf = homeKey dev x := by
  obtain ⟨lbuf, s₁, first, work₁, proto₁, written₁, -, key₁, -, -⟩ :=
    bread_spec work nofun (work.free fits (logKey dev s.proto.log i))
  have apart : ∀ b ∈ [lbuf], s₁.cache.key b ≠ homeKey dev x := by
    intro b own
    rw [List.mem_singleton.mp own, key₁]
    exact (home.2 i inside).symm
  obtain ⟨cbuf, s₂, second, work₂, proto₂, written₂, fresh, key₂, -, kept⟩ :=
    bread_spec work₁ apart (work₁.free_home mem fits)
  refine ⟨lbuf, s₁, cbuf, s₂, first, second, work₂, proto₂.trans proto₁, written₂.trans written₁,
    fun same => fresh (List.mem_singleton.mpr same), ?_, key₂⟩
  rw [kept lbuf (.inl (List.mem_singleton.mpr rfl)), key₁]

theorem writeLog_spec {tail : Nat} {xs lh : List Nat} (work : Working dev s p [] lh)
    (commits : s.proto.phase p = .committing) (fits : lh.length < nbuf)
    (home : ∀ x ∈ lh, Loggable dev s.proto.log (homeKey dev x))
    (logged : ∀ x ∈ xs, x ∈ lh) (inside : tail + xs.length < s.proto.log.size) :
    ∃ s', writeLog dev p tail xs s = some s' ∧ Working dev s' p [] lh ∧ s'.proto = s.proto := by
  induction xs generalizing s tail with
  | nil => exact ⟨s, rfl, work, rfl⟩
  | cons x xs ih =>
    have mem := logged x List.mem_cons_self
    rw [List.length_cons] at inside
    obtain ⟨lbuf, s₁, cbuf, s₂, first, second, work₂, proto₂, -, apart, -, -⟩ :=
      breads_spec work fits mem (home x mem) (i := tail + 1) (by omega)
    obtain ⟨s₃, third, work₃, proto₃, -, -⟩ :=
      store_spec lh work₂ (by rwa [proto₂]) (b := lbuf) (by simp) (s₂.cache.data cbuf)
        fun x mem _ => mem
    obtain ⟨s₄, fourth, work₄, proto₄, -⟩ := brelse_spec [lbuf] work₃ (b := cbuf) (by simp)
      (by grind)
    obtain ⟨s₅, fifth, work₅, proto₅, -⟩ := brelse_spec [] work₄ (b := lbuf) (by simp)
      (by grind)
    have same : s₅.proto = s.proto := by rw [proto₅, proto₄, proto₃, proto₂]
    have inside₅ : tail + 1 + xs.length < s₅.proto.log.size := by
      rw [same]
      omega
    obtain ⟨s', rest, work', proto'⟩ := ih work₅ (by rwa [same]) (by rwa [same])
      (fun y mem => logged y (List.mem_cons_of_mem _ mem)) inside₅
    refine ⟨s', ?_, work', proto'.trans same⟩
    simp only [writeLog, first, second, third, fourth, fifth, rest, Option.bind_eq_bind,
      Option.bind_some]

/-- Every block is written home, and the buffers are clean one after the other. -/
theorem installTrans_spec {tail : Nat} {xs : List Nat} (work : Working dev s p [] xs)
    (commits : s.proto.phase p = .committing) (fits : xs.length < nbuf)
    (home : ∀ x ∈ xs, Loggable dev s.proto.log (homeKey dev x))
    (inside : tail + xs.length < s.proto.log.size) :
    ∃ s', installTrans dev p tail xs s = some s' ∧ Working dev s' p [] [] ∧
      s'.proto = s.proto ∧ (∀ k ∈ s.written, k ∈ s'.written) ∧
      ∀ x ∈ xs, homeKey dev x ∈ s'.written := by
  induction xs generalizing s tail with
  | nil => exact ⟨s, rfl, work, rfl, fun _ => id, nofun⟩
  | cons x xs ih =>
    rw [List.length_cons] at inside fits
    obtain ⟨lbuf, s₁, dbuf, s₂, first, second, work₂, proto₂, written₂, apart, -, key₂⟩ :=
      breads_spec work fits List.mem_cons_self (home x List.mem_cons_self) (i := tail + 1)
        (by omega)
    obtain ⟨s₃, third, work₃, proto₃, written₃, -⟩ :=
      store_spec xs work₂ (by rwa [proto₂]) (b := dbuf) (by simp) (s₂.cache.data lbuf) (by
        intro y mem other
        rw [key₂] at other
        exact (List.mem_cons.mp mem).resolve_left fun same => other (by rw [same]))
    obtain ⟨s₄, fourth, work₄, proto₄, written₄, -, -⟩ := brelse_spec [dbuf] work₃ (b := lbuf)
      (by simp) (by grind)
    obtain ⟨s₅, fifth, work₅, proto₅, written₅, -, -⟩ := brelse_spec [] work₄ (b := dbuf)
      (by simp) (by grind)
    have same : s₅.proto = s.proto := by rw [proto₅, proto₄, proto₃, proto₂]
    have wrote : s₅.written = homeKey dev x :: s.written := by
      rw [written₅, written₄, written₃, key₂, written₂]
    have inside₅ : tail + 1 + xs.length < s₅.proto.log.size := by
      rw [same]
      omega
    have home₅ : ∀ y ∈ xs, Loggable dev s₅.proto.log (homeKey dev y) := by
      rw [same]
      exact fun y mem => home y (List.mem_cons_of_mem _ mem)
    obtain ⟨s', rest, work', proto', kept, done⟩ :=
      ih work₅ (by rwa [same]) (by omega) home₅ inside₅
    refine ⟨s', ?_, work', proto'.trans same, fun k mem => kept k ?_, fun y mem => ?_⟩
    · simp only [installTrans, first, second, third, fourth, fifth, rest, Option.bind_eq_bind,
        Option.bind_some]
    · rw [wrote]
      exact List.mem_cons_of_mem _ mem
    · rcases List.mem_cons.mp mem with rfl | mem
      · exact kept _ (by rw [wrote]; exact List.mem_cons_self)
      · exact done y mem

theorem writeHead_spec (work : Working dev s p [] left)
    (commits : s.proto.phase p = .committing) (fits : left.length < nbuf) (lh : List Nat) :
    ∃ s', writeHead dev p lh s = some s' ∧ Working dev s' p [] left ∧
      s'.proto = s.proto ∧ ∀ k ∈ s.written, k ∈ s'.written := by
  obtain ⟨buf, s₁, first, work₁, proto₁, written₁, -, -, -, -⟩ :=
    bread_spec work nofun (work.free fits (logKey dev s.proto.log 0))
  obtain ⟨s₂, second, work₂, proto₂, written₂, -⟩ := store_spec left work₁ (by rwa [proto₁])
    (b := buf) (by simp) (putHead (s₁.cache.data buf) lh) fun x mem _ => mem
  obtain ⟨s₃, third, work₃, proto₃, written₃, -, -⟩ := brelse_spec [] work₂ (b := buf) (by simp)
    (by grind)
  refine ⟨s₃, ?_, work₃, by rw [proto₃, proto₂, proto₁], fun k mem => ?_⟩
  · simp only [writeHead, first, second, third, Option.bind_eq_bind, Option.bind_some]
  · rw [written₃, written₂, written₁]
    exact List.mem_cons_of_mem _ mem

/-- The end of a commit, when every block of the header is written. -/
theorem end_spec (running : s.proto.panicked = none) (commits : s.proto.phase p = .committing)
    (all : ∀ x ∈ s.proto.log.lh, homeKey dev x ∈ s.written) :
    ∃ s', step dev s (.log (.commit p)) = some s' ∧ s'.cache = s.cache ∧ s'.proto.log.lh = [] := by
  refine ⟨{ s with
    proto := { s.proto with
      log := { s.proto.log with lh := [] }
      phase := update s.proto.phase p .committed }
    written := [] }, ?_, rfl, rfl⟩
  simp only [step, running, Option.isSome_none, Bool.false_eq_true, if_false, act, logStep,
    if_pos all, Protocol.step, Protocol.act, commits, Option.map_some]

theorem commit_spec (ok : Ok dev s) (running : s.proto.panicked = none)
    (commits : s.proto.phase p = .committing) (alone : Bio.Alone s.cache p [])
    (fits : s.proto.log.lh.length < nbuf)
    (room : s.proto.log.lh.length ≤ s.proto.log.size - 1) :
    ∃ s', commit dev p s = some s' ∧ (∀ b, s'.cache.dirty b = false) ∧ s'.proto.log.lh = [] := by
  have work : Working dev s p [] s.proto.log.lh := by
    refine ⟨running, ok.cache, alone, fun b set => ?_⟩
    obtain ⟨x, mem, key, -⟩ := ok.dirty b set
    exact ⟨x, mem, key⟩
  have clean : ∀ {t : Sys P}, Working dev t p [] [] → ∀ b, t.cache.dirty b = false := by
    intro t work b
    by_contra set
    obtain ⟨x, mem, -⟩ := work.dirty b (by simpa using set)
    cases mem
  by_cases some_logged : s.proto.log.lh.length > 0
  · have inside : 0 + s.proto.log.lh.length < s.proto.log.size := by omega
    obtain ⟨s₁, first, work₁, proto₁⟩ :=
      writeLog_spec work commits fits ok.home (fun _ => id) inside
    obtain ⟨s₂, second, work₂, proto₂, -⟩ :=
      writeHead_spec work₁ (by rwa [proto₁]) fits s.proto.log.lh
    have same₂ : s₂.proto = s.proto := proto₂.trans proto₁
    obtain ⟨s₃, third, work₃, proto₃, -, wrote⟩ := installTrans_spec work₂ (by rwa [same₂]) fits
      (by rw [same₂]; exact ok.home) (by rw [same₂]; exact inside)
    have same₃ : s₃.proto = s.proto := proto₃.trans same₂
    obtain ⟨s₄, fourth, work₄, proto₄, kept⟩ :=
      writeHead_spec work₃ (by rwa [same₃]) (by decide) []
    have same₄ : s₄.proto = s.proto := proto₄.trans same₃
    obtain ⟨s', fifth, cache, lh⟩ := end_spec work₄.running (by rwa [same₄])
      (by rw [same₄]; exact fun x mem => kept _ (wrote x mem))
    refine ⟨s', ?_, by rw [cache]; exact clean work₄, lh⟩
    simp only [commit, if_pos some_logged, first, second, third, fourth, fifth, Option.bind_eq_bind,
      Option.bind_some]
  · have empty : s.proto.log.lh = [] := List.length_eq_zero_iff.mp (by omega)
    rw [empty] at work
    obtain ⟨s', ends, cache, lh⟩ := end_spec running commits (by rw [empty]; exact nofun)
    exact ⟨s', by rw [commit, if_neg some_logged, ends], by rw [cache]; exact clean work, lh⟩

end Commit

/-! ## Runs -/

/-- The cache as recovery leaves it: it calls everything but `log_write`. -/
theorem recovered {disk : Key → Block} {data : Buf → Block} {es : List (P × Bio.Act Block)}
    {c : Bio.Cache P Block} (booted : run Bio.step (Bio.boot disk data) es = some c)
    (recovery : ∀ e ∈ es, ∀ b, e.2 ≠ .logWrite b) :
    (∃ xs, Bio.Inv c xs) ∧ ∀ b, c.dirty b = false := by
  refine run_invariant_along Bio.step
    (I := fun c : Bio.Cache P Block => (∃ xs, Bio.Inv c xs) ∧ ∀ b, c.dirty b = false)
    (fun c e c' h plain stepped => ?_) ⟨Bio.boot_inv disk data, fun _ => rfl⟩
    (along_of_all Bio.step recovery) booted
  obtain ⟨⟨xs, inv⟩, clean⟩ := h
  refine ⟨Bio.step_inv inv stepped, fun b => ?_⟩
  by_contra set
  have before := (Bio.step_dirty inv stepped plain (by simpa using set)).1
  rw [clean b] at before
  cases before

theorem init_ok {c : Bio.Cache P Block} {start size : Nat} (inv : ∃ xs, Bio.Inv c xs)
    (clean : ∀ b, c.dirty b = false) : Ok dev (init c start size) := by
  refine ⟨inv, Protocol.inv_init start size, fun b set => ?_, nofun, fun h => absurd rfl h⟩
  have set : c.dirty b = true := set
  rw [clean b] at set
  cases set

/-- **A commit finds its buffers.**  Whenever a process begins its commit, nobody else is at the
cache, and the log has `NBUF` blocks or less on the disk, the commit ends, and no
buffer is dirty then. -/
theorem commit_buffers {disk : Key → Block} {data : Buf → Block} {boots : List (P × Bio.Act Block)}
    {c : Bio.Cache P Block} {start size : Nat} {es : List (Event P)} {p : P}
    (booted : run Bio.step (Bio.boot disk data) boots = some c)
    (recovery : ∀ e ∈ boots, ∀ b, e.2 ≠ .logWrite b)
    (reached : run (step dev) (init c start size) es = some s)
    (running : s.proto.panicked = none) (commits : s.proto.phase p = .committing)
    (quiet : ∀ q, s.cache.pc q = .ready ∧ ∀ b, s.cache.lock b ≠ some q)
    (room : s.proto.log.lh.length ≤ s.proto.log.size - 1) (short : s.proto.log.size ≤ nbuf) :
    (s.proto.log.outstanding = 0 ∧ s.proto.log.committing = true) ∧
      ∃ s', commit dev p s = some s' ∧ (∀ b, s'.cache.dirty b = false) ∧ s'.proto.log.lh = [] := by
  obtain ⟨inv, clean⟩ := recovered booted recovery
  have ok : Ok dev s := run_invariant (step dev) (fun _ _ _ ok stepped => step_ok ok stepped)
    (init_ok inv clean) reached
  have flag := ok.proto.flag p (by rw [commits]; rfl)
  have unlocked : ∀ b, s.cache.lock b = none := by
    intro b
    cases lock : s.cache.lock b with
    | none => rfl
    | some q => exact absurd lock ((quiet q).2 b)
  have alone : Bio.Alone s.cache p [] := by
    refine ⟨fun q => (quiet q).1, fun b => ?_, fun b => ?_⟩
    · rw [unlocked b, if_neg List.not_mem_nil]
    · obtain ⟨xs, inv⟩ := ok.cache
      by_contra changed
      exact inv.changed b (by simpa using changed) (unlocked b)
  refine ⟨⟨ok.proto.quiet flag, flag⟩, commit_spec ok running commits alone ?_ room⟩
  have pos : 0 < nbuf := by decide
  omega

end Invariant

/-- One block is logged, and its operation ends. -/
def oneLogged : List (Event (Fin 1)) :=
  [.log (.beginOp 0), .cache 0 (.bread (1, 50)), .cache 0 .go, .cache 0 .go, .cache 0 .go,
    .log (.logCheck 0 50), .logWrite 0 (some 0), .cache 0 (.brelse (some 0)), .cache 0 .go,
    .log (.endOp 0)]

theorem commit_oneLogged : ∃ s s' : Sys (Fin 1),
    run (step 1) (init (Bio.boot (fun _ _ => 0) fun _ _ => 0) 2 30) oneLogged = some s ∧
      s.proto.log.lh = [50] ∧ commit 1 0 s = some s' ∧ ∀ b, s'.cache.dirty b = false := by
  have shown : (run (step 1) (init (Bio.boot (fun _ _ => 0) fun _ _ => 0) 2 30) oneLogged).map
      (fun s : Sys (Fin 1) => (s.proto.panicked, s.proto.phase 0, s.proto.log.lh,
        s.proto.log.size, decide (∀ q, s.cache.pc q = .ready ∧ ∀ b, s.cache.lock b ≠ some q))) =
      some (none, .committing, [50], 30, true) := by
    decide +kernel
  obtain ⟨s, reached, seen⟩ := Option.map_eq_some_iff.mp shown
  simp only [Prod.mk.injEq, decide_eq_true_eq] at seen
  obtain ⟨running, commits, lh, size, quiet⟩ := seen
  have booted : run Bio.step (Bio.boot (fun _ _ => 0) fun _ _ => 0 : Bio.Cache (Fin 1) Block) [] =
      some (Bio.boot (fun _ _ => 0) fun _ _ => 0) := rfl
  obtain ⟨-, s', done, clean, -⟩ := commit_buffers booted nofun reached running commits quiet
    (by rw [lh, size]; decide) (by rw [size]; decide)
  exact ⟨s, s', reached, lh, done, clean⟩

/-- Block `100 + i` is read, logged and released; `bget` recycles the buffers in turn. -/
def logged (i : Nat) : List (Event (Fin 3)) :=
  let p := Fin.ofNat 3 (i / 10)
  let b := some (Fin.ofNat 30 i)
  [.cache p (.bread (homeKey 1 (100 + i))), .cache p .go, .cache p .go, .cache p .go,
    .log (.logCheck p (100 + i)), .logWrite p b, .cache p (.brelse b), .cache p .go]

/-- Three operations, with ten blocks each. -/
def thirtyLogged : List (Event (Fin 3)) :=
  [.log (.beginOp 0), .log (.beginOp 1), .log (.beginOp 2)] ++ (List.range 30).flatMap logged ++
    [.log (.endOp 0), .log (.endOp 1), .log (.endOp 2)]

/-- **A commit that finds no buffer.**  The log has 31 blocks on the disk, 30 are logged, and
nobody else is at the cache; every buffer is dirty. -/
theorem commit_starved : ∃ es, ∃ s : Sys (Fin 3),
    run (step 1) (init (Bio.boot (fun _ _ => 0) fun _ _ => 0) 2 31) es = some s ∧
      s.proto.panicked = none ∧ s.proto.phase 2 = .committing ∧ s.proto.log.outstanding = 0 ∧
      s.proto.log.committing = true ∧ s.proto.log.lh.length = s.proto.log.size - 1 ∧
      (∀ q, s.cache.pc q = .ready ∧ ∀ b, s.cache.lock b ≠ some q) ∧
      Bio.bget s.cache (logKey 1 s.proto.log 1) = none ∧ commit 1 2 s = none := by
  have shown : (run (step 1) (init (Bio.boot (fun _ _ => 0) fun _ _ => 0) 2 31) thirtyLogged).map
      (fun s : Sys (Fin 3) => ((s.proto.panicked, s.proto.phase 2),
        (s.proto.log.outstanding, s.proto.log.committing, s.proto.log.lh.length),
        (s.proto.log.size, decide (∀ q, s.cache.pc q = .ready ∧ ∀ b, s.cache.lock b ≠ some q)),
        (Bio.bget s.cache (logKey 1 s.proto.log 1)).isNone, (commit 1 2 s).isNone)) =
      some ((none, .committing), (0, true, 30), (31, true), true, true) := by
    decide +kernel
  obtain ⟨s, reached, seen⟩ := Option.map_eq_some_iff.mp shown
  simp only [Prod.mk.injEq, decide_eq_true_eq, Option.isNone_iff_eq_none] at seen
  obtain ⟨⟨running, commits⟩, ⟨quiet, flag, length⟩, ⟨size, free⟩, none_left, stuck⟩ := seen
  exact ⟨_, s, reached, running, commits, quiet, flag, by rw [length, size], free, none_left, stuck⟩

end BasicOS.LogCache
