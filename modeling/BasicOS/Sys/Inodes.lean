/-
# BasicOS.Sys.Inodes — the reference counts of cached inodes

The `ref` of a cache entry is the number of open files on it and of processes that
are in it (`Counted`), and the kernel below is at rest (`Kernel.Rested`).  Both
together are `Fine`, and every call keeps it.

Inside a call the count is ahead of the tables by what the call holds, which is
what `Holding` and `Returned` say; a call that gives up a reference of its process
starts from tables without it.

Each function has one lemma, which also says what it has done to the files.  No
call comes to wait for a lock of its own (`Ready`), but for `link` on a path that
ends in `.` or `..`.
-/
import BasicOS.Sys.Links
import BasicOS.Sys.Refs

namespace BasicOS.Sys

open Lib Function
open Lib.Prog

set_option autoImplicit false

/-! ## Users of an inode -/

/-- The cache entry that an open file uses. -/
def File.inode (x : File) : Option IPtr :=
  if 0 < x.ref ∧ x.type = .inode then some x.ip else none

theorem File.inode_of_type {x : File} (other : x.type ≠ .inode) : x.inode = none :=
  if_neg fun both => other both.2

theorem File.inode_of_ref {x : File} (unused : x.ref = 0) : x.inode = none :=
  if_neg fun both => by omega

/-- The counts of the cache are right for these files and directories. -/
structure Counted (file : FPtr → File) (cwd : Slot → Option IPtr) (k : Kernel) : Prop where
  users : ∀ q, ((k.icache q).ref : Int) = tally (fun f => (file f).inode) q + tally cwd q
  unused : ∀ f, (file f).ref = 0 → (file f).type = .none
  /-- The inode of an open file has been read, and nobody writes to a directory. -/
  opened : ∀ f q, (file f).inode = some q → (k.icache q).valid = true ∧
    ((file f).writable = true → (k.icache q).dinode.type ≠ tDir)

/-- The state between two calls. -/
structure State.Fine (s : State) : Prop where
  rested : s.k.Rested
  counted : Counted s.file s.cwd s.k

/-- Not waiting for a lock of one's own. -/
def Halt.Ready (e : Halt) : Prop :=
  e ≠ .fs .blocked

section

variable {file : FPtr → File} {cwd : Slot → Option IPtr} {k k' : Kernel} {f : FPtr} {x : File}
  {p q : IPtr} {cur : Slot}

theorem inodes_update (file : FPtr → File) (f : FPtr) (x : File) :
    (fun g => (update file f x g).inode) = update (fun g => (file g).inode) f x.inode := by
  apply funext
  intro g
  exact apply_update (fun _ y => File.inode y) file f x g

section

variable (h : Counted file cwd k)

include h

theorem Counted.file_pos (held : (file f).inode = some p) :
    0 < (k.icache p).ref := by
  have users := h.users p
  have one : 0 < tally (fun f => (file f).inode) p := tally_pos held
  omega

theorem Counted.cwd_pos (held : cwd cur = some p) :
    0 < (k.icache p).ref := by
  have users := h.users p
  have one : 0 < tally cwd p := tally_pos held
  omega

/-- A file changes that no inode's count depends on. -/
theorem Counted.setFile (unused : x.ref = 0 → x.type = .none)
    (same : x.inode = (file f).inode) (mode : x.inode ≠ none → x.writable = (file f).writable) :
    Counted (update file f x) cwd k := by
  refine ⟨?_, ?_, ?_⟩
  · intro q
    rw [inodes_update, same, update_eq_self f (fun g => (file g).inode)]
    exact h.users q
  · intro g
    rcases eq_or_ne g f with rfl | other
    · rw [update_self]
      exact unused
    · rw [update_of_ne other]
      exact h.unused g
  · intro g q held
    rcases eq_or_ne g f with rfl | other
    · rw [update_self] at held ⊢
      rw [mode (by simp [held])]
      exact h.opened g q (same ▸ held)
    · rw [update_of_ne other] at held ⊢
      exact h.opened g q held

/-- The tables stay, and the kernel comes back from a call. -/
theorem Counted.returned (returned : Returned k [] k') :
    Counted file cwd k' := by
  refine ⟨?_, h.unused, ?_⟩
  · intro q
    rw [returned.ref q, refsTo_nil]
    exact h.users q
  · intro f q held
    obtain ⟨valid, plain⟩ := h.opened f q held
    obtain ⟨valid', type⟩ := (returned.keeps q (h.file_pos held)).2 valid
    exact ⟨valid', fun writable => by rw [type]; exact plain writable⟩

/-- A file takes over the reference that a call has taken. -/
theorem Counted.opens {i : Nat} (returned : Returned k [(p, i)] k')
    (idle : (file f).inode = none) (now : x.inode = some p) (valid : (k'.icache p).valid = true)
    (plain : x.writable = true → (k'.icache p).dinode.type ≠ tDir) :
    Counted (update file f x) cwd k' := by
  refine ⟨?_, ?_, ?_⟩
  · intro q
    have users := h.users q
    have ref := returned.ref q
    rw [refsTo_cons, refsTo_nil] at ref
    rw [inodes_update, tally_update, now, idle, credit_some, credit_none, Pi.zero_apply]
    by_cases here : q = p
    · rw [if_pos here] at ref ⊢
      omega
    · rw [if_neg here] at ref ⊢
      omega
  · intro g zero
    rcases eq_or_ne g f with rfl | other
    · rw [update_self] at zero
      rw [File.inode_of_ref zero] at now
      cases now
    · rw [update_of_ne other] at zero ⊢
      exact h.unused g zero
  · intro g q held
    rcases eq_or_ne g f with rfl | other
    · rw [update_self] at held ⊢
      cases now.symm.trans held
      exact ⟨valid, plain⟩
    · rw [update_of_ne other] at held ⊢
      obtain ⟨was, unwritten⟩ := h.opened g q held
      obtain ⟨still, type⟩ := (returned.keeps q (h.file_pos held)).2 was
      exact ⟨still, fun writable => by rw [type]; exact unwritten writable⟩

/-- A file gives its reference up. -/
theorem Counted.closes (held : (file f).inode = some p)
    (idle : x.ref = 0) (none_left : x.type = .none) :
    Counted (update file f x) cwd (k.unref p) := by
  have one := h.file_pos held
  refine ⟨?_, ?_, ?_⟩
  · intro q
    have users := h.users q
    rw [icache_unref, inodes_update, tally_update, File.inode_of_ref idle, held, credit_some,
      credit_none, Pi.zero_apply]
    by_cases here : q = p
    · subst here
      simp only [if_true]
      omega
    · simp only [if_neg here]
      omega
  · intro g zero
    rcases eq_or_ne g f with rfl | other
    · rw [update_self]
      exact none_left
    · rw [update_of_ne other] at zero ⊢
      exact h.unused g zero
  · intro g q opened
    rw [icache_unref]
    rcases eq_or_ne g f with rfl | other
    · rw [update_self, File.inode_of_ref idle] at opened
      cases opened
    · rw [update_of_ne other] at opened ⊢
      exact h.opened g q opened

/-- A process leaves its directory. -/
theorem Counted.leaves (held : cwd cur = some p) :
    Counted file (update cwd cur none) (k.unref p) := by
  have one := h.cwd_pos held
  refine ⟨?_, h.unused, ?_⟩
  · intro q
    have users := h.users q
    rw [icache_unref, tally_update, held, credit_some, credit_none, Pi.zero_apply]
    by_cases here : q = p
    · subst here
      simp only [if_true]
      omega
    · simp only [if_neg here]
      omega
  · intro f q opened
    rw [icache_unref]
    exact h.opened f q opened

/-- A process without a directory takes over the reference a call has taken. -/
theorem Counted.enters {i : Nat} (returned : Returned k [(p, i)] k')
    (idle : cwd cur = none) : Counted file (update cwd cur (some p)) k' := by
  refine ⟨?_, h.unused, ?_⟩
  · intro q
    have users := h.users q
    have ref := returned.ref q
    rw [refsTo_cons, refsTo_nil] at ref
    rw [tally_update, idle, credit_some, credit_none, Pi.zero_apply]
    by_cases here : q = p
    · rw [if_pos here] at ref ⊢
      omega
    · rw [if_neg here] at ref ⊢
      omega
  · intro f q held
    obtain ⟨valid, plain⟩ := h.opened f q held
    obtain ⟨valid', type⟩ := (returned.keeps q (h.file_pos held)).2 valid
    exact ⟨valid', fun writable => by rw [type]; exact plain writable⟩

end

end

/-! ## Steps -/

section

variable {α β : Type} {s s' : State} {f : FPtr} {p : IPtr} {cur : Slot}

theorem State.Fine.returned (h : s.Fine) {k' : Kernel} (returned : Returned s.k [] k') :
    State.Fine { s with k := k' } :=
  ⟨returned.rested, h.counted.returned returned⟩

theorem State.Fine.setFile (h : s.Fine) {x : File} (unused : x.ref = 0 → x.type = .none)
    (same : x.inode = (s.file f).inode)
    (mode : x.inode ≠ none → x.writable = (s.file f).writable) : (s.setFile f x).Fine :=
  ⟨h.rested, h.counted.setFile unused same mode⟩

/-- The tables that nothing is counted in may change. -/
theorem State.Fine.congr (h : s.Fine) (k : s'.k = s.k) (file : s'.file = s.file)
    (cwd : s'.cwd = s.cwd) : s'.Fine := by
  obtain ⟨rested, counted⟩ := h
  rw [← k, ← file, ← cwd] at counted
  exact ⟨k ▸ rested, counted⟩

theorem State.Fine.setFd (h : s.Fine) (cur : Slot) (fd : Fd) (o : Option FPtr) :
    (s.setFd cur fd o).Fine :=
  h.congr rfl rfl rfl

theorem ready_of_awake {e : Stop} (awake : Awake e) : Halt.Ready (.fs e) :=
  fun same => awake.ne_blocked (Halt.fs.inj same)

theorem wp_fs_ready {m : Fs α} {P : α → Kernel → Prop} {Q : α → State → Prop}
    (spec : wp m P Awake s.k) (next : ∀ a k, P a k → Q a { s with k }) :
    wp (fs m) Q Halt.Ready s := by
  rw [wp_fs]
  exact wp_mono spec next fun _ => ready_of_awake

/-- A transaction that drops a reference of the caller's. -/
theorem drop_wp {Q : Unit → State → Prop} (rested : s.k.Rested) (used : 0 < (s.k.icache p).ref)
    (next : ∀ k', Returned (s.k.unref p) [] k' → Drops s.k k' → Q () { s with k := k' }) :
    wp (fs beginOp) (fun _ s₁ => wp (fs (iput p)) (fun _ s₂ => wp (fs endOp) Q Halt.Ready s₂)
      Halt.Ready s₁) Halt.Ready s := by
  apply wp_fs_ready (beginOp_rested rested)
  rintro _ k₁ ⟨quiet, one, h₁⟩
  have borrowed := Holding.borrow (p := p) h₁.fit h₁.free (by rw [quiet.icache]; exact used)
  apply wp_fs_ready (iput_drops borrowed List.not_mem_nil)
  rintro _ k₂ ⟨h₂, dropped⟩
  apply wp_fs_ready (endOp_rested h₂.fit h₂.free (h₂.outstanding.trans one))
  rintro _ k' ⟨rested', quiet'⟩
  have returned := (h₂.returned rested' quiet'.icache).of_icache (k := s.k.unref p) (by
    apply funext
    intro q
    rw [icache_unref, icache_unref, quiet.icache])
  exact next k' returned
    ⟨[_], quiet.sameFiles.andThen (dropped.thenSame quiet'.sameFiles)⟩

/-! ## Files -/

/-- What closing leaves: fewer references, and everything else as it was. -/
structure Closed (s s' : State) : Prop where
  fine : s'.Fine
  cwd : s'.cwd = s.cwd
  ofile : s'.ofile = s.ofile
  drops : Drops s.k s'.k

theorem fileclose_fine (h : s.Fine) (f : FPtr) :
    wp (fileclose f) (fun _ s' => Closed s s') Halt.Ready s := by
  have same : Drops s.k s.k := (SameFiles.refl s.k).drops
  unfold fileclose
  rw [wp_bind, wp_get]
  simp only
  refine wp_ite (fun _ => nofun) fun counted => ?_
  refine wp_ite (fun more => ?_) fun last => ?_
  · refine ⟨h.setFile ?_ ?_ fun _ => rfl, rfl, rfl, same⟩
    · intro zero
      simp only at zero
      omega
    · have now : 0 < (s.file f).ref := by omega
      simp [File.inode, now, more]
  · rw [wp_bind, wp_set]
    have one : (s.file f).ref = 1 := by omega
    unfold closeLast
    cases type : (s.file f).type with
    | none =>
      refine ⟨h.setFile (fun _ => rfl) ?_ fun _ => rfl, rfl, rfl, same⟩
      rw [File.inode_of_ref rfl, File.inode_of_type (by simp [type])]
    | pipe =>
      simp only
      apply wp_mono (closePipe_spec _ _ _) ?_ fun _ no => no.elim
      rintro _ s' rfl
      refine ⟨State.Fine.congr (s := s.setFile f { s.file f with ref := 0, type := .none }) ?_
        rfl rfl rfl, rfl, rfl, same⟩
      refine h.setFile (fun _ => rfl) ?_ fun _ => rfl
      rw [File.inode_of_ref rfl, File.inode_of_type (by simp [type])]
    | inode =>
      have held : (s.file f).inode = some (s.file f).ip := by simp [File.inode, one, type]
      have closed := h.counted.closes held (x := { s.file f with ref := 0, type := .none }) rfl rfl
      simp only
      rw [wp_bind]
      simp only [wp_bind]
      apply drop_wp (s := s.setFile f { s.file f with ref := 0, type := .none }) h.rested
        (h.counted.file_pos held)
      intro k' returned drops
      exact ⟨⟨returned.rested, closed.returned returned⟩, rfl, rfl, drops⟩

/-! ## Reading and writing -/

theorem State.Fine.inode_of_type (h : s.Fine) (type : (s.file f).type = .inode) :
    (s.file f).inode = some (s.file f).ip := by
  have used : 0 < (s.file f).ref := by
    apply Nat.pos_of_ne_zero
    intro zero
    rw [h.counted.unused f zero] at type
    cases type
  simp [File.inode, used, type]

/-- A file's offset is nothing that is counted. -/
theorem State.Fine.setOff (h : s.Fine) (off : UInt32) :
    (s.setFile f { s.file f with off := off }).Fine :=
  h.setFile (h.counted.unused f) rfl fun _ => rfl

theorem ilock_log (k : Kernel) (p : IPtr) :
    wp (ilock p) (fun _ k' => k'.log = k.log) (fun _ => True) k := by
  unfold ilock
  rw [wp_bind, wp_get]
  refine wp_ite (fun _ => trivial) fun _ => ?_
  refine wp_ite (fun _ => trivial) fun _ => ?_
  refine wp_ite (fun _ => rfl) fun _ => ?_
  exact wp_ite (fun _ => trivial) fun _ => rfl

/-- Outside of a transaction an inode is locked, used and unlocked again. -/
theorem returned_between {k k' : Kernel} (rested : k.Rested) (h : Holding k [] [] k')
    (empty : k'.log.lh = k.log.lh) : Returned k [] k' := by
  refine h.returned ⟨h.fit, h.free, ?_, ?_⟩ rfl
  · rw [h.outstanding, rested.idle]
  · rw [empty, rested.empty]

/-- The lock of an inode in use, between transactions. -/
theorem ilock_between {k : Kernel} (rested : k.Rested) (used : 0 < (k.icache p).ref) :
    wp (ilock p) (fun _ k' => Holding k [] [p] k' ∧ SameFiles k k' ∧ k'.log.lh = k.log.lh)
      Awake k := by
  have locks := wp_and (ilock_used (Holding.refl rested.fit rested.free) used
    List.not_mem_nil) (ilock_log k p)
  apply wp_mono locks ?_ fun _ stop => stop.1
  rintro _ k' ⟨⟨h, same⟩, log⟩
  exact ⟨h, same, by rw [log]⟩

theorem iunlock_between {k k₁ : Kernel} (rested : k.Rested) (h : Holding k [] [p] k₁)
    (empty : k₁.log.lh = k.log.lh) :
    wp (iunlock p) (fun _ k' => Returned k [] k' ∧ SameFiles k₁ k') Awake k₁ := by
  have calm : Calm ["iunlock"] (iunlock p) := iunlock_calm (List.mem_singleton_self _) p
  have unlocks := wp_and (iunlock_holds h (List.mem_singleton_self _) (only_lock p))
    (calm.idle (by rw [h.outstanding, rested.idle]))
  apply wp_mono unlocks ?_ fun _ stop => stop.1
  rintro _ k' ⟨⟨h', same⟩, empty'⟩
  exact ⟨returned_between rested h' (empty'.trans empty), same⟩

/-- Reading on the way of a call. -/
theorem readi_holds {k₀ k : Kernel} {held : List (IPtr × Nat)} {locks : List IPtr}
    (h : Holding k₀ held locks k) (lock : p ∈ locks) (off n : UInt32) :
    wp (readi p off n) (fun _ k' => Holding k₀ held locks k' ∧ SameFiles k k' ∧
      (k.log.outstanding = 0 → k'.log.lh = k.log.lh)) Awake k := by
  have calm : Calm [] (readi p off n) := readi_calm p off n
  have reads := wp_and (wp_and (readi_spec h.fit.ok ((h.locked p).mpr lock) off n)
    (calm k)) (calm.spent k)
  apply wp_mono reads ?_ fun _ stop => stop.2.awake
  rintro r k' ⟨⟨⟨quiet, -⟩, ops⟩, outstanding⟩
  exact ⟨h.quiet quiet outstanding, quiet.sameFiles, ops.2⟩

/-- The state after a call that reads: only an offset may have changed. -/
structure Untouched (s s' : State) : Prop where
  fine : s'.Fine
  cwd : s'.cwd = s.cwd
  ofile : s'.ofile = s.ofile
  files : SameFiles s.k s'.k

theorem State.Fine.untouched (h : s.Fine) : Untouched s s :=
  ⟨h, rfl, rfl, SameFiles.refl s.k⟩

theorem readInode_fine (h : s.Fine) (type : (s.file f).type = .inode) (n : UInt32)
    (console : Option UInt32) :
    wp (readInode f n console) (fun _ s' => Untouched s s') Halt.Ready s := by
  have used := h.counted.file_pos (h.inode_of_type type)
  unfold readInode
  rw [wp_bind, wp_get]
  simp only [wp_bind]
  apply wp_fs_ready (ilock_between h.rested used)
  rintro _ k₁ ⟨h₁, same₁, empty₁⟩
  apply wp_fs_ready (readi_holds h₁ (List.mem_singleton_self _) _ n)
  rintro r k₂ ⟨h₂, same₂, empty₂⟩
  have empty := (empty₂ (by rw [h₁.outstanding, h.rested.idle])).trans empty₁
  rw [wp_modify]
  apply wp_fs_ready (iunlock_between h.rested h₂ empty)
  rintro _ k₃ ⟨returned, same₃⟩
  exact ⟨(h.setOff _).returned returned, rfl, rfl, same₁.trans (same₂.trans same₃)⟩

theorem fileread_fine (h : s.Fine) (f : FPtr) (n : UInt32) (killed : Bool)
    (console : Option UInt32) :
    wp (fileread f n killed console) (fun _ s' => Untouched s s') Halt.Ready s := by
  unfold fileread
  rw [wp_bind, wp_get]
  refine wp_ite (fun _ => h.untouched) fun _ => ?_
  cases type : (s.file f).type with
  | none => exact nofun
  | pipe => exact ⟨h.congr rfl rfl rfl, rfl, rfl, SameFiles.refl _⟩
  | inode =>
    simp only
    rw [wp_bind]
    exact readInode_fine h type n console

theorem filestat_fine (h : s.Fine) (f : FPtr) :
    wp (filestat f) (fun _ s' => Untouched s s') Halt.Ready s := by
  unfold filestat
  rw [wp_bind, wp_get]
  cases type : (s.file f).type with
  | none => exact h.untouched
  | pipe => exact h.untouched
  | inode =>
    have used := h.counted.file_pos (h.inode_of_type type)
    simp only [wp_bind]
    apply wp_fs_ready (ilock_between h.rested used)
    rintro _ k₁ ⟨h₁, same₁, empty₁⟩
    apply wp_fs_ready (iunlock_between h.rested h₁ empty₁)
    rintro _ k₂ ⟨returned, same₂⟩
    exact ⟨h.returned returned, rfl, rfl, same₁.trans same₂⟩

/-- Writing to a locked inode that is not a directory. -/
theorem writei_holds {k₀ k : Kernel} {held : List (IPtr × Nat)} {locks : List IPtr}
    (h : Holding k₀ held locks k) (lock : p ∈ locks) (plain : (k.icache p).dinode.type ≠ tDir)
    (src : Bytes) (off n : UInt32) :
    wp (writei p src off n) (fun _ k' => Holding k₀ held locks k') Awake k := by
  have calm : Calm [] (writei p src off n) := writei_calm p src off n
  have writes := wp_and (writei_spec h.fit.ok ((h.locked p).mpr lock) src off n)
    (calm.spent k)
  apply wp_mono writes ?_ fun _ stop => stop.2.awake
  rintro r k' ⟨outcome, -⟩
  match r, outcome with
  | .failed, rfl => exact h
  | .device _, rfl => exact h
  | .done _, ⟨_, _, _, stored⟩ =>
    refine (stored.holds h rfl lock fun dir => absurd ?_ plain).1
    rw [(h.copy_of_inum rfl lock).1]
    exact dir

/-- The state after a transaction of `filewrite`: the file is at another offset. -/
structure Wrote (f : FPtr) (s s' : State) : Prop where
  fine : s'.Fine
  cwd : s'.cwd = s.cwd
  ofile : s'.ofile = s.ofile
  file : ∃ off, s'.file f = { s.file f with off := off }

theorem writeChunk_fine (h : s.Fine) (type : (s.file f).type = .inode)
    (writable : (s.file f).writable = true) (src : Bytes) (n : Nat) :
    wp (writeChunk f src n) (fun _ s' => Wrote f s s') Halt.Ready s := by
  have held := h.inode_of_type type
  have used := h.counted.file_pos held
  obtain ⟨valid, plain⟩ := h.counted.opened f _ held
  unfold writeChunk
  simp only [wp_bind, wp_get, wp_pure]
  apply wp_fs_ready (beginOp_rested h.rested)
  rintro _ k₁ ⟨quiet, one, h₁⟩
  have icache := quiet.icache
  apply wp_fs_ready (ilock_used h₁ (p := (s.file f).ip) (by rw [icache]; exact used)
    List.not_mem_nil)
  rintro _ k₂ ⟨h₂, -⟩
  have kept := h₂.keeps (s.file f).ip (by rw [icache]; exact used)
  rw [icache] at kept
  apply wp_fs_ready (writei_holds h₂ (List.mem_singleton_self _)
    (by rw [(kept.2 valid).2]; exact plain writable) src _ _)
  intro r k₃ h₃
  rw [wp_modify]
  apply wp_fs_ready (iunlock_holds h₃ (List.mem_singleton_self _) (only_lock _))
  rintro _ k₄ ⟨h₄, -⟩
  apply wp_fs_ready (endOp_returns ⟨h.rested, quiet, one⟩ h₄)
  rintro _ k' ⟨returned, -⟩
  exact ⟨(h.setOff _).returned returned, rfl, rfl, _, update_self _ _ _⟩

theorem writeChunks_fine (h : s.Fine) (type : (s.file f).type = .inode)
    (writable : (s.file f).writable = true) (src : Bytes) (n : Nat) :
    wp (writeChunks f src n) (fun _ s' => Wrote f s s') Halt.Ready s := by
  induction n using Nat.strong_induction_on generalizing s src with
  | _ n ih =>
  unfold writeChunks
  split
  · exact ⟨h, rfl, rfl, (s.file f).off, rfl⟩
  · next some_left =>
      apply wp_seq (writeChunk_fine h type writable src _)
      intro wrote s₁ after
      obtain ⟨off, file⟩ := after.file
      refine wp_ite (fun _ => ?_) fun _ => after
      have fewer : n - min n chunk < n := by
        simp only [chunk, maxopblocks]
        omega
      apply wp_post (ih _ fewer after.fine (by rw [file]; exact type)
        (by rw [file]; exact writable) _)
      intro _ s₂ later
      obtain ⟨off', file'⟩ := later.file
      refine ⟨later.fine, later.cwd.trans after.cwd, later.ofile.trans after.ofile, off', ?_⟩
      rw [file', file]

theorem filewrite_fine (h : s.Fine) (f : FPtr) (bytes : List UInt8) (killed : Bool) :
    wp (filewrite f bytes killed) (fun _ s' => s'.Fine ∧ s'.cwd = s.cwd ∧ s'.ofile = s.ofile)
      Halt.Ready s := by
  unfold filewrite
  rw [wp_bind, wp_get]
  refine wp_ite (fun _ => ⟨h, rfl, rfl⟩) fun writable => ?_
  rw [Bool.not_eq_false] at writable
  cases type : (s.file f).type with
  | none => exact nofun
  | pipe => exact ⟨h.congr rfl rfl rfl, rfl, rfl⟩
  | inode =>
    simp only
    apply wp_seq (writeChunks_fine h type writable _ _)
    intro _ s' after
    exact ⟨after.fine, after.cwd, after.ofile⟩

/-! ## Descriptors and pipes -/

theorem Closed.of_same (h : s'.Fine) (cwd : s'.cwd = s.cwd) (ofile : s'.ofile = s.ofile)
    (k : s'.k = s.k) : Closed s s' :=
  ⟨h, cwd, ofile, by rw [k]; exact (SameFiles.refl s.k).drops⟩

/-- `filealloc` gives a file that is nothing yet. -/
theorem filealloc_fine (h : s.Fine) :
    wp filealloc (fun r s' => match r with
      | none => s' = s
      | some f => s'.Fine ∧ s' = s.setFile f { s.file f with ref := 1 } ∧ (s.file f).ref = 0 ∧
          (s.file f).type = .none) (fun _ => False) s := by
  apply wp_post (filealloc_spec s)
  rintro (_ | f) s'
  · exact And.left
  · rintro ⟨free, rfl⟩
    have type := h.counted.unused f free
    refine ⟨h.setFile (fun no => nomatch no) ?_ fun _ => rfl, rfl, free, type⟩
    rw [File.inode_of_type (by simp [type]), File.inode_of_type (by simp [type])]

/-- A file that is nothing yet is given back. -/
theorem fileclose_idle {g : FPtr} (one : (s.file g).ref = 1) (type : (s.file g).type = .none) :
    wp (fileclose g) (fun _ s' => s' = s.setFile g { s.file g with ref := 0, type := .none })
      (fun _ => False) s := by
  unfold fileclose
  rw [wp_bind, wp_get]
  simp only
  rw [if_neg (by omega), if_neg (by omega), wp_bind, wp_set]
  unfold closeLast
  rw [type]
  rfl

section

variable (h : s.Fine)

include h

theorem filedup_fine (f : FPtr) :
    wp (filedup f) (fun _ s' => Closed s s') Halt.Ready s := by
  unfold filedup
  rw [wp_bind, wp_get]
  refine wp_ite (fun _ => nofun) fun counted => ?_
  refine .of_same (h.setFile (fun no => nomatch no) ?_ fun _ => rfl) rfl rfl rfl
  have now : 0 < (s.file f).ref := by omega
  simp [File.inode, now]

theorem sysDup_fine (cur : Slot) (fd : Option Fd) :
    wp (sysDup cur fd) (fun _ s' => s'.Fine ∧ s'.cwd = s.cwd) Halt.Ready s := by
  unfold sysDup
  apply wp_seq_sure (argfd_spec cur fd s)
  rintro (_ | ⟨fd', f⟩) _ ⟨rfl, -⟩
  · exact ⟨h, rfl⟩
  · simp only
    apply wp_seq_sure (fdalloc_spec cur f _)
    rintro (_ | new) s₁
    · rintro ⟨rfl, -⟩
      exact ⟨h, rfl⟩
    · rintro ⟨-, rfl⟩
      simp only
      apply wp_seq (filedup_fine (h.setFd cur new (some f)) f)
      intro _ s₂ after
      exact ⟨after.fine, after.cwd⟩

theorem sysClose_fine (cur : Slot) (fd : Option Fd) :
    wp (sysClose cur fd) (fun _ s' => s'.Fine ∧ s'.cwd = s.cwd ∧ Drops s.k s'.k)
      Halt.Ready s := by
  unfold sysClose
  apply wp_seq_sure (argfd_spec cur fd s)
  rintro (_ | ⟨fd', f⟩) _ ⟨rfl, -⟩
  · exact ⟨h, rfl, (SameFiles.refl _).drops⟩
  · simp only
    rw [wp_bind, wp_modify]
    apply wp_seq (fileclose_fine (h.setFd cur fd' none) f)
    intro _ s₁ after
    exact ⟨after.fine, after.cwd, after.drops⟩

theorem closeBoth_fine {α : Type} {r : α} {dirs : Slot → Option IPtr} (cwd : s.cwd = dirs)
    (rf wf : FPtr) : wp (do fileclose rf; fileclose wf; return r)
      (fun _ s' => s'.Fine ∧ s'.cwd = dirs) Halt.Ready s := by
  apply wp_seq (fileclose_fine h rf)
  intro _ s₁ after₁
  apply wp_seq (fileclose_fine after₁.fine wf)
  intro _ s₂ after₂
  exact ⟨after₂.fine, after₂.cwd.trans (after₁.cwd.trans cwd)⟩

theorem pipealloc_fine (page : Option (Nat → UInt8)) :
    wp (pipealloc page) (fun _ s' => s'.Fine ∧ s'.cwd = s.cwd) Halt.Ready s := by
  unfold pipealloc
  apply wp_seq_sure (filealloc_fine h)
  rintro (_ | f0) s₁ allocated
  · obtain rfl := allocated
    exact ⟨h, rfl⟩
  obtain ⟨h₁, rfl, -, type0⟩ := allocated
  simp only
  apply wp_seq_sure (filealloc_fine h₁)
  rintro (_ | f1) s₂ allocated
  · obtain rfl := allocated
    simp only
    apply wp_seq (fileclose_fine h₁ f0)
    intro _ s₃ after
    exact ⟨after.fine, after.cwd⟩
  obtain ⟨h₂, same, free, type1⟩ := allocated
  have cwd₂ : s₂.cwd = s.cwd := by rw [same]; rfl
  cases page with
  | none =>
    simp only
    exact closeBoth_fine h₂ cwd₂ f0 f1
  | some page =>
    simp only
    rw [wp_bind, wp_modify]
    have apart : f0 ≠ f1 := by
      rintro rfl
      simp [State.setFile] at free
    have file0 : s₂.file f0 = { s.file f0 with ref := 1 } := by
      simp [same, State.setFile, apart]
    have file1 : (s₂.file f1).ref = 1 ∧ (s₂.file f1).type = .none := by
      simp [same, State.setFile]
      simpa [State.setFile] using type1
    refine ⟨?_, cwd₂⟩
    -- the ends of the pipe are no inodes
    have first : (({ s₂.setPipe s₂.made (Pipe.alloc page) with made := s₂.made + 1 }).setFile f0
        { s₂.file f0 with
          type := .pipe, readable := true, writable := false, pipe := s₂.made }).Fine := by
      have made : State.Fine
          { s₂.setPipe s₂.made (Pipe.alloc page) with made := s₂.made + 1 } :=
        h₂.congr rfl rfl rfl
      refine made.setFile ?_ ?_ ?_
      · simp [file0]
      · rw [File.inode_of_type (by simp)]
        exact (File.inode_of_type (by simp [State.setPipe, file0, type0])).symm
      · rw [File.inode_of_type (by simp)]
        exact fun no => absurd rfl no
    refine first.setFile ?_ ?_ ?_
    · simp [State.setFile, State.setPipe, Ne.symm apart, file1]
    · rw [File.inode_of_type (by simp), File.inode_of_type]
      simp [State.setFile, State.setPipe, Ne.symm apart, file1]
    · rw [File.inode_of_type (by simp)]
      exact fun no => absurd rfl no

theorem sysPipe_fine (cur : Slot) (page : Option (Nat → UInt8)) :
    wp (sysPipe cur page) (fun _ s' => s'.Fine ∧ s'.cwd = s.cwd) Halt.Ready s := by
  unfold sysPipe
  apply wp_seq (pipealloc_fine h page)
  rintro (_ | ⟨rf, wf⟩) s₁ ⟨h₁, cwd₁⟩
  · exact ⟨h₁, cwd₁⟩
  simp only
  apply wp_seq_sure (fdalloc_spec cur rf s₁)
  rintro (_ | fd0) s₂
  · rintro ⟨rfl, -⟩
    exact closeBoth_fine h₁ cwd₁ rf wf
  rintro ⟨-, rfl⟩
  simp only
  apply wp_seq_sure (fdalloc_spec cur wf _)
  rintro (_ | fd1) s₃
  · rintro ⟨rfl, -⟩
    simp only
    rw [wp_bind, wp_modify]
    refine closeBoth_fine ?_ ?_ rf wf
    · exact h₁.congr rfl rfl rfl
    · exact cwd₁
  · rintro ⟨-, rfl⟩
    exact ⟨h₁.congr rfl rfl rfl, cwd₁⟩

/-! ## Processes -/

theorem dupFiles_fine (cur np : Slot) (fds : List Fd) :
    wp (dupFiles cur np fds) (fun _ s' => s'.Fine ∧ s'.cwd = s.cwd) Halt.Ready s := by
  induction fds generalizing s with
  | nil => exact ⟨h, rfl⟩
  | cons fd fds ih =>
    unfold dupFiles
    rw [wp_bind, wp_get]
    cases s.ofile cur fd with
    | none => exact ih h
    | some f =>
      simp only
      apply wp_seq (filedup_fine h f)
      intro _ s₁ after
      rw [wp_bind, wp_modify]
      apply wp_post (ih (after.fine.setFd np fd (some f)))
      rintro _ s₂ ⟨h₂, cwd₂⟩
      exact ⟨h₂, cwd₂.trans after.cwd⟩

theorem spawn_fine (cur : Slot) {dir : IPtr} (running : s.cwd cur = some dir)
    (np : Option Slot) (free : ∀ slot ∈ np, s.cwd slot = none) :
    wp (spawn cur dir np) (fun _ s' => s'.Fine) Halt.Ready s := by
  cases np with
  | none => exact h
  | some np =>
    unfold spawn
    apply wp_seq (dupFiles_fine h cur np _)
    rintro _ s₁ ⟨h₁, cwd₁⟩
    have used := h₁.counted.cwd_pos (cwd₁ ▸ running)
    have resting := Holding.refl h₁.rested.fit h₁.rested.free
    rw [wp_bind]
    apply wp_fs_ready (wp_and (idup_holds resting used)
      (show wp (idup dir) (fun _ k' => k'.log = s₁.k.log) (fun _ => True) s₁.k from rfl)
      |> fun both => wp_mono both (fun _ _ post => post) fun _ stop => stop.1)
    rintro q k' ⟨⟨rfl, held, -⟩, log⟩
    rw [wp_bind, wp_modify]
    have returned : Returned s₁.k [(q, (s₁.k.icache q).inum)] k' :=
      held.returned ⟨held.fit, held.free, by rw [log, h₁.rested.idle],
        by rw [log, h₁.rested.empty]⟩ rfl
    exact ⟨returned.rested, h₁.counted.enters returned (by rw [cwd₁]; exact free np rfl)⟩

theorem closeFiles_fine (cur : Slot) (fds : List Fd) :
    wp (closeFiles cur fds) (fun _ s' => s'.Fine ∧ s'.cwd = s.cwd ∧ Drops s.k s'.k)
      Halt.Ready s := by
  induction fds generalizing s with
  | nil => exact ⟨h, rfl, (SameFiles.refl _).drops⟩
  | cons fd fds ih =>
    unfold closeFiles
    rw [wp_bind, wp_get]
    cases s.ofile cur fd with
    | none => exact ih h
    | some f =>
      simp only
      apply wp_seq (fileclose_fine h f)
      intro _ s₁ after
      rw [wp_bind, wp_modify]
      apply wp_post (ih (after.fine.setFd cur fd none))
      rintro _ s₂ ⟨h₂, cwd₂, drops₂⟩
      exact ⟨h₂, cwd₂.trans after.cwd, after.drops.trans drops₂⟩

theorem leave_fine (cur : Slot) {dir : IPtr} (running : s.cwd cur = some dir) :
    wp (leave cur dir) (fun _ s' => s'.Fine ∧ Drops s.k s'.k) Halt.Ready s := by
  unfold leave
  refine wp_ite (fun _ => nofun) fun _ => ?_
  simp only [wp_bind]
  apply wp_post (closeFiles_fine h cur _)
  rintro _ s₁ ⟨h₁, cwd₁, drops₁⟩
  have here : s₁.cwd cur = some dir := cwd₁ ▸ running
  apply drop_wp h₁.rested (h₁.counted.cwd_pos here)
  intro k' returned drops
  rw [wp_modify]
  exact ⟨⟨returned.rested, (h₁.counted.leaves here).returned returned⟩, drops₁.trans drops⟩

end

end

end BasicOS.Sys
