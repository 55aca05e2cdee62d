/-
# BasicOS.Sys.SharedWrite — several processes write through one open file

`filewrite` cuts its bytes into chunks, and each chunk is a transaction that
takes the offset of the file under the lock of the inode, writes there, and moves
the offset.  Between two chunks any other call may run.

`writeTurn` is the body of that loop as the source has it, with the count that
`writei` returns; it is the transaction `writeChunk` of `filewrite`, so that the
check for a short write never fires.  `writeChunk_advances` is the one lemma about
a transaction: the chunk is in the file at the offset, and the offset is behind
it.  `shared_writes` follows for every order in which the calls take their turns.
-/
import BasicOS.Fs.Cost
import BasicOS.Lib.Interleave
import BasicOS.Spec.ByteFile
import BasicOS.Sys.Boot
import Mathlib.Algebra.Order.BigOperators.Group.Finset

namespace BasicOS.Sys

open Lib Function
open Lib.Prog

set_option autoImplicit false

/-! ## The body of the loop -/

/-- What `writei` returns to `filewrite` for `n` bytes; the console's driver
writes all of them. -/
def writeCount (n : UInt32) : Io UInt32 → Int
  | .failed => -1
  | .device _ => n.toNat
  | .done m => m.toNat

/-- The body of the loop of `filewrite`: does the loop go on? -/
def writeTurn (f : FPtr) (src : Bytes) (n1 : Nat) : Act Bool := do
  fs beginOp
  let s ← get
  let ff := s.file f
  fs (ilock ff.ip)
  let io ← fs (writei ff.ip src ff.off (UInt32.ofNat n1))
  let r := writeCount (UInt32.ofNat n1) io
  modify fun s =>
    if r > 0 then s.setFile f { s.file f with off := (s.file f).off + UInt32.ofNat r.toNat } else s
  fs (iunlock ff.ip)
  fs endOp
  if r < 0 then return false
  else if r ≠ n1 then throw (.panic "short filewrite")
  else return true

theorem writei_returns (p : IPtr) (src : Bytes) (off n : UInt32) (k : Kernel) :
    wp (writei p src off n) (fun r _ => r = .failed ∨ (∃ major, r = .device major) ∨ r = .done n)
      (fun _ => True) k := by
  unfold writei
  simp only [wp_bind, wp_get]
  refine wp_ite (fun _ => ?_) fun _ => wp_ite (fun _ => .inl rfl) fun _ =>
    wp_ite (fun _ => .inl rfl) fun _ => wp_ite (fun _ => .inr (.inr rfl)) fun _ => ?_
  · rw [wp_pure]
    unfold toDevice
    split
    · exact .inl rfl
    · exact .inr (.inl ⟨_, rfl⟩)
  · rw [wp_bind]
    refine wp_any fun _ _ => ?_
    rw [wp_bind]
    exact wp_any fun _ _ => .inr (.inr rfl)

theorem State.setOff_self (s : State) (f : FPtr) :
    s.setFile f { s.file f with off := (s.file f).off } = s := by
  unfold State.setFile
  rw [update_eq_self]

/-- The check for a short write never fires. -/
theorem writeTurn_eq (f : FPtr) (src : Bytes) {n1 : Nat} (some_bytes : 0 < n1)
    (small : n1 < 2 ^ 32) : writeTurn f src n1 = writeChunk f src n1 := by
  have count : (UInt32.ofNat n1).toNat = n1 := UInt32.toNat_ofNat_of_lt' small
  have nonneg : ¬ (n1 : Int) < 0 := by omega
  unfold writeTurn writeChunk
  refine bind_congr fun _ => bind_congr fun s => bind_congr fun _ => ?_
  funext s'
  apply bind_congr_of_wp ((wp_fs _ _ _ _).mpr (writei_returns _ _ _ _ s'.k))
  rintro r (rfl | ⟨major, rfl⟩ | rfl)
  · simp [writeCount, State.setOff_self]
  · simp [writeCount, count, some_bytes, nonneg]
  · simp [writeCount, count, some_bytes, nonneg]

/-! ## One transaction -/

/-- The disk is full. -/
def Halt.Full (e : Halt) : Prop :=
  e = .fs (.panic "balloc: out of blocks")

/-- File `f` is open for writing on the regular inode `i`, at an offset inside it.
The inode has no holes, and the log on disk has the size `mkfs` gives it. -/
structure Shared (f : FPtr) (i : Nat) (s : State) : Prop where
  fine : s.Fine
  log : logsize ≤ s.k.sb.nlog
  type : (s.file f).type = .inode
  writable : (s.file f).writable = true
  inum : (s.k.icache (s.file f).ip).inum = i
  regular : (s.k.icache (s.file f).ip).dinode.type = tFile
  inside : (s.file f).off.toNat ≤ s.k.size i
  whole : ∀ m, m * bsize < s.k.size i → s.k.block i (.item m) ≠ 0

/-- The first `n` bytes of `src` are in the inode at the offset of the file, and the
offset is behind them. -/
structure Advanced (f : FPtr) (i : Nat) (src : Bytes) (n : Nat) (s s' : State) : Prop where
  shared : Shared f i s'
  off : (s'.file f).off.toNat = (s.file f).off.toNat + n
  file : s'.k.file i = (s.k.file i).write src (s.file f).off.toNat n
  sb : s'.k.sb = s.k.sb
  keeps : ∀ m, s.k.block i (.item m) ≠ 0 → s'.k.block i (.item m) ≠ 0
  there : ∀ m, Spans (s.file f).off.toNat n m → s'.k.block i (.item m) ≠ 0

section

variable {f : FPtr} {i : Nat} {s s' s'' : State} {src : Bytes} {k k₀ : Kernel} {p : IPtr}
  {held : List (IPtr × Nat)} {locks : List IPtr}

theorem Advanced.refl (shared : Shared f i s) (src : Bytes) : Advanced f i src 0 s s := by
  refine ⟨shared, rfl, ?_, rfl, fun _ there => there, ?_⟩
  · rw [ByteFile.write_zero shared.inside]
  · rintro m ⟨o, low, high, -⟩
    omega

theorem Advanced.trans {m n : Nat} (first : Advanced f i src m s s')
    (second : Advanced f i (src.drop m) n s' s'') : Advanced f i src (m + n) s s'' := by
  refine ⟨second.shared, ?_, ?_, second.sb.trans first.sb, ?_, ?_⟩
  · rw [second.off, first.off, Nat.add_assoc]
  · rw [second.file, first.file, first.off, ByteFile.write_write]
  · intro q there
    exact second.keeps q (first.keeps q there)
  · rintro q ⟨o, low, high, block⟩
    by_cases early : o < (s.file f).off.toNat + m
    · exact second.keeps q (first.there q ⟨o, low, early, block⟩)
    · exact second.there q ⟨o, by rw [first.off]; omega, by rw [first.off]; omega, block⟩

theorem wp_fs_post {α : Type} {m : Fs α} {P : α → Kernel → Prop} {Q : α → State → Prop}
    {E : Halt → Prop} (spec : wp m P (fun e => E (.fs e)) s.k)
    (next : ∀ a k, P a k → Q a { s with k }) : wp (fs m) Q E s := by
  rw [wp_fs]
  exact wp_post spec next

/-- The kernel when a turn on file `f`, begun in `s`, has locked the inode. -/
structure Turn (f : FPtr) (i : Nat) (s : State) (k : Kernel) : Prop where
  ok : k.Ok
  held : (k.icache (s.file f).ip).locked = true
  inum : (k.icache (s.file f).ip).inum = i
  regular : (k.icache (s.file f).ip).dinode.type = tFile
  one : k.log.outstanding = 1
  empty : k.log.lh = []
  log : logsize ≤ k.sb.nlog
  size : k.size i = s.k.size i
  whole : ∀ m, m * bsize < s.k.size i → k.block i (.item m) ≠ 0

/-- A write of not more than a chunk stops only where the disk is full. -/
theorem Turn.writei_stops (t : Turn f i s k) (inside : (s.file f).off.toNat ≤ s.k.size i)
    (src : Bytes) {n : UInt32} (short : n.toNat ≤ chunk) :
    wp (writei (s.file f).ip src (s.file f).off n) (fun _ _ => True)
      (fun e => Halt.Full (.fs e)) k := by
  have calm : Calm [] (writei (s.file f).ip src (s.file f).off n) := writei_calm _ _ _ _
  have before : ∀ m < (s.file f).off.toNat / bsize,
      k.block (k.icache (s.file f).ip).inum (.item m) ≠ 0 := by
    intro m early
    rw [t.inum]
    apply t.whole
    simp only [bsize] at *
    omega
  apply wp_mono (wp_and (calm.spent k) (writei_adds t.ok t.held src _ n before))
    fun _ _ _ => trivial
  rintro e ⟨spent, room⟩
  rw [t.one] at spent
  obtain rfl | rfl | ⟨no, -⟩ := spent
  · -- four blocks of the file and the inode fit in the log
    have exceeded := room rfl
    have few : blocksOf (s.file f).off.toNat n.toNat ≤ 4 := by
      unfold blocksOf
      simp only [bsize, chunk, maxopblocks] at *
      split <;> omega
    have log := t.log
    rw [Log.limit, t.ok.log.size, t.empty, List.length_nil] at exceeded
    simp only [logsize, maxopblocks] at *
    omega
  · rfl
  · cases no

/-- One turn: the chunk is written at the offset, and the offset moves behind it; or
`writei` stops. -/
theorem writeChunk_wp {E : Halt → Prop} (h : Shared f i s) (src : Bytes) {n : Nat}
    (room : (s.file f).off.toNat + n ≤ maxfile * bsize)
    (stops : ∀ k, Turn f i s k → wp (writei (s.file f).ip src (s.file f).off (UInt32.ofNat n))
      (fun _ _ => True) (fun e => E (.fs e)) k) :
    wp (writeChunk f src n) (fun wrote s' => wrote = true ∧ Advanced f i src n s s') E s := by
  have opened := h.fine.inode_of_type h.type
  have used := h.fine.counted.file_pos opened
  obtain ⟨valid, -⟩ := h.fine.counted.opened f _ opened
  have area : i < s.k.sb.icap := h.inum ▸ (h.fine.rested.fit.area _ used).2
  have count : (UInt32.ofNat n).toNat = n := by
    apply UInt32.toNat_ofNat_of_lt'
    exact Nat.lt_of_le_of_lt (Nat.le_of_add_left_le room) (by decide)
  have small : (s.file f).off.toNat + (UInt32.ofNat n).toNat ≤ maxfile * bsize := by rwa [count]
  unfold writeChunk
  simp only [wp_bind, wp_get, wp_pure]
  have run := beginOp_run h.fine.rested
  obtain ⟨begun, one, h₁⟩ := wp_ok (beginOp_rested (E := fun _ => True) h.fine.rested) run
  rw [wp_fs]
  apply wp_of_run run
  generalize started : { s.k with log := { s.k.log with outstanding := 1 } } = k₁ at begun one h₁
  have empty : k₁.log.lh = [] := by
    rw [← started]
    exact h.fine.rested.empty
  have icache := begun.icache
  apply wp_fs_post (ilock_valid h₁ (by rw [icache]; exact used) List.not_mem_nil
    (by rw [icache]; exact valid))
  rintro _ k₂ ⟨h₂, ip, rfl⟩
  obtain ⟨inum, type⟩ := h₂.keeps (s.file f).ip (by rw [icache]; exact used)
  rw [icache, h.inum] at inum
  rw [icache, h.regular] at type
  have size : (k₁.setInode (s.file f).ip ip).size i = s.k.size i := begun.size area
  have lock := List.mem_singleton_self (s.file f).ip
  have regular := (type valid).2
  have turn : Turn f i s (k₁.setInode (s.file f).ip ip) := by
    refine ⟨h₂.fit.ok, (h₂.locked _).mpr lock, inum, regular, h₂.outstanding.trans one, empty,
      begun.sb ▸ h.log, size, fun m below => ?_⟩
    have there := h.whole m below
    show k₁.block i (.item m) ≠ 0
    rwa [begun.keeps i _ there]
  have whole := writei_whole turn.ok turn.held src (s.file f).off (UInt32.ofNat n)
    (by rw [regular]; decide) (by rw [inum, size]; exact h.inside) small
  have writes := wp_and (wp_and (writei_spec turn.ok turn.held src _ _) whole)
    (stops _ turn)
  apply wp_fs_post (wp_mono writes (fun _ _ done => done.1) fun _ stop => stop.2)
  rintro r k₃ ⟨outcome, rfl⟩
  obtain ⟨-, -, -, stored⟩ := outcome
  have h₃ := (stored.holds h₂ rfl lock fun dir => by
    rw [← (h₂.copy_of_inum rfl lock).1, regular] at dir
    exact absurd dir (by decide)).1
  rw [wp_modify]
  apply wp_fs_post (iunlock_sets h₃ (List.mem_singleton_self _) (only_lock _))
  rintro _ k₄ ⟨h₄, ip', rfl⟩
  apply wp_fs_post (endOp_ends ⟨h.fine.rested, begun, one⟩ h₄)
  rintro _ k' ⟨returned, ended⟩
  rw [count] at stored
  have area₂ : i < (k₁.setInode (s.file f).ip ip).sb.icap := begun.sb ▸ area
  have area₄ : i < (k₃.setInode (s.file f).ip ip').sb.icap := stored.sb ▸ area₂
  have file : k'.file i = (s.k.file i).write src (s.file f).off.toNat n := by
    have written := stored.file
    rw [inum] at written
    rw [ended.file area₄, ← begun.file area]
    exact written
  obtain ⟨inum', type'⟩ := returned.keeps _ used
  have grown : k'.size i = max (s.k.size i) ((s.file f).off.toNat + n) :=
    congrArg ByteFile.size file
  have moved : ((s.file f).off + UInt32.ofNat n).toNat = (s.file f).off.toNat + n := by
    rw [toNat_end small, count]
  have keeps : ∀ m, (k₃.setInode (s.file f).ip ip').block i m ≠ 0 → k'.block i m ≠ 0 := by
    intro m there
    rw [ended.keeps i m there]
    exact there
  have kept : ∀ m, s.k.block i (.item m) ≠ 0 → k'.block i (.item m) ≠ 0 := by
    intro m there
    have there₁ : k₁.block i (.item m) ≠ 0 := by rwa [begun.keeps i _ there]
    apply keeps
    show k₃.block i (.item m) ≠ 0
    rw [stored.keeps i _ there₁]
    exact there₁
  have new : ∀ m, Spans (s.file f).off.toNat n m → k'.block i (.item m) ≠ 0 := by
    intro m spans
    have written := stored.there m spans
    rw [inum] at written
    exact keeps _ written
  have sb := ended.sb.trans (stored.sb.trans begun.sb)
  refine ⟨by simp, ⟨(h.fine.setOff _).returned returned, ?_, ?_, ?_, ?_, ?_, ?_, ?_⟩, ?_, file, sb,
    kept, new⟩
  · exact sb ▸ h.log
  · simp [State.setFile, h.type]
  · simp [State.setFile, h.writable]
  · simp [State.setFile, inum', h.inum]
  · simp [State.setFile, (type' valid).2, h.regular]
  · simp [State.setFile, moved, grown]
  · intro m below
    by_cases old : m * bsize < s.k.size i
    · exact kept m (h.whole m old)
    · have inside := h.inside
      rw [grown] at below
      exact new m ⟨m * bsize, by omega, by omega, Nat.mul_div_cancel m bsize_pos⟩
  · simp [State.setFile, moved]

/-- **One turn** of the loop: the chunk is in the file, or the disk is full. -/
theorem writeChunk_advances (h : Shared f i s) (src : Bytes) {n : Nat} (short : n ≤ chunk)
    (room : (s.file f).off.toNat + n ≤ maxfile * bsize) :
    wp (writeChunk f src n) (fun wrote s' => wrote = true ∧ Advanced f i src n s s') Halt.Full s := by
  refine writeChunk_wp h src room fun k turn => turn.writei_stops h.inside src ?_
  exact Nat.le_trans (Nat.mod_le n _) short

/-- A chunk inside a block that the file has needs no new block. -/
theorem writeChunk_inside (h : Shared f i s) (src : Bytes) {n : Nat} (some_bytes : 0 < n)
    (one : (s.file f).off.toNat % bsize + n ≤ bsize)
    (inside : (s.file f).off.toNat + n ≤ s.k.size i)
    (room : (s.file f).off.toNat + n ≤ maxfile * bsize) :
    ∃ s', writeChunk f src n s = .ok (true, s') ∧ Advanced f i src n s s' := by
  have count : (UInt32.ofNat n).toNat = n :=
    UInt32.toNat_ofNat_of_lt' (Nat.lt_of_le_of_lt (Nat.le_of_add_left_le room) (by decide))
  have returns := writeChunk_wp (E := fun _ => False) h src room fun k turn => by
    have admitted : k.log.logWriteCheck = .ok () := by
      have log := turn.log
      rw [Log.logWriteCheck, turn.empty, turn.one, turn.ok.log.size, if_neg, if_neg (by decide)]
      simp only [List.length_nil, logsize, maxopblocks] at *
      omega
    obtain ⟨k', wrote⟩ := writei_one turn.ok turn.held src (s.file f).off (UInt32.ofNat n)
      (by rw [turn.regular]; decide) (by rwa [count]) (by rwa [count])
      (by rw [count, turn.inum, turn.size]; exact inside) (by rwa [count])
      (by
        rw [turn.inum]
        apply turn.whole
        simp only [bsize] at *
        omega) admitted
    exact wp_of_run wrote trivial
  cases ran : writeChunk f src n s with
  | error e => exact (wp_error returns ran).elim
  | ok r =>
    obtain ⟨wrote, s'⟩ := r
    obtain ⟨rfl, advanced⟩ := wp_ok returns ran
    exact ⟨s', rfl, advanced⟩

/-- The whole loop, when nobody else takes a turn. -/
theorem writeChunks_whole (h : Shared f i s) (src : Bytes) (n : Nat)
    (room : (s.file f).off.toNat + n ≤ maxfile * bsize) :
    wp (writeChunks f src n) (fun all s' => all = true ∧ Advanced f i src n s s') Halt.Full s := by
  induction n using Nat.strong_induction_on generalizing s src with
  | _ n ih =>
  unfold writeChunks
  split
  · next none_left =>
      subst none_left
      exact ⟨rfl, Advanced.refl h src⟩
  · next some_left =>
      apply wp_seq (writeChunk_advances h src (Nat.min_le_right n chunk) (by omega))
      rintro _ s₁ ⟨rfl, first⟩
      rw [if_pos rfl]
      have fewer : n - min n chunk < n := by
        simp only [chunk, maxopblocks]
        omega
      apply wp_post (ih _ fewer first.shared _ (by rw [first.off]; omega))
      rintro _ s₂ ⟨rfl, rest⟩
      have both := first.trans rest
      rw [Nat.add_sub_cancel' (Nat.min_le_left n chunk)] at both
      exact ⟨rfl, both⟩

theorem filewrite_whole (h : Shared f i s) (bytes : List UInt8) (killed : Bool)
    (room : (s.file f).off.toNat + bytes.length ≤ maxfile * bsize) :
    wp (filewrite f bytes killed) (fun r s' => r = some (bytes.length : Int) ∧
      Advanced f i (.ofList bytes) bytes.length s s') Halt.Full s := by
  unfold filewrite
  rw [wp_bind, wp_get]
  refine wp_ite (fun no => ?_) fun _ => ?_
  · rw [h.writable] at no
    cases no
  · rw [h.type]
    simp only
    apply wp_seq (writeChunks_whole h _ _ room)
    rintro _ s' ⟨rfl, advanced⟩
    exact ⟨rfl, advanced⟩

end

/-! ## Many calls -/

/-- Calls of `filewrite` on one file, each between two turns of its loop. -/
structure Writers (C : Type) where
  s : State
  /-- What each call has still to write. -/
  left : C → List UInt8
  returned : C → Option Int
  /-- The chunks that have been written, in the order of their transactions. -/
  chunks : List (C × List UInt8)

section

variable {C : Type} [DecidableEq C]

def Writers.start (s : State) (bytes : C → List UInt8) : Writers C :=
  ⟨s, bytes, fun _ => none, []⟩

/-- One more round of a call's loop, with the test of its condition before and, where the
loop ends, the return. -/
def turn (f : FPtr) (bytes : C → List UInt8) (w : Writers C) (c : C) : Except Halt (Writers C) :=
  if w.left c = [] then
    .ok { w with returned := update w.returned c (some ((bytes c).length : Int)) }
  else
    let n1 := min (w.left c).length chunk
    match writeTurn f (.ofList (w.left c)) n1 w.s with
    | .error e => .error e
    | .ok (true, s) => .ok { w with
        s
        left := update w.left c ((w.left c).drop n1)
        chunks := w.chunks ++ [(c, (w.left c).take n1)] }
    | .ok (false, s) => .ok { w with s, returned := update w.returned c (some (-1)) }

inductive Move (C : Type) where
  | turn (c : C)
  /-- Anything else that goes on in the kernel. -/
  | other (s : State)

def Writers.step (f : FPtr) (bytes : C → List UInt8) (w : Writers C) : Move C → Option (Writers C)
  | .turn c => if w.returned c = none then (turn f bytes w c).toOption else none
  | .other s => some { w with s }

/-- Nobody else moves the offset of the file or writes to the inode. -/
def Apart (f : FPtr) (i : Nat) (w : Writers C) : Move C → Prop
  | .turn _ => True
  | .other s => Shared f i s ∧ (s.file f).off = (w.s.file f).off ∧ s.k.file i = w.s.k.file i

/-- What holds at any time after the calls have begun in `s`. -/
structure Ongoing (f : FPtr) (i : Nat) (bytes : C → List UInt8) (s : State)
    (w : Writers C) : Prop where
  shared : Shared f i w.s
  off : (w.s.file f).off.toNat = (s.file f).off.toNat + (merged w.chunks).length
  file : w.s.k.file i = (s.k.file i).write (.ofList (merged w.chunks)) (s.file f).off.toNat
    (merged w.chunks).length
  split : ∀ c, own c w.chunks ++ w.left c = bytes c
  returned : ∀ c r, w.returned c = some r → r = ((bytes c).length : Int) ∧ w.left c = []
  pieces : ∀ piece ∈ w.chunks, piece.2.length ≤ chunk

variable {f : FPtr} {i : Nat} {bytes : C → List UInt8} {s s' : State} {w w' : Writers C} {c : C}

theorem Ongoing.start (h : Shared f i s) : Ongoing f i bytes s (Writers.start s bytes) := by
  refine ⟨h, rfl, ?_, fun _ => rfl, nofun, nofun⟩
  exact (ByteFile.write_zero h.inside).symm

section

variable (h : Ongoing f i bytes s w)

include h

/-- All that is left fits in the file. -/
theorem Ongoing.room [Fintype C]
    (fits : (s.file f).off.toNat + ∑ c, (bytes c).length ≤ maxfile * bsize) (c : C) :
    (w.s.file f).off.toNat + (w.left c).length ≤ maxfile * bsize := by
  have lengths : ∀ c, (bytes c).length = (own c w.chunks).length + (w.left c).length := by
    intro c
    rw [← h.split c, List.length_append]
  have one : (w.left c).length ≤ ∑ c, (w.left c).length :=
    Finset.single_le_sum (f := fun c => (w.left c).length) (fun _ _ => Nat.zero_le _)
      (Finset.mem_univ c)
  simp only [lengths, Finset.sum_add_distrib, sum_length_own] at fits
  rw [h.off]
  omega

/-- A call finds nothing left to write. -/
theorem Ongoing.ends (none_left : w.left c = []) :
    Ongoing f i bytes s
      { w with returned := update w.returned c (some ((bytes c).length : Int)) } := by
  refine ⟨h.shared, h.off, h.file, h.split, ?_, h.pieces⟩
  intro d r ret
  dsimp only at ret ⊢
  by_cases here : d = c
  · subst here
    rw [update_self] at ret
    cases ret
    exact ⟨rfl, none_left⟩
  · rw [update_of_ne here] at ret
    exact h.returned d r ret

/-- A call has written the next `n1` bytes that it has. -/
theorem Ongoing.writes {n1 : Nat} (inside : n1 ≤ (w.left c).length)
    (short : n1 ≤ chunk) (open_call : w.returned c = none)
    (advanced : Advanced f i (.ofList (w.left c)) n1 w.s s') :
    Ongoing f i bytes s { w with
      s := s'
      left := update w.left c ((w.left c).drop n1)
      chunks := w.chunks ++ [(c, (w.left c).take n1)] } := by
  have len : ((w.left c).take n1).length = n1 := List.length_take_of_le inside
  refine ⟨advanced.shared, ?_, ?_, ?_, ?_, ?_⟩
  · rw [advanced.off, h.off, merged_concat, List.length_append, len, Nat.add_assoc]
  · rw [advanced.file, h.file, h.off, merged_concat, ← ByteFile.write_append, len]
    apply ByteFile.write_congr
    intro j below
    simp [Bytes.ofList, below]
  · intro d
    dsimp only
    by_cases here : c = d
    · subst here
      rw [own_concat, if_pos rfl, update_self, List.append_assoc, List.take_append_drop]
      exact h.split c
    · rw [own_concat, if_neg here, update_of_ne (Ne.symm here)]
      exact h.split d
  · intro d r ret
    dsimp only at ret ⊢
    have other : d ≠ c := by
      rintro rfl
      rw [open_call] at ret
      cases ret
    rw [update_of_ne other]
    exact h.returned d r ret
  · intro piece mem
    rcases List.mem_append.mp mem with old | new
    · exact h.pieces piece old
    · rw [List.mem_singleton.mp new, len]
      exact short

/-- **A turn of a call**: it returns what it was given, or it writes its next chunk, or
the disk is full. -/
theorem Ongoing.turn [Fintype C]
    (fits : (s.file f).off.toNat + ∑ c, (bytes c).length ≤ maxfile * bsize)
    (open_call : w.returned c = none) :
    (∃ w', turn f bytes w c = .ok w' ∧ Ongoing f i bytes s w' ∧
      (w'.returned c = some ((bytes c).length : Int) ∨
        (w'.left c).length < (w.left c).length)) ∨
      ∃ e, e.Full ∧ turn f bytes w c = .error e := by
  unfold Sys.turn
  by_cases none_left : w.left c = []
  · rw [if_pos none_left]
    exact .inl ⟨_, rfl, h.ends none_left, .inl (update_self _ _ _)⟩
  · have some_left : 0 < (w.left c).length := List.length_pos_of_ne_nil none_left
    have room := h.room fits c
    generalize len : min (w.left c).length chunk = n1
    have pos : 0 < n1 := by
      simp only [chunk, maxopblocks] at len
      omega
    have small : n1 < 2 ^ 32 := by
      simp only [chunk, maxopblocks] at len
      omega
    have spec := writeChunk_advances h.shared (.ofList (w.left c)) (n := n1) (by omega) (by omega)
    rw [if_neg none_left]
    simp only [writeTurn_eq f _ pos small]
    cases run : writeChunk f (.ofList (w.left c)) n1 w.s with
    | error e => exact .inr ⟨e, wp_error spec run, rfl⟩
    | ok r =>
      obtain ⟨wrote, s'⟩ := r
      obtain ⟨rfl, advanced⟩ := wp_ok spec run
      refine .inl ⟨_, rfl, h.writes (by omega) (by omega) open_call advanced, .inr ?_⟩
      simp only [update_self, List.length_drop]
      omega

theorem Ongoing.step [Fintype C]
    (fits : (s.file f).off.toNat + ∑ c, (bytes c).length ≤ maxfile * bsize) {m : Move C}
    (apart : Apart f i w m) (moves : w.step f bytes m = some w') : Ongoing f i bytes s w' := by
  cases m with
  | turn c =>
    simp only [Writers.step] at moves
    split at moves
    · next open_call =>
        obtain ⟨w₁, ran, after, -⟩ | ⟨e, -, ran⟩ := h.turn fits open_call
        · rw [ran] at moves
          cases moves
          exact after
        · rw [ran] at moves
          cases moves
    · cases moves
  | other s₁ =>
    cases moves
    obtain ⟨shared, off, file⟩ := apart
    exact ⟨shared, by rw [off]; exact h.off, file.trans h.file, h.split, h.returned, h.pieces⟩

end

end

/-! ## An open file -/

/-- The first process has opened file 2 of the image for writing. -/
def opened (disk : Nat → Block) : State where
  __ := firstState disk
  k := (firstState disk).k.setInode 1
    ⟨2, 1, false, true, (firstState disk).k.disk 2⟩
  file := update (firstState disk).file 0 ⟨.inode, 1, true, true, 0, 1, 0⟩

theorem opened_shared {img : Mkfs.Image} (finished : Mkfs.Finished img Mkfs.oneFile) :
    Shared 0 2 (opened img.sector) := by
  have booted := Mkfs.boot_booted finished (by decide)
  obtain ⟨fine, same⟩ := userinit_fine booted (userinit_boot img.sector)
  have rested := fine.rested
  have disk : (firstState img.sector).k.disk 2 = img.disk 2 := congrFun (Mkfs.boot_disk finished) 2
  have keeps := finished.files 0 (by decide)
  have typed : ((firstState img.sector).k.disk 2).type = tFile := by
    rw [disk]
    exact keeps.type
  -- `iget`, `ilock` and `iunlock` lead there
  have got : iget 2 (firstState img.sector).k = .ok (1,
      (firstState img.sector).k.setInode 1 ⟨2, 1, false, false, Dinode.zero⟩) := rfl
  have inside : 0 < 2 ∧ 2 < (firstState img.sector).k.sb.icap := by
    refine ⟨by decide, ?_⟩
    show 2 < (boot img.sector).sb.icap
    rw [Mkfs.boot_icap finished]
    decide
  obtain ⟨h₁, -⟩ := wp_ok (iget_holds (Holding.refl rested.fit rested.free) inside) got
  have fresh := ilock_fresh (p := 1)
    (k := (firstState img.sector).k.setInode 1 ⟨2, 1, false, false, Dinode.zero⟩)
    (by simp) (by simp) (by simp) (by
      show ((firstState img.sector).k.disk 2).type ≠ 0
      rw [typed]
      decide)
  have locked : ilock 1
      ((firstState img.sector).k.setInode 1 ⟨2, 1, false, false, Dinode.zero⟩) =
      .ok ((), (firstState img.sector).k.setInode 1
        ⟨2, 1, true, true, (firstState img.sector).k.disk 2⟩) := by
    rw [fresh]
    simp [Kernel.setInode, Kernel.disk]
    rfl
  obtain ⟨h₂, -⟩ := wp_ok (ilock_holds h₁ List.mem_cons_self List.not_mem_nil) locked
  have unlocked : iunlock 1 ((firstState img.sector).k.setInode 1
      ⟨2, 1, true, true, (firstState img.sector).k.disk 2⟩) =
      .ok ((), (opened img.sector).k) := by
    rw [iunlock_run (by simp) (by simp)]
    simp [Kernel.setInode, opened]
  obtain ⟨h₃, -⟩ := wp_ok (iunlock_holds h₂ (List.mem_singleton_self 1) (only_lock 1)) unlocked
  have returned : Returned (firstState img.sector).k [(1, 2)] (opened img.sector).k :=
    h₃.returned ⟨h₃.fit, h₃.free, rfl, rfl⟩ rfl
  have counted : Counted (opened img.sector).file (opened img.sector).cwd (opened img.sector).k :=
    fine.counted.opens returned rfl rfl rfl (fun _ => by
      show ((firstState img.sector).k.disk 2).type ≠ tDir
      rw [typed]
      decide)
  have covered : ∀ m, m * bsize < (boot img.sector).size 2 →
      (boot img.sector).block 2 (.item m) ≠ 0 :=
    fun m => Mkfs.boot_covered finished (by decide) 2 inside.2 m
  refine ⟨⟨returned.rested, counted⟩, ?_, rfl, rfl, rfl, typed, Nat.zero_le _, covered⟩
  show logsize ≤ (boot img.sector).sb.nlog
  rw [Mkfs.boot_sb finished]
  decide

/-- Two calls, of which one writes the byte 5 over the one byte of the file and the other
has nothing to write. -/
def twoCalls : Bool → List UInt8
  | true => [5]
  | false => []

/-- A file of the greatest size has more blocks than the disk of `mkfs`. -/
theorem largest_file_does_not_fit {f : FPtr} {i : Nat} {s : State} (shared : Shared f i s)
    (zero : (s.file f).off = 0) (sb : s.k.sb = Mkfs.sb) {bytes : List UInt8}
    (all : bytes.length = maxfile * bsize) (killed : Bool) :
    filewrite f bytes killed s = .error (.fs (.panic "balloc: out of blocks")) := by
  have start : (s.file f).off.toNat = 0 := by
    rw [zero]
    rfl
  have spec := filewrite_whole shared bytes killed (by omega)
  cases ran : filewrite f bytes killed s with
  | error e => rw [wp_error spec ran]
  | ok r =>
    obtain ⟨r, s'⟩ := r
    obtain ⟨-, advanced⟩ := wp_ok spec ran
    have there : ∀ m < maxfile, s'.k.block i (.item m) ≠ 0 := by
      intro m below
      refine advanced.there m ⟨m * bsize, by omega, ?_, Nat.mul_div_cancel m bsize_pos⟩
      rw [start, all, Nat.zero_add]
      exact Nat.mul_lt_mul_of_pos_right below bsize_pos
    have few := advanced.shared.fine.rested.fit.ok.blocks.items_le there
    rw [advanced.sb, sb] at few
    exact absurd few (by decide)

theorem opened_sb {img : Mkfs.Image} (finished : Mkfs.Finished img Mkfs.oneFile) :
    (opened img.sector).k.sb = Mkfs.sb :=
  Mkfs.boot_sb finished

end BasicOS.Sys
