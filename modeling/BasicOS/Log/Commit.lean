/-
# BasicOS.Log.Commit — commit and recovery as sequences of block writes

`write_log`, `write_head`, `install_trans` and `recover_from_log` touch the disk
only through `bwrite`, one whole block at a time.  Each of them is a list of
`Write`s in program order; the data of a write is computed from the buffers when
its turn comes, as the code does.  A crash after `k` writes leaves the disk that
the first `k` of them produce.

The header block is encoded as in `struct logheader`: the count, then the block
numbers, all thirty-two-bit words.  `write_head` overwrites only the words it
needs, so the tail of the block keeps what older transactions left there.
-/
import BasicOS.Buf
import BasicOS.Log.Basic
import Mathlib.Tactic.IntervalCases

namespace BasicOS

open Function Lib

set_option autoImplicit false

/-! ## The header block -/

/-- The block numbers of a header block; a negative count reads as none. -/
def readHead (b : Block) : List Nat :=
  (List.range (b.get32 0).toInt32.toNatClampNeg).map fun i => (b.get32 (4 + 4 * i)).toNat

/-- Store block numbers as consecutive words from offset `o`. -/
def putBlocks (b : Block) (o : Nat) : List Nat → Block
  | [] => b
  | x :: xs => putBlocks (b.put32 o (UInt32.ofNat x)) (o + 4) xs

/-- The header block after `write_head`. -/
def putHead (b : Block) (lh : List Nat) : Block :=
  putBlocks (b.put32 0 (UInt32.ofNat lh.length)) 4 lh

theorem get32_putBlocks_below {b : Block} {o k : Nat} {xs : List Nat} (below : k + 4 ≤ o) :
    (putBlocks b o xs).get32 k = b.get32 k := by
  induction xs generalizing b o with
  | nil => rfl
  | cons x xs ih =>
    rw [putBlocks, ih (by omega), Bytes.get32_put32_ne (by omega)]

theorem get32_putBlocks {b : Block} {o i : Nat} {xs : List Nat} (bound : i < xs.length) :
    (putBlocks b o xs).get32 (o + 4 * i) = UInt32.ofNat xs[i] := by
  induction xs generalizing b o i with
  | nil => simp at bound
  | cons x xs ih =>
    cases i with
    | zero =>
      rw [putBlocks, get32_putBlocks_below (by omega)]
      simp
    | succ i =>
      have shift : o + 4 * (i + 1) = (o + 4) + 4 * i := by omega
      rw [putBlocks, shift, ih (by simpa using bound)]
      rfl

/-- `read_head` reads back what `write_head` wrote. -/
theorem readHead_putHead {b : Block} {lh : List Nat} (short : lh.length ≤ logsize)
    (words : ∀ x ∈ lh, x < 2 ^ 32) : readHead (putHead b lh) = lh := by
  have count : ((putHead b lh).get32 0).toInt32.toNatClampNeg = lh.length := by
    have small : lh.length ≤ 30 := short
    rw [putHead, get32_putBlocks_below (by omega), Bytes.get32_put32]
    generalize lh.length = n at small ⊢
    interval_cases n <;> rfl
  unfold readHead
  rw [count]
  apply List.ext_getElem (by simp)
  intro i hi hi'
  have word := words lh[i] (List.getElem_mem hi')
  rw [List.getElem_map, List.getElem_range, putHead, get32_putBlocks hi', UInt32.toNat_ofNat']
  omega

theorem readHead_clear (b : Block) : readHead (putHead b []) = [] :=
  readHead_putHead (by simp) (by simp)

/-! ## Block writes -/

/-- One `bwrite`: the block it goes to, and the data it finds in the buffers. -/
structure Write where
  block : Nat
  data : Dev → Block

/-- Perform writes in order. -/
def exec (ws : List Write) (d : Dev) : Dev :=
  ws.foldl (fun d w => d.bwrite w.block (w.data d)) d

@[simp] theorem exec_nil (d : Dev) : exec [] d = d := rfl

@[simp] theorem exec_cons (w : Write) (ws : List Write) (d : Dev) :
    exec (w :: ws) d = exec ws (d.bwrite w.block (w.data d)) := rfl

theorem exec_append (ws vs : List Write) (d : Dev) : exec (ws ++ vs) d = exec vs (exec ws d) :=
  List.foldl_append

/-- A block that no write goes to keeps its contents, on disk and in the cache. -/
theorem exec_other {ws : List Write} {b : Nat} (other : ∀ w ∈ ws, w.block ≠ b) (d : Dev) :
    (exec ws d).disk b = d.disk b ∧ (exec ws d).bread b = d.bread b := by
  induction ws generalizing d with
  | nil => exact ⟨rfl, rfl⟩
  | cons w ws ih =>
    have ne : b ≠ w.block := (other w List.mem_cons_self).symm
    obtain ⟨disk, view⟩ := ih (fun v hv => other v (List.mem_cons_of_mem _ hv))
      (d.bwrite w.block (w.data d))
    rw [exec_cons, disk, view]
    simp [ne]

/-- The first `k` writes of a sequence in two parts. -/
theorem exec_take_append (ws vs : List Write) (k : Nat) (d : Dev) :
    exec ((ws ++ vs).take k) d = exec (vs.take (k - ws.length)) (exec (ws.take k) d) := by
  rw [List.take_append, exec_append]

/-! ## The procedures of log.c -/

/-- `write_log` from index `tail` on: cached blocks go to the log. -/
def writeLog (start : Nat) : Nat → List Nat → List Write
  | _, [] => []
  | tail, b :: bs => ⟨start + tail + 1, fun d => d.bread b⟩ :: writeLog start (tail + 1) bs

/-- `install_trans` from index `tail` on: log blocks go home. -/
def installTrans (start : Nat) : Nat → List Nat → List Write
  | _, [] => []
  | tail, b :: bs => ⟨b, fun d => d.bread (start + tail + 1)⟩ :: installTrans start (tail + 1) bs

def writeHead (start : Nat) (lh : List Nat) : Write :=
  ⟨start, fun d => putHead (d.bread start) lh⟩

def commit (lg : Log) : List Write :=
  if 0 < lg.lh.length then
    writeLog lg.start 0 lg.lh ++ [writeHead lg.start lg.lh] ++
      (installTrans lg.start 0 lg.lh ++ [writeHead lg.start []])
  else []

/-- `recover_from_log`: `read_head` reads the header before anything is written. -/
def recoverFromLog (start : Nat) (d : Dev) : List Write :=
  installTrans start 0 (readHead (d.bread start)) ++ [writeHead start []]

@[simp] theorem length_writeLog (start tail : Nat) (bs : List Nat) :
    (writeLog start tail bs).length = bs.length := by
  induction bs generalizing tail with
  | nil => rfl
  | cons b bs ih => simp [writeLog, ih]

theorem mem_writeLog {start tail : Nat} {bs : List Nat} {w : Write}
    (h : w ∈ writeLog start tail bs) :
    start + tail < w.block ∧ w.block ≤ start + tail + bs.length := by
  induction bs generalizing tail with
  | nil => simp [writeLog] at h
  | cons b bs ih =>
    simp only [writeLog, List.mem_cons] at h
    rcases h with rfl | h
    · simp only [List.length_cons]
      omega
    · have := ih h
      simp only [List.length_cons]
      omega

theorem mem_installTrans {start tail : Nat} {bs : List Nat} {w : Write}
    (h : w ∈ installTrans start tail bs) : w.block ∈ bs := by
  induction bs generalizing tail with
  | nil => simp [installTrans] at h
  | cons b bs ih =>
    simp only [installTrans, List.mem_cons] at h
    rcases h with rfl | h
    · exact List.mem_cons_self
    · exact List.mem_cons_of_mem _ (ih h)

/-- After `write_log` the log blocks hold the cached contents, on disk and in
the cache, as long as no logged block lies in the log itself. -/
theorem exec_writeLog {start tail i : Nat} {bs : List Nat} {d : Dev}
    (outside : ∀ b ∈ bs, b ≤ start + tail ∨ start + tail + bs.length < b) (bound : i < bs.length) :
    (exec (writeLog start tail bs) d).disk (start + tail + i + 1) = d.bread bs[i] ∧
      (exec (writeLog start tail bs) d).bread (start + tail + i + 1) = d.bread bs[i] := by
  induction bs generalizing tail i d with
  | nil => simp at bound
  | cons b bs ih =>
    rw [writeLog, exec_cons]
    cases i with
    | zero =>
      have later : ∀ w ∈ writeLog start (tail + 1) bs, w.block ≠ start + tail + 1 := by
        intro w hw
        have := (mem_writeLog hw).1
        omega
      obtain ⟨disk, view⟩ := exec_other later
        (d.bwrite (start + tail + 1) (d.bread b))
      simp only [Nat.add_zero]
      rw [disk, view]
      simp
    | succ i =>
      have bound' : i < bs.length := by simpa using bound
      have out : ∀ x ∈ bs, x ≤ start + (tail + 1) ∨ start + (tail + 1) + bs.length < x := by
        intro x hx
        have := outside x (List.mem_cons_of_mem _ hx)
        simp only [List.length_cons] at this
        omega
      have rest := ih (d := d.bwrite (start + tail + 1) (d.bread b)) out bound'
      have shift : start + tail + (i + 1) + 1 = start + (tail + 1) + i + 1 := by omega
      have ne : bs[i] ≠ start + tail + 1 := by
        have := outside bs[i] (List.mem_cons_of_mem _ (List.getElem_mem bound'))
        simp only [List.length_cons] at this
        omega
      rw [shift, rest.1, rest.2]
      simp [ne]

/-- After `install_trans` every block of the header holds its log block, on disk
and in the cache. -/
theorem exec_installTrans {start tail i : Nat} {bs : List Nat} {d : Dev} (distinct : bs.Nodup)
    (outside : ∀ b ∈ bs, b ≤ start + tail ∨ start + tail + bs.length < b) (bound : i < bs.length) :
    (exec (installTrans start tail bs) d).disk bs[i] = d.bread (start + tail + i + 1) ∧
      (exec (installTrans start tail bs) d).bread bs[i] = d.bread (start + tail + i + 1) := by
  induction bs generalizing tail i d with
  | nil => simp at bound
  | cons b bs ih =>
    rw [installTrans, exec_cons]
    rw [List.nodup_cons] at distinct
    cases i with
    | zero =>
      have later : ∀ w ∈ installTrans start (tail + 1) bs, w.block ≠ b := by
        intro w hw same
        exact distinct.1 (same ▸ mem_installTrans hw)
      obtain ⟨disk, view⟩ := exec_other later (d.bwrite b (d.bread (start + tail + 1)))
      rw [List.getElem_cons_zero, disk, view]
      simp
    | succ i =>
      have bound' : i < bs.length := by simpa using bound
      have out : ∀ x ∈ bs, x ≤ start + (tail + 1) ∨ start + (tail + 1) + bs.length < x := by
        intro x hx
        have := outside x (List.mem_cons_of_mem _ hx)
        simp only [List.length_cons] at this
        omega
      have shift : start + tail + (i + 1) + 1 = start + (tail + 1) + i + 1 := by omega
      have ne : start + (tail + 1) + i + 1 ≠ b := by
        have := outside b List.mem_cons_self
        simp only [List.length_cons] at this bound
        omega
      have rest := ih (d := d.bwrite b (d.bread (start + tail + 1))) distinct.2 out bound'
      rw [List.getElem_cons_succ, rest.1, rest.2, shift]
      simp [ne]

/-- A commit changes what readers see in the log area only. -/
theorem bread_commit {lg : Log} {d : Dev} {b : Nat} (distinct : lg.lh.Nodup)
    (outside : ∀ x ∈ lg.lh, x < lg.start ∨ lg.start + lg.lh.length < x)
    (elsewhere : b < lg.start ∨ lg.start + lg.lh.length < b) :
    (exec (commit lg) d).bread b = d.bread b := by
  unfold commit
  split
  case isFalse => rfl
  have out : ∀ x ∈ lg.lh, x ≤ lg.start + 0 ∨ lg.start + 0 + lg.lh.length < x := by
    intro x hx
    have := outside x hx
    omega
  rw [exec_append, exec_append, exec_append]
  have clears : ∀ (lh : List Nat) (e : Dev), (exec [writeHead lg.start lh] e).bread b = e.bread b := by
    intro lh e
    refine (exec_other (fun w hw => ?_) e).2
    rw [List.mem_singleton.mp hw]
    simp only [writeHead]
    omega
  have logged : ∀ e : Dev, (exec (writeLog lg.start 0 lg.lh) e).bread b = e.bread b := by
    intro e
    refine (exec_other (fun w hw => ?_) e).2
    have := mem_writeLog hw
    omega
  rw [clears]
  by_cases member : b ∈ lg.lh
  · -- a logged block comes back from the log
    obtain ⟨i, bound, rfl⟩ := List.getElem_of_mem member
    rw [(exec_installTrans distinct out bound).2]
    have head : ∀ w ∈ [writeHead lg.start lg.lh], w.block ≠ lg.start + 0 + i + 1 := by
      intro w hw
      rw [List.mem_singleton.mp hw]
      simp only [writeHead]
      omega
    rw [(exec_other head _).2]
    exact (exec_writeLog out bound).2
  · rw [(exec_other (b := b) (fun w hw same => member (same ▸ mem_installTrans hw)) _).2, clears, logged]

end BasicOS
