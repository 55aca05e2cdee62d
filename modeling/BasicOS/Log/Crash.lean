/-
# BasicOS.Log.Crash — a transaction is on disk as a whole or not at all

A disk whose log header is empty is committed.  From there a transaction is
committed, and power may fail after any number of its block writes; then the
machine recovers, and may fail again after any number of the recovery's block
writes, as often as it likes.  Each failure leaves one of three disks:

* `Before`: the header is empty and no home block has changed;
* `During`: the header lists the transaction and the log holds its blocks, so
  that the home blocks of the transaction no longer matter;
* `After`: the header is empty and every home block has its new contents.

`commit_cut` and `recover_cut` say which of the three a partial run
leaves; `recover_done` says where a recovery that completes ends up.
-/
import BasicOS.Log.Commit

namespace BasicOS.Crash

open Function

set_option autoImplicit false

/-- A transaction as `log_write` hands it to `commit`: distinct home blocks
outside the log area, one log block for each. -/
structure Transaction (lg : Log) : Prop where
  area : 0 < lg.size
  distinct : lg.lh.Nodup
  fits : lg.lh.length ≤ lg.size - 1
  short : lg.lh.length ≤ logsize
  home : ∀ b ∈ lg.lh, b < lg.start ∨ lg.start + lg.size ≤ b
  words : ∀ b ∈ lg.lh, b < 2 ^ 32

/-- `b` lies outside the log area. -/
def Home (lg : Log) (b : Nat) : Prop :=
  b < lg.start ∨ lg.start + lg.size ≤ b

/-- What block `b` holds once the transaction is installed. -/
def after (lg : Log) (d : Dev) (b : Nat) : Block :=
  if b ∈ lg.lh then d.bread b else d.disk b

section States

variable (lg : Log) (d : Dev)

/-- The header is empty and the home blocks are as before the transaction. -/
structure Before (disk : Nat → Block) : Prop where
  header : readHead (disk lg.start) = []
  same : ∀ b, Home lg b → disk b = d.disk b

/-- The header lists the transaction, whose blocks are in the log. -/
structure During (disk : Nat → Block) : Prop where
  header : readHead (disk lg.start) = lg.lh
  logged : ∀ i (bound : i < lg.lh.length), disk (lg.start + i + 1) = d.bread lg.lh[i]
  same : ∀ b, Home lg b → b ∉ lg.lh → disk b = d.disk b

/-- The header is empty and the home blocks are as after the transaction. -/
structure After (disk : Nat → Block) : Prop where
  header : readHead (disk lg.start) = []
  done : ∀ b, Home lg b → disk b = after lg d b

end States

variable {lg : Log} {d : Dev}

/-! ## The log area -/

section

variable (tx : Transaction lg)

include tx

theorem Transaction.bounds (b : Nat) (h : b ∈ lg.lh) :
    b ≤ lg.start + 0 ∨ lg.start + 0 + lg.lh.length < b := by
  have fits := tx.fits
  rcases tx.home b h with low | high
  · omega
  · have : 0 < lg.lh.length := List.length_pos_of_mem h
    omega

theorem Transaction.ne_start {b : Nat} (h : b ∈ lg.lh) : b ≠ lg.start := by
  have fits := tx.fits
  have : 0 < lg.lh.length := List.length_pos_of_mem h
  rcases tx.home b h with low | high <;> omega

/-- Writes to the log leave the home blocks alone. -/
theorem writeLog_home {b : Nat} (home : Home lg b) {w : Write}
    (h : w ∈ writeLog lg.start 0 lg.lh) : w.block ≠ b := by
  have range := mem_writeLog h
  have fits := tx.fits
  rcases home with low | high <;> omega

theorem head_home (some : 0 < lg.lh.length) {b : Nat} (home : Home lg b) :
    lg.start ≠ b := by
  have fits := tx.fits
  rcases home with low | high <;> omega

/-! ## Where a commit can stop -/

/-- While the log is being written the header is still empty. -/
theorem writeLog_cut (clean : readHead (d.disk lg.start) = []) (k : Nat) :
    Before lg d (exec ((writeLog lg.start 0 lg.lh).take k) d).disk := by
  have sub : ∀ w ∈ (writeLog lg.start 0 lg.lh).take k, w ∈ writeLog lg.start 0 lg.lh :=
    fun w h => List.mem_of_mem_take h
  refine ⟨?_, fun b home => ?_⟩
  · rw [(exec_other (fun w h => ?_) d).1]
    · exact clean
    · have := mem_writeLog (sub w h)
      omega
  · exact (exec_other (fun w h => writeLog_home tx home (sub w h)) d).1

end

/-- The device once `write_head` has written the header of the transaction. -/
def committed (lg : Log) (d : Dev) : Dev :=
  exec [writeHead lg.start lg.lh] (exec (writeLog lg.start 0 lg.lh) d)

section

variable (tx : Transaction lg)

include tx

theorem committed_header :
    readHead ((committed lg d).disk lg.start) = lg.lh ∧
      readHead ((committed lg d).bread lg.start) = lg.lh := by
  simp [committed, writeHead, readHead_putHead tx.short tx.words]

/-- The log blocks hold the transaction, on disk and in the cache. -/
theorem committed_logged {i : Nat} (bound : i < lg.lh.length) :
    (committed lg d).disk (lg.start + i + 1) = d.bread lg.lh[i] ∧
      (committed lg d).bread (lg.start + i + 1) = d.bread lg.lh[i] := by
  have logged := exec_writeLog (d := d) (fun b h => tx.bounds b h) bound
  simp only [Nat.add_zero] at logged
  have ne : lg.start + i + 1 ≠ lg.start := by omega
  simp [committed, writeHead, ne, logged]

theorem committed_home (some : 0 < lg.lh.length) {b : Nat}
    (home : Home lg b) : (committed lg d).disk b = d.disk b := by
  have ne : b ≠ lg.start := (head_home tx some home).symm
  have same := (exec_other (fun w h => writeLog_home tx home h) d).1
  simp [committed, writeHead, ne, same]

/-- Installing any part of a listed transaction keeps it listed: the writes go
to its home blocks only. -/
theorem installTrans_cut {e : Dev} (during : During lg d e.disk)
    (m : Nat) : During lg d (exec ((installTrans lg.start 0 lg.lh).take m) e).disk := by
  have goes : ∀ w ∈ (installTrans lg.start 0 lg.lh).take m, w.block ∈ lg.lh :=
    fun w h => mem_installTrans (List.mem_of_mem_take h)
  refine ⟨?_, fun i bound => ?_, fun b home absent => ?_⟩
  · rw [(exec_other (fun w h => tx.ne_start (goes w h)) e).1]
    exact during.header
  · rw [(exec_other (fun w h same => ?_) e).1]
    · exact during.logged i bound
    · have := tx.bounds w.block (goes w h)
      omega
  · rw [(exec_other (b := b) (fun w h same => absent (same ▸ goes w h)) e).1]
    exact during.same b home absent

/-- Installing all of it and clearing the header ends the transaction. -/
theorem install_done {e : Dev} (some : 0 < lg.lh.length)
    (during : During lg d e.disk)
    (cached : ∀ i (bound : i < lg.lh.length), e.bread (lg.start + i + 1) = d.bread lg.lh[i]) :
    After lg d (exec (installTrans lg.start 0 lg.lh ++ [writeHead lg.start []]) e).disk := by
  rw [exec_append]
  refine ⟨?_, fun b home => ?_⟩
  · simp [writeHead, readHead_clear]
  · have ne : b ≠ lg.start := (head_home tx some home).symm
    simp only [exec_cons, exec_nil, writeHead, Dev.disk_bwrite, update_of_ne ne, after]
    split
    · rename_i present
      obtain ⟨i, bound, rfl⟩ := List.mem_iff_getElem.mp present
      have home := (exec_installTrans (d := e) tx.distinct (fun b h => tx.bounds b h) bound).1
      simp only [Nat.add_zero] at home
      rw [home, cached i bound]
    · rename_i absent
      rw [(exec_other (b := b) (fun w h same => absent (same ▸ mem_installTrans h)) e).1]
      exact during.same b home absent

theorem committed_during (some : 0 < lg.lh.length) :
    During lg d (committed lg d).disk where
  header := (committed_header tx).1
  logged := fun _ bound => (committed_logged tx bound).1
  same := fun _ home _ => committed_home tx some home

end

/-- A sequence of writes that ends with one more write is cut before it or not
cut at all. -/
theorem exec_take_snoc (ws : List Write) (w : Write) (m : Nat) (e : Dev) :
    (exec ((ws ++ [w]).take m) e = exec (ws.take m) e) ∨
      (ws.length < m ∧ exec ((ws ++ [w]).take m) e = exec (ws ++ [w]) e) := by
  by_cases inside : m ≤ ws.length
  · exact Or.inl (by rw [List.take_append_of_le_length inside])
  · exact Or.inr ⟨by omega, by rw [List.take_of_length_le (by simp; omega)]⟩

/-- **Where a commit can stop.**  Before the header is written nothing has
happened; from then on the transaction is listed, or done. -/
theorem commit_cut (tx : Transaction lg) (clean : readHead (d.disk lg.start) = []) (k : Nat) :
    let disk := (exec ((commit lg).take k) d).disk
    (k ≤ lg.lh.length ∧ Before lg d disk) ∨
      (lg.lh.length < k ∧ (During lg d disk ∨ After lg d disk)) := by
  intro disk
  by_cases some : 0 < lg.lh.length
  · by_cases early : k ≤ lg.lh.length
    · refine Or.inl ⟨early, ?_⟩
      have cut : (commit lg).take k = (writeLog lg.start 0 lg.lh).take k := by
        rw [commit, if_pos some, List.append_assoc, List.take_append_of_le_length (by simpa)]
      simpa only [disk, cut] using writeLog_cut tx clean k
    · refine Or.inr ⟨by omega, ?_⟩
      have cut : exec ((commit lg).take k) d =
          exec ((installTrans lg.start 0 lg.lh ++ [writeHead lg.start []]).take
            (k - (lg.lh.length + 1))) (committed lg d) := by
        have whole : (writeLog lg.start 0 lg.lh ++ [writeHead lg.start lg.lh]).take k =
            writeLog lg.start 0 lg.lh ++ [writeHead lg.start lg.lh] :=
          List.take_of_length_le (by simp; omega)
        rw [commit, if_pos some, exec_take_append, whole]
        simp [committed, exec_append]
      have during := committed_during (d := d) tx some
      simp only [disk, cut]
      rcases exec_take_snoc (installTrans lg.start 0 lg.lh) (writeHead lg.start [])
        (k - (lg.lh.length + 1)) (committed lg d) with h | ⟨-, h⟩
      · rw [h]
        exact Or.inl (installTrans_cut tx during _)
      · rw [h]
        exact Or.inr (install_done tx some during fun i bound => (committed_logged tx bound).2)
  · have nil : lg.lh = [] := List.length_eq_zero_iff.mp (by omega)
    have cut : (commit lg).take k = [] := by simp [commit, nil]
    have unchanged : ∀ b, Home lg b → disk b = d.disk b := fun b _ => by simp [disk, cut]
    have header : readHead (disk lg.start) = [] := by simpa [disk, cut] using clean
    by_cases early : k ≤ lg.lh.length
    · exact Or.inl ⟨early, header, unchanged⟩
    · refine Or.inr ⟨by omega, Or.inr ⟨header, fun b home => ?_⟩⟩
      simpa [after, nil] using unchanged b home

/-! ## Recovery -/

/-- A recovery with an empty header only rewrites the header. -/
theorem recover_empty {e : Dev} (header : readHead (e.bread lg.start) = []) :
    recoverFromLog lg.start e = [writeHead lg.start []] := by
  simp [recoverFromLog, header, installTrans]

theorem clear_cut (e : Dev) (m : Nat) (header : readHead (e.disk lg.start) = []) :
    readHead ((exec ([writeHead lg.start []].take m) e).disk lg.start) = [] ∧
      ∀ b, b ≠ lg.start → (exec ([writeHead lg.start []].take m) e).disk b = e.disk b := by
  cases m with
  | zero => exact ⟨header, fun _ _ => rfl⟩
  | succ m =>
    refine ⟨by simp [writeHead, readHead_clear], fun b ne => ?_⟩
    simp [writeHead, ne]

/-- The header block lies inside a log that has room for one. -/
theorem home_ne_start {b : Nat} (area : 0 < lg.size) (home : Home lg b) : b ≠ lg.start := by
  rcases home with low | high <;> omega

/-- A listed transaction is recovered from the log: partly, or to its end. -/
theorem during_recover {disk : Nat → Block} (tx : Transaction lg) (some : 0 < lg.lh.length)
    (during : During lg d disk) (e : Dev) (fresh : e.bread = disk) (same : e.disk = disk) (m : Nat) :
    let cut := (exec ((recoverFromLog lg.start e).take m) e).disk
    (During lg d cut ∨ After lg d cut) ∧
      ((recoverFromLog lg.start e).length ≤ m → After lg d cut) := by
  intro cut
  have during' : During lg d e.disk := same ▸ during
  have plan : recoverFromLog lg.start e =
      installTrans lg.start 0 lg.lh ++ [writeHead lg.start []] := by
    rw [recoverFromLog, fresh, during.header]
  have all : After lg d (exec (installTrans lg.start 0 lg.lh ++ [writeHead lg.start []]) e).disk :=
    install_done tx some during' fun i bound => by rw [fresh]; exact during.logged i bound
  simp only [cut, plan]
  refine ⟨?_, fun whole => by rw [List.take_of_length_le whole]; exact all⟩
  rcases exec_take_snoc (installTrans lg.start 0 lg.lh) (writeHead lg.start []) m e with h | ⟨-, h⟩
  · rw [h]
    exact Or.inl (installTrans_cut tx during' m)
  · rw [h]
    exact Or.inr all

/-- Recovering a disk with an empty header leaves its home blocks alone. -/
theorem empty_recover {disk : Nat → Block} (area : 0 < lg.size)
    (header : readHead (disk lg.start) = []) (e : Dev) (fresh : e.bread = disk)
    (same : e.disk = disk) (m : Nat) :
    let cut := (exec ((recoverFromLog lg.start e).take m) e).disk
    readHead (cut lg.start) = [] ∧ ∀ b, Home lg b → cut b = disk b := by
  intro cut
  obtain ⟨clear, rest⟩ := clear_cut e m (by rw [same]; exact header)
  simp only [cut, recover_empty (e := e) (by rw [fresh]; exact header)]
  exact ⟨clear, fun b home => by rw [rest b (home_ne_start area home), same]⟩

/-- **Where a recovery can stop**, and what it reaches when it completes.  A
transaction that was listed never goes back. -/
theorem recover_cut {e : Dev} (tx : Transaction lg)
    (fresh : e.bread = e.disk) (m : Nat) :
    let cut := (exec ((recoverFromLog lg.start e).take m) e).disk
    let whole := (recoverFromLog lg.start e).length ≤ m
    (Before lg d e.disk → Before lg d cut) ∧
      (During lg d e.disk → (During lg d cut ∨ After lg d cut) ∧ (whole → After lg d cut)) ∧
      (After lg d e.disk → After lg d cut) := by
  intro cut whole
  refine ⟨fun before => ?_, fun during => ?_, fun done => ?_⟩
  · obtain ⟨header, rest⟩ := empty_recover tx.area before.header e fresh rfl m
    exact ⟨header, fun b home => (rest b home).trans (before.same b home)⟩
  · by_cases some : 0 < lg.lh.length
    · exact during_recover tx some during e fresh rfl m
    · -- an empty transaction is listed by an empty header: it is done already
      have nil : lg.lh = [] := List.length_eq_zero_iff.mp (by omega)
      obtain ⟨header, rest⟩ := empty_recover tx.area (by rw [during.header, nil]) e fresh rfl m
      have done : After lg d cut := by
        refine ⟨header, fun b home => ?_⟩
        rw [show cut b = e.disk b from rest b home, during.same b home (by simp [nil])]
        simp [after, nil]
      exact ⟨Or.inr done, fun _ => done⟩
  · obtain ⟨header, rest⟩ := empty_recover tx.area done.header e fresh rfl m
    exact ⟨header, fun b home => (rest b home).trans (done.done b home)⟩

/-! ## Any number of failures -/

/-- The device after a recovery that fails after `m` of its writes. -/
def failedRecovery (start : Nat) (e : Dev) (m : Nat) : Dev :=
  (exec ((recoverFromLog start e).take m) e).crash

/-- The device after recoveries that fail after the given numbers of writes. -/
def failedRecoveries (start : Nat) (e : Dev) (ms : List Nat) : Dev :=
  ms.foldl (failedRecovery start) e

/-- Once the header has been written, every failure leaves the transaction
listed or done. -/
theorem failedRecoveries_committed {e : Dev} (tx : Transaction lg)
    (fresh : e.bread = e.disk) (listed : During lg d e.disk ∨ After lg d e.disk) (ms : List Nat) :
    let f := failedRecoveries lg.start e ms
    f.bread = f.disk ∧ (During lg d f.disk ∨ After lg d f.disk) := by
  induction ms generalizing e with
  | nil => exact ⟨fresh, listed⟩
  | cons m ms ih =>
    refine ih (e := failedRecovery lg.start e m) rfl ?_
    obtain ⟨-, during, done⟩ := recover_cut (d := d) tx fresh m
    rcases listed with h | h
    · exact (during h).1
    · exact Or.inr (done h)

/-- A failure before the header was written leaves the disk as it was. -/
theorem failedRecoveries_before {e : Dev} (tx : Transaction lg)
    (fresh : e.bread = e.disk) (before : Before lg d e.disk) (ms : List Nat) :
    let f := failedRecoveries lg.start e ms
    f.bread = f.disk ∧ Before lg d f.disk := by
  induction ms generalizing e with
  | nil => exact ⟨fresh, before⟩
  | cons m ms ih =>
    exact ih (e := failedRecovery lg.start e m) rfl
      ((recover_cut (d := d) tx fresh m).1 before)

/-! ## Atomicity -/

/-- A block that commit and recovery may write. -/
def Logged (lg : Log) (b : Nat) : Prop :=
  (lg.start ≤ b ∧ b < lg.start + lg.size) ∨ b ∈ lg.lh

theorem commit_logged (tx : Transaction lg) {w : Write} (h : w ∈ commit lg) :
    Logged lg w.block := by
  have area := tx.area
  have fits := tx.fits
  unfold commit at h
  split at h
  · simp only [List.mem_append, List.mem_singleton] at h
    rcases h with (h | rfl) | h | rfl
    · have range := mem_writeLog h
      exact Or.inl (by omega)
    · exact Or.inl ⟨Nat.le_refl _, by simp only [writeHead]; omega⟩
    · exact Or.inr (mem_installTrans h)
    · exact Or.inl ⟨Nat.le_refl _, by simp only [writeHead]; omega⟩
  · simp at h

theorem recover_logged {e : Dev} (tx : Transaction lg) (fresh : e.bread = e.disk)
    (header : readHead (e.disk lg.start) = [] ∨ readHead (e.disk lg.start) = lg.lh)
    {w : Write} (h : w ∈ recoverFromLog lg.start e) : Logged lg w.block := by
  have area := tx.area
  simp only [recoverFromLog, List.mem_append, List.mem_singleton] at h
  rcases h with h | rfl
  · have listed := mem_installTrans h
    rw [fresh] at listed
    rcases header with nil | same
    · rw [nil] at listed
      cases listed
    · exact Or.inr (same ▸ listed)
  · exact Or.inl ⟨Nat.le_refl _, by simp only [writeHead]; omega⟩

/-- What every chain of failures leaves: the disk of before the transaction, or
one from which the transaction is recovered. -/
theorem failures (tx : Transaction lg) (clean : readHead (d.disk lg.start) = []) (k : Nat)
    (ms : List Nat) :
    let e := failedRecoveries lg.start (exec ((commit lg).take k) d).crash ms
    e.bread = e.disk ∧ ((k ≤ lg.lh.length ∧ Before lg d e.disk) ∨
      (lg.lh.length < k ∧ (During lg d e.disk ∨ After lg d e.disk))) := by
  rcases commit_cut tx clean k with ⟨early, before⟩ | ⟨late, listed⟩
  · obtain ⟨fresh, before'⟩ := failedRecoveries_before tx
      (e := (exec ((commit lg).take k) d).crash) rfl before ms
    exact ⟨fresh, Or.inl ⟨early, before'⟩⟩
  · obtain ⟨fresh, listed'⟩ := failedRecoveries_committed tx
      (e := (exec ((commit lg).take k) d).crash) rfl listed ms
    exact ⟨fresh, Or.inr ⟨late, listed'⟩⟩

/-- **Crash atomicity.**  Power fails after `k` writes of the commit, and then
during each of any number of recoveries; the recovery that completes leaves the
home blocks all as before the transaction or all as after it, and as after it
once the header was written.  No write of the commit or of any recovery goes
outside the log area and the logged blocks. -/
theorem crash_atomicity (tx : Transaction lg) (clean : readHead (d.disk lg.start) = []) (k : Nat)
    (ms : List Nat) :
    let e := failedRecoveries lg.start (exec ((commit lg).take k) d).crash ms
    let final := (exec (recoverFromLog lg.start e) e).disk
    ((∀ b, Home lg b → final b = d.disk b) ∨ (∀ b, Home lg b → final b = after lg d b)) ∧
      (lg.lh.length < k → ∀ b, Home lg b → final b = after lg d b) ∧
      (∀ w ∈ commit lg, Logged lg w.block) ∧
      (∀ w ∈ recoverFromLog lg.start e, Logged lg w.block) := by
  intro e final
  obtain ⟨fresh, cut⟩ := failures (d := d) tx clean k ms
  have whole : final = (exec ((recoverFromLog lg.start e).take
      (recoverFromLog lg.start e).length) e).disk := by
    rw [List.take_length]
  obtain ⟨before, during, done⟩ :=
    recover_cut (d := d) tx fresh (recoverFromLog lg.start e).length
  rw [← whole] at before during done
  have header : readHead (e.disk lg.start) = [] ∨ readHead (e.disk lg.start) = lg.lh := by
    rcases cut with ⟨-, h⟩ | ⟨-, h | h⟩
    · exact Or.inl h.header
    · exact Or.inr h.header
    · exact Or.inl h.header
  have installed : lg.lh.length < k → ∀ b, Home lg b → final b = after lg d b := by
    intro late
    rcases cut with ⟨early, -⟩ | ⟨-, h | h⟩
    · omega
    · exact ((during h).2 (Nat.le_refl _)).done
    · exact (done h).done
  refine ⟨?_, installed, fun w h => commit_logged tx h,
    fun w h => recover_logged tx fresh header h⟩
  rcases cut with ⟨-, h⟩ | ⟨late, -⟩
  · exact Or.inl (before h).same
  · exact Or.inr (installed late)

/-- Two blocks in the cache over a zeroed disk. -/
def sampleLog : Log :=
  { start := 2, size := 30, outstanding := 0, committing := true, lh := [124, 58] }

def sampleDev : Dev where
  disk := fun _ _ => 0
  cache := fun b => if b = 124 ∨ b = 58 then some (fun _ => 7) else none

theorem sample_crash_atomicity :
    let e := failedRecoveries 2 (exec ((commit sampleLog).take 3) sampleDev).crash [1, 0, 2]
    let final := (exec (recoverFromLog 2 e) e).disk
    ∀ b, Home sampleLog b → final b = after sampleLog sampleDev b :=
  (crash_atomicity (d := sampleDev)
    { area := by decide, distinct := by decide, fits := by decide, short := by decide,
      home := by decide, words := by decide } rfl 3 [1, 0, 2]).2.1 (by decide)

end BasicOS.Crash
