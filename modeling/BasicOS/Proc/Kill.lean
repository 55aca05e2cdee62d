/-
# BasicOS.Proc.Kill — what kill hits

Of each entry of the table whether it is in use, its pid and its killed flag.  A step
gives an entry a new pid, clears an entry, sets one flag or does none of these
(`step_marks`).  So pids that are not zero are never shared (`Numbered`), and `kill` hits
one process and nothing else, unless its pid is still to be read in an `UNUSED` entry: a
cleared entry has the pid zero, and a call that gave up after `allocproc` leaves the pid it
was given.  As `allocproc` does not reset the flag, what `kill` does to such an entry is
found by its next occupant.
-/
import BasicOS.Proc.Effect

namespace BasicOS.Ptable

open Function Lib

set_option autoImplicit false

/-- `kill` with the argument of the system call.  No pid of the table is negative. -/
def sysKill (t : Table) : Int → Table × Int
  | .ofNat pid => kill t pid
  | .negSucc _ => (t, -1)

/-- No `UNUSED` entry has this pid. -/
def Aimed (t : Table) (pid : Int) : Prop :=
  ∀ s, ((t.proc s).pid : Int) = pid → (t.proc s).state ≠ .unused

instance (t : Table) (pid : Int) : Decidable (Aimed t pid) :=
  inferInstanceAs (Decidable (∀ _, _))

/-- The event is no `kill`, or one whose pid is in use or nowhere in the table. -/
def AimedKill (t : Table) : Event → Prop
  | .kill pid => Aimed t pid
  | _ => True

instance (t : Table) (e : Event) : Decidable (AimedKill t e) := by
  cases e <;> unfold AimedKill <;> infer_instance

/-! ## What a step does to pids and flags -/

structure Mark where
  used : Bool
  pid : Nat
  killed : Bool
  deriving DecidableEq, Repr

def Proc.mark (p : Proc) : Mark where
  used := p.state ≠ .unused
  pid := p.pid
  killed := p.killed

def Table.marks (t : Table) (s : Slot) : Mark :=
  (t.proc s).mark

inductive Marks (t t' : Table) (e : Event) : Prop where
  | same (marks : t'.marks = t.marks) (next : t'.nextpid = t.nextpid)
  /-- `allocproc`, whatever becomes of the entry. -/
  | numbered (np : Slot) (used : Bool) (free : (t.marks np).used = false)
      (marks : t'.marks = update t.marks np ⟨used, t.nextpid, (t.marks np).killed⟩)
      (next : t'.nextpid = t.nextpid + 1)
  | cleared (s : Slot) (marks : t'.marks = update t.marks s ⟨false, 0, false⟩)
      (next : t'.nextpid = t.nextpid)
  | hit (s : Slot) (call : e = .kill (t.marks s).pid)
      (marks : t'.marks = update t.marks s { t.marks s with killed := true })
      (next : t'.nextpid = t.nextpid)

section Steps

variable {t t' : Table} {e : Event}

theorem set_marks (t : Table) (s : Slot) (p : Proc) :
    (t.set s p).marks = update t.marks s p.mark := by
  funext r
  by_cases here : r = s
  · subst here
    simp [Table.marks, Table.set]
  · simp [Table.marks, Table.set, here]

/-- A change of an entry that leaves these data alone. -/
theorem set_marks_same {s : Slot} {p : Proc} (same : p.mark = (t.proc s).mark) :
    (t.set s p).marks = t.marks := by
  rw [set_marks, same]
  exact update_eq_self s t.marks

theorem embryo_set_marks (t : Table) (np : Slot) (p : Proc) :
    ((t.embryo np).set np p).marks = update t.marks np p.mark := by
  have embryo : (t.embryo np).marks =
      (t.set np { t.proc np with state := .embryo, pid := t.nextpid }).marks := rfl
  rw [set_marks, embryo, set_marks, update_idem]

/-- Whatever becomes of the entry that `allocproc` takes. -/
theorem marks_numbered {np : Slot} {p : Proc} (first : firstUnused t = some np)
    (marks : t'.marks = ((t.embryo np).set np p).marks) (next : t'.nextpid = t.nextpid + 1)
    (pid : p.pid = t.nextpid) (flag : p.killed = (t.proc np).killed) :
    Marks t t' e := by
  have unused := List.find?_some first
  refine .numbered np p.mark.used ?_ ?_ next
  · simpa [Table.marks, Proc.mark] using unused
  · rw [marks, embryo_set_marks]
    simp only [Proc.mark, pid, flag, Table.marks]

theorem fork_marks (t : Table) (cur : Slot) (kstack : Bool) (copy : Copy) :
    Marks t (fork t cur kstack copy).1 e := by
  unfold fork
  rw [allocproc_eq]
  rcases first : firstUnused t with _ | np
  · exact .same rfl rfl
  have pid := congrArg Proc.pid (embryo_proc t np)
  have flag := congrArg Proc.killed (embryo_proc t np)
  cases kstack with
  | false => exact marks_numbered first rfl rfl pid flag
  | true => cases copy <;> exact marks_numbered first rfl rfl pid flag

theorem threadCreate_marks (t : Table) (cur : Slot) (kstack : Bool) :
    Marks t (threadCreate t cur kstack).1 e := by
  unfold threadCreate
  rw [allocproc_eq]
  rcases first : firstUnused t with _ | np
  · exact .same rfl rfl
  have pid := congrArg Proc.pid (embryo_proc t np)
  have flag := congrArg Proc.killed (embryo_proc t np)
  cases kstack <;> exact marks_numbered first rfl rfl pid flag

theorem exec_marks (t : Table) (cur : Slot) (image : Image) : Marks t (exec t cur image).1 e := by
  cases image with
  | noDirectory => exact .same rfl rfl
  | undone => exact .same rfl rfl
  | done sz => exact .same (set_marks_same rfl) rfl

theorem wake_mark (chan : Option Chan) (p : Proc) : (p.wake chan).mark = p.mark := by
  unfold Proc.wake
  split
  · rename_i asleep
    simp [Proc.mark, asleep.1]
  · rfl

theorem wakeup1_marks (chan : Option Chan) (t : Table) : (wakeup1 chan t).marks = t.marks :=
  funext fun s => wake_mark chan (t.proc s)

theorem reparent_marks (t : Table) (cur : Slot) : (reparent t cur).marks = t.marks := by
  funext s
  simp only [Table.marks, reparent]
  split <;> rfl

theorem leave_marks {cur : Slot} (running : (t.proc cur).state = .running)
    (left : leave t cur = some t') : Marks t t' e := by
  have woken : ∀ (b : Bool) (chan : Option Chan) (u : Table),
      (if b then wakeup1 chan u else u).marks = u.marks := by
    intro b chan u
    cases b
    · rfl
    · exact wakeup1_marks chan u
  unfold leave at left
  split at left
  · cases left
  cases left
  refine .same ?_ ?_
  · -- an exited process keeps its entry
    have used : (t.marks cur).used = true := by simp [Table.marks, Proc.mark, running]
    rw [set_marks]
    change update (Table.marks _) cur ({ Table.marks _ cur with used := true } : Mark) = _
    rw [woken, reparent_marks, wakeup1_marks, ← used]
    exact update_eq_self cur t.marks
  · split <;> rfl

theorem scan_marks (thread : Bool) {cur : Slot} (running : (t.proc cur).state = .running) :
    Marks t (scan thread t cur).1 e := by
  unfold scan
  rcases first : found thread t cur with _ | s
  · dsimp only
    split
    · exact .same rfl rfl
    · exact .same (set_marks_same (by simp [Proc.mark, running])) rfl
  · refine .cleared s ?_ ?_
    · rw [set_marks]
      cases thread <;> rfl
    · cases thread <;> rfl

theorem growproc_marks (t : Table) (cur : Slot) (n : Int32) (mem : Bool) :
    Marks t (growproc t cur n mem).1 e := by
  unfold growproc
  split
  · exact .same rfl rfl
  · dsimp only
    rw [grow_resize]
    refine .same (funext fun s => ?_) rfl
    simp only [Table.marks, Table.resize]
    split <;> rfl

theorem kill_marks (t : Table) (pid : Nat) : Marks t (kill t pid).1 (.kill pid) := by
  unfold kill target
  rcases hit : (List.finRange nproc).find? fun s => (t.proc s).pid = pid with _ | s
  · exact .same rfl rfl
  · have found : (t.proc s).pid = pid := by simpa using List.find?_some hit
    refine .hit s (by rw [← found]; rfl) ?_ rfl
    rw [set_marks]
    congr 1
    simp only [Proc.mark, Table.marks]
    split <;> simp_all

/-- What a step does to pids and flags. -/
theorem step_marks (h : step t e = some t') : Marks t t' e := by
  unfold step at h
  split at h
  on_goal 2 => cases h
  rename_i caller
  cases e with
  | fork cur kstack copy =>
    obtain rfl := Option.some.inj h
    exact fork_marks t cur kstack copy
  | threadCreate cur kstack =>
    obtain rfl := Option.some.inj h
    exact threadCreate_marks t cur kstack
  | exec cur image =>
    obtain rfl := Option.some.inj h
    exact exec_marks t cur image
  | exit cur => exact leave_marks (caller cur rfl) h
  | threadExit cur => exact leave_marks (caller cur rfl) h
  | wait cur =>
    obtain rfl := Option.some.inj h
    exact scan_marks false (caller cur rfl)
  | threadJoin cur =>
    obtain rfl := Option.some.inj h
    exact scan_marks true (caller cur rfl)
  | sbrk cur n mem =>
    obtain rfl := Option.some.inj h
    exact growproc_marks t cur n mem
  | schedule s =>
    rw [act] at h
    split at h
    on_goal 2 => cases h
    rename_i runnable
    obtain rfl := Option.some.inj h
    exact .same (set_marks_same (by simp [Proc.mark, runnable])) rfl
  | yield cur =>
    obtain rfl := Option.some.inj h
    exact .same (set_marks_same (by simp [Proc.mark, caller cur rfl])) rfl
  | sleep cur chan =>
    obtain rfl := Option.some.inj h
    exact .same (set_marks_same (by simp [Proc.mark, caller cur rfl])) rfl
  | wakeup chan =>
    obtain rfl := Option.some.inj h
    exact .same (wakeup1_marks _ t) rfl
  | kill pid =>
    obtain rfl := Option.some.inj h
    exact kill_marks t pid

/-! ## Pids are not shared -/

/-- What holds of the pids in every state. -/
structure Numbered (t : Table) : Prop where
  positive : 0 < t.nextpid
  below : ∀ s, (t.marks s).pid < t.nextpid
  given : ∀ s, (t.marks s).used = true → (t.marks s).pid ≠ 0
  distinct : ∀ s r, (t.marks s).pid = (t.marks r).pid → (t.marks s).pid ≠ 0 → s = r

theorem numbered_step (right : Numbered t) (h : step t e = some t') : Numbered t' := by
  obtain ⟨positive, below, given, distinct⟩ := right
  cases step_marks h with
  | same marks next => exact ⟨by rw [next]; exact positive, by rwa [marks, next], by rwa [marks], by rwa [marks]⟩
  | numbered np used free marks next =>
    -- the new pid is above all others
    refine ⟨by omega, fun s => ?_, fun s => ?_, fun s r => ?_⟩
    · rw [marks, next, update_apply]
      split
      · exact Nat.lt_succ_self _
      · exact Nat.lt_succ_of_lt (below s)
    · rw [marks, update_apply]
      split
      · exact fun _ => positive.ne'
      · exact given s
    · simp only [marks, update_apply]
      have := below s
      have := below r
      split_ifs with here there there
      · exact fun _ _ => here.trans there.symm
      · exact fun same => by simp only at same; omega
      · exact fun same => by simp only at same; omega
      · exact distinct s r
  | cleared z marks next =>
    refine ⟨by rw [next]; exact positive, fun s => ?_, fun s => ?_, fun s r => ?_⟩
    · rw [marks, next, update_apply]
      split
      · exact positive
      · exact below s
    · rw [marks, update_apply]
      split
      · exact nofun
      · exact given s
    · simp only [marks, update_apply]
      split_ifs with here there there
      · exact fun _ some => absurd rfl some
      · exact fun _ some => absurd rfl some
      · exact fun same some => absurd same some
      · exact distinct s r
  | hit z call marks next =>
    have pids : ∀ s, (t'.marks s).pid = (t.marks s).pid := by
      intro s
      rw [marks, update_apply]
      split
      · rename_i here
        rw [here]
      · rfl
    refine ⟨by rw [next]; exact positive, fun s => by rw [pids, next]; exact below s, fun s => ?_,
      fun s r => by rw [pids, pids]; exact distinct s r⟩
    rw [pids, marks, update_apply]
    split
    · rename_i here
      rw [here]
      exact given z
    · exact given s

theorem userinit_numbered : Numbered userinit where
  positive := by decide
  below := by decide
  given := by decide
  distinct := by decide

/-! ## Unused entries are not killed -/

/-- A process that takes a new entry finds its flag clear. -/
def Unmarked (t : Table) : Prop :=
  ∀ s, (t.marks s).used = false → (t.marks s).killed = false

theorem unmarked_step (right : Unmarked t) (aimed : AimedKill t e) (h : step t e = some t') :
    Unmarked t' := by
  cases step_marks h with
  | same marks next => rwa [Unmarked, marks]
  | numbered np used free marks next =>
    intro s
    rw [marks, update_apply]
    split
    · exact fun _ => right np free
    · exact right s
  | cleared z marks next =>
    intro s
    rw [marks, update_apply]
    split
    · exact fun _ => rfl
    · exact right s
  | hit z call marks next =>
    subst call
    intro s
    rw [marks, update_apply]
    split
    · intro unused
      have inUse : (t.proc z).state ≠ .unused := aimed z rfl
      simp [Table.marks, Proc.mark, inUse] at unused
    · exact right s

theorem userinit_unmarked : Unmarked userinit := by
  unfold Unmarked
  decide

/-- A step leaves the flag of an entry that it takes into use as it was. -/
theorem taken_flag (h : step t e = some t') {s : Slot} (free : (t.marks s).used = false)
    (taken : (t'.marks s).used = true) : (t'.marks s).killed = (t.marks s).killed := by
  cases step_marks h with
  | same marks next => rw [marks]
  | numbered np used _ marks next =>
    rw [marks, update_apply]
    split
    · rename_i here
      rw [here]
    · rfl
  | cleared z marks next =>
    rw [marks, update_apply] at taken
    split at taken
    · cases taken
    · rw [free] at taken
      cases taken
  | hit z call marks next =>
    rw [marks, update_apply] at taken
    split at taken
    · rename_i here
      rw [here] at free
      rw [show (t.marks z).used = true from taken] at free
      cases free
    · rw [free] at taken
      cases taken

end Steps

/-! ## kill -/

/-- What `kill` leaves of the entry it finds. -/
def Proc.hit (p : Proc) : Proc :=
  { p with
    killed := true
    state := if p.state = .sleeping then .runnable else p.state }

theorem target_spec {t : Table} {pid : Nat} {s : Slot} (found : target t pid = some s) :
    (t.proc s).pid = pid := by
  simpa using List.find?_some found

theorem target_none {t : Table} {pid : Nat} (missing : target t pid = none) (s : Slot) :
    (t.proc s).pid ≠ pid := by
  simpa using List.find?_eq_none.mp missing s (List.mem_finRange s)

/-- The process with the pid is the only entry that changes. -/
theorem kill_used {t : Table} (right : Numbered t) {s : Slot} (used : (t.proc s).state ≠ .unused) :
    kill t (t.proc s).pid = (t.set s (t.proc s).hit, 0) := by
  have some_pid : (t.proc s).pid ≠ 0 := right.given s (by simp [Table.marks, Proc.mark, used])
  rcases hit : target t (t.proc s).pid with _ | r
  · exact absurd rfl (target_none hit s)
  · obtain rfl : s = r := right.distinct s r (target_spec hit).symm some_pid
    simp only [kill, hit]
    rfl

/-- A pid that no entry has. -/
theorem sysKill_missing {t : Table} {pid : Int} (missing : ∀ s, ((t.proc s).pid : Int) ≠ pid) :
    sysKill t pid = (t, -1) := by
  match pid with
  | .negSucc _ => rfl
  | .ofNat pid =>
    rcases hit : target t pid with _ | s
    · simp only [sysKill, kill, hit]
    · exact absurd (congrArg Int.ofNat (target_spec hit)) (missing s)

/-- Init forks and kills its child. -/
def killedChild : List Event := [.schedule 0, .fork 0 true .done]

end BasicOS.Ptable
