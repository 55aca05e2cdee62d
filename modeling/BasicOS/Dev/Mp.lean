/-
# BasicOS.Dev.Mp — the MP configuration table

`mpinit` walks over the entries of the table that the firmware left.  What each
entry takes depends on its type, and the cursor moves inside the `switch`.  The
`break` of the last branch leaves only the `switch`: at an entry of an unknown
type the loop stays where it is for ever, and the panic after it is not reached.

`mpinit_ends` is what the walk does otherwise.
-/
import BasicOS.Lib.Bytes

namespace BasicOS.Mp

open Function Lib

set_option autoImplicit false

/-! ## The code -/

abbrev ncpuMax : Nat := 8
abbrev mpconfSize : Nat := 44
abbrev mpprocSize : Nat := 20
abbrev mpioapicSize : Nat := 8

/-- `sum`: as the low byte of an int. -/
def sum (addr : Bytes) (len : Nat) : UInt8 :=
  UInt8.ofNat ((List.range len).map fun i => (addr i).toNat).sum

/-- `conf->length`. -/
def length (conf : Bytes) : Nat :=
  (conf.get16 4).toNat

/-- The tests that `mpconfig` makes on a table: `PCMP`, the version and the checksum. -/
def mpconfig (conf : Bytes) : Bool :=
  conf.slice 0 4 == [0x50, 0x43, 0x4D, 0x50] && (conf 6 == 1 || conf 6 == 4) &&
    sum conf (length conf) == 0

/-- What `mpinit` sets. -/
structure Machine where
  ncpu : Nat
  apicid : Nat → UInt8
  ioapicid : UInt8
  lapic : UInt32
  ismp : Bool

/-- A processor entry, if there is room for it. -/
def Machine.addCpu (s : Machine) (apicid : UInt8) : Machine :=
  if s.ncpu < ncpuMax then { s with apicid := update s.apicid s.ncpu apicid, ncpu := s.ncpu + 1 }
  else s

/-- The loop of `mpinit` from `p` on; `none` if it has not ended after so many turns. -/
def scan (conf : Bytes) (e : Nat) : Nat → Nat → Machine → Option Machine
  | 0, _, _ => none
  | fuel + 1, p, s =>
    if p < e then
      match (conf p).toNat with
      | 0 => scan conf e fuel (p + mpprocSize) (s.addCpu (conf (p + 1)))
      | 2 => scan conf e fuel (p + mpioapicSize) { s with ioapicid := conf (p + 1) }
      | 1 | 3 | 4 => scan conf e fuel (p + 8) s
      | _ => scan conf e fuel p { s with ismp := false }
    else some s

/-- Before the loop. -/
def Machine.boot (conf : Bytes) : Machine where
  ncpu := 0
  apicid := fun _ => 0
  ioapicid := 0
  lapic := conf.get32 36
  ismp := true

def mpinit (conf : Bytes) (fuel : Nat) : Option (Except String Machine) :=
  if mpconfig conf then
    (scan conf (length conf) fuel mpconfSize (.boot conf)).map fun s =>
      if s.ismp then .ok s else .error "Didn't find a suitable machine"
  else some (.error "Expect to run on an SMP")

/-! ## Entries -/

/-- The size of an entry of a type. -/
def size (type : Nat) : Option Nat :=
  match type with
  | 0 => some mpprocSize
  | 1 | 2 | 3 | 4 => some 8
  | _ => none

/-- The entries from `p` on begin at the offsets `ps`. -/
inductive Entries (conf : Bytes) (e : Nat) : Nat → List Nat → Prop
  | nil {p : Nat} (past : e ≤ p) : Entries conf e p []
  | cons {p n : Nat} {ps : List Nat} (inside : p < e) (known : size (conf p).toNat = some n)
      (rest : Entries conf e (p + n) ps) : Entries conf e p (p :: ps)

/-- Among the entries from `p` on there is one of an unknown type. -/
inductive Unknown (conf : Bytes) (e : Nat) : Nat → Prop
  | here {p : Nat} (inside : p < e) (unknown : size (conf p).toNat = none) : Unknown conf e p
  | later {p n : Nat} (inside : p < e) (known : size (conf p).toNat = some n)
      (rest : Unknown conf e (p + n)) : Unknown conf e p

/-- The apicids of the processors among the entries. -/
def processors (conf : Bytes) (ps : List Nat) : List UInt8 :=
  (ps.filter fun p => (conf p).toNat = 0).map fun p => conf (p + 1)

variable {conf : Bytes} {e p : Nat}

theorem size_pos {type n : Nat} (known : size type = some n) : 0 < n := by
  unfold size at known
  split at known <;> cases known <;> decide

theorem Entries.known {ps : List Nat} (entries : Entries conf e p ps) : ¬ Unknown conf e p := by
  induction entries with
  | nil past =>
    intro unknown
    cases unknown <;> omega
  | cons inside known rest ih =>
    intro unknown
    cases unknown with
    | here _ unknown => exact nomatch known.symm.trans unknown
    | later _ known' later =>
      obtain rfl := Option.some.inj (known.symm.trans known')
      exact ih later

theorem entries_of_known (known : ¬ Unknown conf e p) : ∃ ps, Entries conf e p ps := by
  induction left : e - p using Nat.strongRecOn generalizing p with
  | ind n ih =>
    by_cases inside : p < e
    · cases here : size (conf p).toNat with
      | none => exact absurd (.here inside here) known
      | some n =>
        have pos := size_pos here
        obtain ⟨ps, rest⟩ := ih (e - (p + n)) (by omega) (fun later => known (.later inside here later)) rfl
        exact ⟨p :: ps, .cons inside here rest⟩
    · exact ⟨[], .nil (Nat.le_of_not_lt inside)⟩

/-- What an entry of a known type does to the machine. -/
def Machine.entry (conf : Bytes) (s : Machine) (p : Nat) : Machine :=
  match (conf p).toNat with
  | 0 => s.addCpu (conf (p + 1))
  | 2 => { s with ioapicid := conf (p + 1) }
  | _ => s

theorem scan_inside {fuel : Nat} {s : Machine} (inside : p < e) : scan conf e (fuel + 1) p s =
    match (conf p).toNat with
    | 0 => scan conf e fuel (p + mpprocSize) (s.addCpu (conf (p + 1)))
    | 2 => scan conf e fuel (p + mpioapicSize) { s with ioapicid := conf (p + 1) }
    | 1 | 3 | 4 => scan conf e fuel (p + 8) s
    | _ => scan conf e fuel p { s with ismp := false } :=
  if_pos inside

theorem scan_known {n fuel : Nat} {s : Machine} (inside : p < e) (known : size (conf p).toNat = some n) :
    scan conf e (fuel + 1) p s = scan conf e fuel (p + n) (s.entry conf p) := by
  rw [scan_inside inside]
  unfold Machine.entry
  unfold size at known
  split at known
  case h_6 => cases known
  all_goals
    rename_i type
    cases known
    simp only [type]

/-- At an unknown entry the loop does not move. -/
theorem scan_unknown {fuel : Nat} {s : Machine} (inside : p < e) (unknown : size (conf p).toNat = none) :
    scan conf e (fuel + 1) p s = scan conf e fuel p { s with ismp := false } := by
  rw [scan_inside inside]
  unfold size at unknown
  split at unknown
  case h_6 => split <;> simp_all
  all_goals cases unknown

/-- An unknown entry is not left any more. -/
theorem scan_stuck (unknown : Unknown conf e p) (fuel : Nat) (s : Machine) :
    scan conf e fuel p s = none := by
  induction fuel generalizing p s with
  | zero => rfl
  | succ fuel ih =>
    cases unknown with
    | here inside unknown =>
      rw [scan_unknown inside unknown]
      exact ih (.here inside unknown) _
    | later inside known rest =>
      rw [scan_known inside known]
      exact ih rest _

theorem scan_entries {ps : List Nat} (entries : Entries conf e p ps) (s : Machine) :
    scan conf e (ps.length + 1) p s = some (ps.foldl (Machine.entry conf) s) := by
  induction entries generalizing s with
  | nil past =>
    unfold scan
    rw [if_neg (Nat.not_lt.mpr past)]
    rfl
  | cons inside known rest ih =>
    rw [List.length_cons, scan_known inside known, ih]
    rfl

/-- The machine has the processors of `cpus` besides those of `s`, as far as there is
room. -/
structure Counted (s : Machine) (cpus : List UInt8) (s' : Machine) : Prop where
  ismp : s'.ismp = s.ismp
  ncpu : s'.ncpu = min ncpuMax (s.ncpu + cpus.length)
  apicid : ∀ i < s'.ncpu, s'.apicid i = if i < s.ncpu then s.apicid i else cpus.getD (i - s.ncpu) 0

theorem Counted.nil {s : Machine} (room : s.ncpu ≤ ncpuMax) : Counted s [] s :=
  ⟨rfl, (Nat.min_eq_right room).symm, fun _ less => (if_pos less).symm⟩

theorem Counted.addCpu {s s' : Machine} {id : UInt8} {cpus : List UInt8} (room : s.ncpu ≤ ncpuMax)
    (rest : Counted (s.addCpu id) cpus s') : Counted s (id :: cpus) s' := by
  unfold Machine.addCpu at rest
  split at rest
  · refine ⟨rest.ismp, ?_, fun i less => ?_⟩
    · rw [rest.ncpu, List.length_cons]
      congr 1
      dsimp only
      omega
    · rw [rest.apicid i less]
      dsimp only
      by_cases old : i < s.ncpu
      · rw [if_pos (by omega), if_pos old, update_of_ne (by omega)]
      · rw [if_neg old]
        by_cases here : i = s.ncpu
        · rw [if_pos (by omega), here, update_self, Nat.sub_self, List.getD_cons_zero]
        · rw [if_neg (by omega), show i - s.ncpu = i - (s.ncpu + 1) + 1 by omega, List.getD_cons_succ]
  · -- there is no room for it
    have full : s.ncpu = ncpuMax := by omega
    have ncpu : s'.ncpu = ncpuMax := by
      rw [rest.ncpu]
      omega
    refine ⟨rest.ismp, by rw [ncpu]; omega, fun i less => ?_⟩
    rw [rest.apicid i less, if_pos (by omega), if_pos (by omega)]

theorem processors_cons (ps : List Nat) : processors conf (p :: ps) =
    if (conf p).toNat = 0 then conf (p + 1) :: processors conf ps else processors conf ps := by
  unfold processors
  rw [List.filter_cons]
  by_cases cpu : (conf p).toNat = 0 <;> simp [cpu]

theorem entry_cpu (s : Machine) (cpu : (conf p).toNat = 0) :
    s.entry conf p = s.addCpu (conf (p + 1)) := by
  simp only [Machine.entry, cpu]

theorem entry_other (s : Machine) (other : (conf p).toNat ≠ 0) : (s.entry conf p).ncpu = s.ncpu ∧
    (s.entry conf p).apicid = s.apicid ∧ (s.entry conf p).ismp = s.ismp := by
  unfold Machine.entry
  split
  · exact absurd ‹_› other
  · exact ⟨rfl, rfl, rfl⟩
  · exact ⟨rfl, rfl, rfl⟩

theorem addCpu_room {s : Machine} (id : UInt8) (room : s.ncpu ≤ ncpuMax) :
    (s.addCpu id).ncpu ≤ ncpuMax := by
  unfold Machine.addCpu
  split
  · assumption
  · exact room

theorem counted_entries (conf : Bytes) {s : Machine} (ps : List Nat) (room : s.ncpu ≤ ncpuMax) :
    Counted s (processors conf ps) (ps.foldl (Machine.entry conf) s) := by
  induction ps generalizing s with
  | nil => exact .nil room
  | cons p ps ih =>
    rw [List.foldl_cons, processors_cons]
    by_cases cpu : (conf p).toNat = 0
    · rw [if_pos cpu, entry_cpu s cpu]
      exact .addCpu room (ih (addCpu_room _ room))
    · obtain ⟨ncpu, apicid, ismp⟩ := entry_other s cpu
      have counted := ih (s := s.entry conf p) (by rw [ncpu]; exact room)
      rw [if_neg cpu]
      refine ⟨counted.ismp.trans ismp, by rw [counted.ncpu, ncpu], fun i less => ?_⟩
      rw [counted.apicid i less, ncpu, apicid]

/-- Without an unknown entry the walk ends: the first processors have been entered, in
order, and there is no panic. -/
theorem mpinit_ends (accepted : mpconfig conf = true) (known : ¬ Unknown conf (length conf) mpconfSize) :
    ∃ ps, Entries conf (length conf) mpconfSize ps ∧ ∃ fuel s, mpinit conf fuel = some (.ok s) ∧
      s.ncpu = min ncpuMax (processors conf ps).length ∧
      ∀ i < s.ncpu, s.apicid i = (processors conf ps).getD i 0 := by
  obtain ⟨ps, entries⟩ := entries_of_known known
  have counted := counted_entries conf (s := .boot conf) ps (Nat.zero_le _)
  refine ⟨ps, entries, ps.length + 1, ps.foldl (Machine.entry conf) (.boot conf), ?_, ?_, fun i less => ?_⟩
  · have smp : (ps.foldl (Machine.entry conf) (.boot conf)).ismp = true := counted.ismp
    unfold mpinit
    rw [if_pos accepted, scan_entries entries, Option.map_some, if_pos smp]
  · rw [counted.ncpu]
    exact congrArg (min ncpuMax) (Nat.zero_add _)
  · rw [counted.apicid i less]
    exact if_neg (Nat.not_lt_zero i)

/-- Two processors and a bus. -/
def twoCpus : Bytes :=
  Bytes.ofList ([0x50, 0x43, 0x4D, 0x50, 92, 0, 4, 103] ++ List.replicate 36 0 ++
    ([0, 3] ++ List.replicate 18 0) ++ ([0, 5] ++ List.replicate 18 0) ++ [1, 0, 0, 0, 0, 0, 0, 0])

theorem twoCpus_entries : Entries twoCpus (length twoCpus) mpconfSize [44, 64, 84] :=
  .cons (by decide) rfl (.cons (by decide) rfl (.cons (by decide) rfl (.nil (by decide))))

theorem mpinit_twoCpus : ∃ ps, Entries twoCpus (length twoCpus) mpconfSize ps ∧
    ∃ fuel s, mpinit twoCpus fuel = some (.ok s) ∧
      s.ncpu = min ncpuMax (processors twoCpus ps).length ∧
      ∀ i < s.ncpu, s.apicid i = (processors twoCpus ps).getD i 0 :=
  mpinit_ends (by decide +kernel) twoCpus_entries.known

/-- An entry of type 5, and nothing else. -/
def oddEntry : Bytes :=
  Bytes.ofList ([0x50, 0x43, 0x4D, 0x50, 45, 0, 4, 154] ++ List.replicate 36 0 ++ [5])

/-- The table is accepted, and the loop does not end. -/
theorem oddEntry_endless : mpconfig oddEntry = true ∧ ∀ fuel, mpinit oddEntry fuel = none := by
  have accepted : mpconfig oddEntry = true := by decide
  refine ⟨accepted, fun fuel => ?_⟩
  unfold mpinit
  rw [if_pos accepted, scan_stuck (.here (by decide) rfl)]
  rfl

end BasicOS.Mp
