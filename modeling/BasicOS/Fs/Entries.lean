/-
# BasicOS.Fs.Entries — a directory as a table of names

What the loops over a directory file do to it as a table of slots.  A name is
memory; the kernel reads it up to its first zero byte, and fourteen bytes at
most (`nameKey`).  `namecmp` compares keys, and `strncpy` keeps them, so an
entry on disk is a free slot or a key with an inode number.

The lookup returns the first slot with the key, `dirlink` fills the first free
slot or grows the directory by one, and zeroing an entry frees its slot.
-/
import BasicOS.Fs.Reads
import BasicOS.Fs.Waits
import BasicOS.Lib.Slots

namespace BasicOS

open Lib Function
open Lib.Prog

set_option autoImplicit false

/-! ## Names -/

/-- The bytes of `s` from `i` on up to the first zero, `n` at most. -/
def strKey (s : Bytes) : Nat → Nat → List UInt8
  | 0, _ => []
  | n + 1, i => if s i = 0 then [] else s i :: strKey s n (i + 1)

/-- What the kernel sees of a name. -/
def nameKey (name : Bytes) : List UInt8 :=
  strKey name dirsiz 0

theorem strncmpEq_iff_strKey (s t : Bytes) (n i : Nat) :
    strncmpEq s t n i = true ↔ strKey s n i = strKey t n i := by
  induction n generalizing i with
  | zero => simp [strncmpEq, strKey]
  | succ n ih =>
    unfold strncmpEq strKey
    by_cases ended : s i = 0
    · by_cases ended' : t i = 0
      · simp [ended, ended']
      · simp [ended, ended', Ne.symm ended']
    · by_cases ended' : t i = 0
      · simp [ended, ended']
      · by_cases same : s i = t i
        · rw [if_pos ⟨ended, same⟩, ih, if_neg ended, if_neg ended', same]
          simp
        · simp [ended, ended', same]

/-- Two names are the same to the kernel when it sees the same of them. -/
theorem namecmp_iff_nameKey (s t : Bytes) : namecmp s t = true ↔ nameKey s = nameKey t :=
  strncmpEq_iff_strKey s t dirsiz 0

theorem strKey_congr {s t : Bytes} {n i : Nat} (same : ∀ j, i ≤ j → j < i + n → s j = t j) :
    strKey s n i = strKey t n i := by
  induction n generalizing i with
  | zero => rfl
  | succ n ih =>
    unfold strKey
    rw [same i (Nat.le_refl i) (by omega),
      ih fun j low high => same j (by omega) (by omega)]

theorem strKey_strncpy {t : Bytes} {n i : Nat} (before : ∀ j < i, t j ≠ 0) :
    strKey (strncpy t) n i = strKey t n i := by
  induction n generalizing i with
  | zero => rfl
  | succ n ih =>
    have here : strncpy t i = t i := by
      unfold strncpy
      rw [if_neg]
      simpa using before
    unfold strKey
    rw [here]
    by_cases ended : t i = 0
    · rw [if_pos ended, if_pos ended]
    · rw [if_neg ended, if_neg ended, ih fun j lower => ?_]
      rcases Nat.lt_succ_iff_lt_or_eq.mp lower with earlier | rfl
      · exact before j earlier
      · exact ended

theorem nameKey_strncpy (name : Bytes) : nameKey (strncpy name) = nameKey name :=
  strKey_strncpy fun j lower => absurd lower (Nat.not_lt_zero j)

/-! ## Entries -/

/-- What an entry says: nothing if its inode number is zero. -/
def slotOf (de : Bytes) : Option (List UInt8 × UInt16) :=
  if de.get16 0 = 0 then none else some (nameKey (de.drop 2), de.get16 0)

theorem slotOf_congr {de de' : Bytes} (same : ∀ j < direntSize, de j = de' j) :
    slotOf de = slotOf de' := by
  have number : de.get16 0 = de'.get16 0 :=
    Bytes.get16_congr fun c small => by
      rw [Nat.zero_add]
      exact same c (by simp only [direntSize, dirsiz]; omega)
  have name : nameKey (de.drop 2) = nameKey (de'.drop 2) :=
    strKey_congr fun j _ high => same (2 + j) (by simp only [direntSize, dirsiz] at *; omega)
  unfold slotOf
  rw [number, name]

theorem slotOf_zero : slotOf (fun _ => 0) = none := rfl

theorem slotOf_dirent (inum : UInt16) (name : Bytes) :
    slotOf (dirent inum name) = if inum = 0 then none else some (nameKey name, inum) := by
  have number : (dirent inum name).get16 0 = inum :=
    Bytes.get16_of_bytes fun c small => by
      rw [Nat.zero_add, dirent, if_pos small]
  have rest : (dirent inum name).drop 2 = strncpy name := by
    funext j
    show dirent inum name (2 + j) = _
    rw [dirent, if_neg (by omega), Nat.add_sub_cancel_left]
  unfold slotOf
  rw [number, rest, nameKey_strncpy]

/-- An entry has the name when its slot has the name's key. -/
theorem namedBy_iff {name de : Bytes} :
    NamedBy name de ↔ slotOf de = some (nameKey name, de.get16 0) := by
  unfold NamedBy slotOf
  rw [namecmp_iff_nameKey]
  by_cases free : de.get16 0 = 0
  · simp [free]
  · simp [free, eq_comm]

theorem slotOf_eq_some {de : Bytes} {key : List UInt8} {v : UInt16}
    (holds : slotOf de = some (key, v)) : de.get16 0 = v := by
  unfold slotOf at holds
  split at holds
  · cases holds
  · simp only [Option.some.injEq, Prod.mk.injEq] at holds
    exact holds.2

/-- A slot that is not free leads to an inode. -/
theorem slotOf_pos {de : Bytes} {key : List UInt8} {v : UInt16}
    (holds : slotOf de = some (key, v)) : 0 < v.toNat := by
  rw [← slotOf_eq_some holds]
  unfold slotOf at holds
  split at holds
  · cases holds
  · next used =>
      apply Nat.pos_of_ne_zero
      intro zero
      exact used (UInt16.toNat_inj.mp zero)

/-- The table of directory `d`. -/
def Kernel.entries (k : Kernel) (d : Nat) : Slots (List UInt8) UInt16 :=
  ⟨k.size d / direntSize, fun e => slotOf (k.direntAt d e)⟩

/-- A locked directory, in whole entries. -/
structure Directory (dp : IPtr) (k : Kernel) : Prop where
  ok : k.Ok
  held : (k.icache dp).locked = true
  dir : (k.icache dp).dinode.type = tDir
  whole : k.size (k.icache dp).inum % direntSize = 0

section

variable {k k' k'' : Kernel} {p dp : IPtr}

theorem Directory.area (here : Directory dp k) : (k.icache dp).inum < k.sb.icap := by
  obtain ⟨used, valid⟩ := here.ok.locked dp here.held
  exact (here.ok.cache dp used valid).1

theorem Directory.size_eq (here : Directory dp k) :
    (k.icache dp).dinode.size.toNat = k.size (k.icache dp).inum := by
  obtain ⟨used, valid⟩ := here.ok.locked dp here.held
  rw [(here.ok.cache dp used valid).2.1]
  rfl

theorem Directory.len (here : Directory dp k) :
    direntSize * (k.entries (k.icache dp).inum).len = k.size (k.icache dp).inum :=
  Nat.mul_div_cancel' (Nat.dvd_of_mod_eq_zero here.whole)

theorem entries_congr {d : Nat} (size : k'.size d = k.size d)
    (content : k'.content d = k.content d) : k'.entries d = k.entries d := by
  unfold Kernel.entries Kernel.direntAt
  rw [size, content]

theorem Quiet.entries (quiet : Quiet k k') {d : Nat} (area : d < k.sb.icap) :
    k'.entries d = k.entries d :=
  entries_congr (quiet.size area) (quiet.content d)

theorem Directory.quiet (here : Directory dp k) (quiet : Quiet k k') : Directory dp k' := by
  refine ⟨quiet.ok, ?_, ?_, ?_⟩
  · rw [quiet.icache]
    exact here.held
  · rw [quiet.icache]
    exact here.dir
  · rw [quiet.icache, quiet.size here.area]
    exact here.whole

/-! ## Taking a cache entry -/

section Got

variable {i : Nat} (got : Got i p k k')

include got

theorem Got.content : k'.content = k.content := by
  rw [got.state]
  rfl

theorem Got.disk : k'.disk = k.disk := by
  rw [got.state]
  rfl

/-- An entry that was in use changes in its count at most. -/
theorem Got.used {q : IPtr} (used : 0 < (k.icache q).ref) :
    ∃ ref, k'.icache q = { k.icache q with ref } := by
  by_cases here : q = p
  · subst here
    refine ⟨(k.icache q).ref + 1, ?_⟩
    rw [got.state, Kernel.icache_setInode, update_self, if_pos used]
  · exact ⟨(k.icache q).ref, got.others here⟩

theorem Got.directory (here : Directory dp k) : Directory dp k' := by
  obtain ⟨ref, same⟩ := got.used (here.ok.locked dp here.held).1
  refine ⟨(got.sound here.ok).ok, ?_, ?_, ?_⟩
  · rw [same]
    exact here.held
  · rw [same]
    exact here.dir
  · rw [same, Kernel.size, got.disk]
    exact here.whole

theorem Got.entries (d : Nat) : k'.entries d = k.entries d :=
  entries_congr (by rw [Kernel.size, got.disk, Kernel.size]) (congrFun got.content d)

end Got

/-! ## Reading entries -/

/-- Reading: as `Quiet`, in the transaction it was in. -/
structure Peek (k k' : Kernel) : Prop extends Quiet k k' where
  outstanding : k'.log.outstanding = k.log.outstanding

theorem Peek.refl (ok : k.Ok) : Peek k k :=
  ⟨Quiet.refl ok, rfl⟩

theorem Peek.trans (first : Peek k k') (second : Peek k' k'') : Peek k k'' :=
  ⟨first.toQuiet.trans second.toQuiet, second.outstanding.trans first.outstanding⟩

theorem readDirent_entry (here : Directory dp k) {e : Nat}
    (inside : e < (k.entries (k.icache dp).inum).len) (message : Panic) :
    wp (readDirent dp (direntSize * e) message)
      (fun de k' => Peek k k' ∧ de = k.direntAt (k.icache dp).inum e)
      (Spent k.log.outstanding) k := by
  have width : k.size (k.icache dp).inum < 2 ^ 32 := (k.disk _).size.toNat_lt
  have below : direntSize * e + direntSize ≤ k.size (k.icache dp).inum := by
    rw [← here.len]
    exact Nat.mul_le_mul_left direntSize inside
  have off : (UInt32.ofNat (direntSize * e)).toNat = direntSize * e := by
    rw [UInt32.toNat_ofNat']
    refine Nat.mod_eq_of_lt ?_
    simp only [direntSize, dirsiz] at *
    omega
  have length : (UInt32.ofNat direntSize).toNat = direntSize := rfl
  -- what `readi` returns here: neither -1 nor a device
  have returns : wp (readi dp (UInt32.ofNat (direntSize * e)) (UInt32.ofNat direntSize))
      (fun r _ => ∃ data, r = .done data) (fun _ => True) k := by
    refine wp_congr (readi_eq here.ok here.held _ _ (by rw [here.dir]; decide)
      (by rw [off]; omega) (by
        rw [off, length]
        simp only [direntSize, dirsiz] at *
        omega)) ?_
    rw [wp_bind]
    exact wp_any fun data _ => ⟨data, rfl⟩
  have read := wp_and (wp_and (readi_spec here.ok here.held
    (UInt32.ofNat (direntSize * e)) (UInt32.ofNat direntSize)) ((readi_calm dp _ _).spent k))
    returns
  unfold readDirent
  rw [wp_bind]
  refine wp_mono read ?_ ?_
  · rintro r k' ⟨⟨⟨quiet, outcome⟩, same⟩, data, rfl⟩
    obtain ⟨-, rfl⟩ := outcome
    rw [off, length, show min direntSize (k.size (k.icache dp).inum - direntSize * e) = direntSize
      by omega]
    refine wp_ite (fun _ => ⟨⟨quiet, same⟩, rfl⟩) fun short => ?_
    exact absurd (Bytes.length_slice _ _ _) short
  · rintro e ⟨⟨-, spent⟩, -⟩
    exact spent

/-- What a lookup of the name finds: the first slot with its key. -/
def Found (k : Kernel) (dp : IPtr) (name : Bytes) : Option (IPtr × Nat) → Kernel → Prop
  | none, k' => Peek k k' ∧ ∀ v, ¬ (k.entries (k.icache dp).inum).Binds (nameKey name) v
  | some (p, off), k' => ∃ k₁ e v, Peek k k₁ ∧ off = direntSize * e ∧
      (k.entries (k.icache dp).inum).First e (nameKey name) v ∧ Got v.toNat p k₁ k'

/-- Why a lookup may stop. -/
def LookupStop (k : Kernel) (e : Stop) : Prop :=
  Spent k.log.outstanding e ∨ e = .panic "iget: no inodes" ∧ ∀ q, 0 < (k.icache q).ref

/-- What follows from a state that reading has led to, for the state before. -/
theorem LookupStop.of_peek (peek : Peek k k') {e : Stop} (stop : LookupStop k' e) :
    LookupStop k e := by
  unfold LookupStop at stop ⊢
  rwa [peek.outstanding, peek.icache] at stop

/-- A loop over the entries: it stops at the first that meets a condition, or at the end.  What
reading an entry leaves is in `R`. -/
theorem scan_wp {α : Type} {L : Nat → Fs α} {C : Bytes → Prop} [DecidablePred C]
    {X : Nat → Bytes → Fs α} {ended : Nat → Fs α} {size len e : Nat} {message : Panic}
    {R : Kernel → Prop} {d : Nat → Bytes} {Q : α → Kernel → Prop} {E : Stop → Prop}
    (loop : ∀ off, L off = if off < size then
      readDirent dp off message >>= fun de => if C de then X off de else L (off + direntSize)
      else ended off) (whole : direntSize * len = size)
    (reads : ∀ j < len, ∀ k, R k → wp (readDirent dp (direntSize * j) message)
      (fun de k' => R k' ∧ de = d j) E k)
    (hit : ∀ f < len, e ≤ f → (∀ j, e ≤ j → j < f → ¬ C (d j)) → C (d f) → ∀ k, R k →
      wp (X (direntSize * f) (d f)) Q E k)
    (past : (∀ j, e ≤ j → j < len → ¬ C (d j)) → ∀ k, R k →
      wp (ended (direntSize * len)) Q E k)
    (near : e ≤ len) (start : R k) : wp (L (direntSize * e)) Q E k := by
  subst whole
  -- `f` entries have been read, and none has met the condition
  suffices walk : ∀ f k, R k → e ≤ f → f ≤ len → (∀ j, e ≤ j → j < f → ¬ C (d j)) →
      wp (L (direntSize * f)) Q E k from
    walk e k start (Nat.le_refl e) near fun j low high => by omega
  intro f
  induction left : len - f generalizing f with
  | zero =>
    intro k at_k _ _ none_met
    obtain rfl : f = len := by omega
    rw [loop, if_neg (Nat.lt_irrefl _)]
    exact past none_met k at_k
  | succ left ih =>
    intro k at_k low _ none_met
    have inside : f < len := by omega
    rw [loop, if_pos (Nat.mul_lt_mul_of_pos_left inside (by decide))]
    refine wp_seq (reads f inside k at_k) ?_
    rintro _ k₁ ⟨at_k₁, rfl⟩
    refine wp_ite (fun met => hit f inside low none_met met k₁ at_k₁) fun other => ?_
    refine ih (f + 1) (by omega) k₁ at_k₁ (by omega) inside fun j low high => ?_
    rcases Nat.lt_succ_iff_lt_or_eq.mp high with earlier | rfl
    · exact none_met j low earlier
    · exact other

theorem Directory.reads (here : Directory dp k) (message : Panic) {e : Nat}
    (inside : e < (k.entries (k.icache dp).inum).len) (peek : Peek k k') :
    wp (readDirent dp (direntSize * e) message)
      (fun de k'' => Peek k k'' ∧ de = k.direntAt (k.icache dp).inum e)
      (Spent k.log.outstanding) k' := by
  have entry := readDirent_entry (here.quiet peek.toQuiet) (e := e) (by
    rw [peek.icache, peek.toQuiet.entries here.area]
    exact inside) message
  rw [peek.icache, peek.outstanding] at entry
  refine wp_post entry ?_
  rintro _ k'' ⟨later, rfl⟩
  refine ⟨peek.trans later, ?_⟩
  rw [Kernel.direntAt, peek.content, Kernel.direntAt]

theorem dirlookupLoop_found (here : Directory dp k) (name : Bytes) :
    wp (dirlookupLoop dp name (k.size (k.icache dp).inum) 0) (Found k dp name)
      (LookupStop k) k := by
  refine scan_wp (R := Peek k) (d := k.direntAt (k.icache dp).inum) (e := 0)
    (dirlookupLoop.eq_def dp name _) here.len (fun j inside k₁ peek => ?_)
    (fun f inside _ before named k₁ peek => ?_) (fun absent k₁ peek => ?_) (Nat.zero_le _)
    (Peek.refl here.ok)
  · exact wp_mono (here.reads _ inside peek) (fun _ _ => id) fun _ => .inl
  · rw [wp_bind]
    refine wp_mono (iget_got k₁ _) (fun p k₂ got => ?_) fun e full => ?_
    · refine ⟨k₁, f, _, peek, rfl, ⟨⟨inside, namedBy_iff.mp named⟩, fun j lower v holds => ?_⟩, got⟩
      have number := slotOf_eq_some holds.2
      exact before j (Nat.zero_le j) lower (namedBy_iff.mpr (by rw [number]; exact holds.2))
    · exact LookupStop.of_peek peek (.inr full)
  · refine ⟨peek, ?_⟩
    rintro v ⟨j, inside, holds⟩
    have number := slotOf_eq_some holds
    exact absent j (Nat.zero_le j) inside (namedBy_iff.mpr (by rw [number]; exact holds))

/-- **Lookup**: the first slot with the key of the name, or none has it. -/
theorem dirlookup_found (here : Directory dp k) (name : Bytes) :
    wp (dirlookup dp name) (Found k dp name) (LookupStop k) k := by
  unfold dirlookup
  simp only [wp_bind, wp_get]
  rw [if_neg (not_not.mpr here.dir), here.size_eq]
  exact dirlookupLoop_found here name

/-- The scan of `dirlink` ends at the first free slot. -/
theorem dirSlot_free (here : Directory dp k) :
    wp (dirSlot dp (k.size (k.icache dp).inum) 0)
      (fun off k' => Peek k k' ∧ ∃ f, off = direntSize * f ∧
        (k.entries (k.icache dp).inum).Free f ∧
        ∀ j < f, (k.entries (k.icache dp).inum).cell j ≠ none)
      (Spent k.log.outstanding) k := by
  have taken : ∀ {j}, ¬ (k.direntAt (k.icache dp).inum j).get16 0 = 0 →
      (k.entries (k.icache dp).inum).cell j ≠ none := by
    intro j used
    show slotOf _ ≠ none
    rw [slotOf, if_neg used]
    exact Option.some_ne_none _
  refine scan_wp (R := Peek k) (e := 0) (dirSlot.eq_def dp _) here.len
    (fun j inside k₁ => here.reads _ inside) (fun f inside _ used unused k₁ peek => ?_)
    (fun used k₁ peek => ?_) (Nat.zero_le _) (Peek.refl here.ok)
  · exact ⟨peek, f, rfl, .inl ⟨inside, if_pos unused⟩,
      fun j lower => taken (used j (Nat.zero_le j) lower)⟩
  · exact ⟨peek, _, rfl, .inr rfl, fun j lower => taken (used j (Nat.zero_le j) lower)⟩

/-! ## Writing entries -/

/-- A write after some reading is a write from the start. -/
theorem Peek.stored (peek : Peek k k') {src : Bytes} {off n : Nat}
    (stored : Stored p src off n k' k'') (area : (k.icache p).inum < k.sb.icap) :
    Stored p src off n k k'' := by
  obtain ⟨ok, sb, others, inode, disk, size, content, keeps, there, outstanding, marks⟩ := stored
  rw [peek.icache] at inode disk size content there
  rw [peek.sb] at disk
  refine ⟨ok, sb.trans peek.sb, fun q other => ?_, inode, fun i inside other => ?_, ?_, ?_,
    fun i q old => ?_, there, outstanding.trans peek.outstanding,
    peek.marks.trans marks peek.sb keeps⟩
  · rw [others q other, peek.icache]
  · rw [disk i inside other, peek.disk i inside]
  · rw [size, peek.toQuiet.size area]
  · rw [content, funext peek.content]
  · have kept := peek.keeps i q old
    rw [keeps i q (kept ▸ old), kept]

/-- The table after an entry has been written. -/
theorem Stored.entries {de : Bytes} {e : Nat} (here : Directory dp k)
    (near : e ≤ (k.entries (k.icache dp).inum).len)
    (stored : Stored dp de (direntSize * e) direntSize k k') :
    k'.entries (k.icache dp).inum = (k.entries (k.icache dp).inum).put e (slotOf de) := by
  have whole := here.len
  refine Slots.ext ?_ ?_
  · show k'.size (k.icache dp).inum / direntSize = _
    rw [stored.size, ← whole, Slots.put]
    simp only [direntSize, dirsiz] at *
    omega
  · funext j
    have bytes : ∀ c < direntSize, k'.direntAt (k.icache dp).inum j c =
        if j = e then de c else k.direntAt (k.icache dp).inum j c := by
      intro c small
      have reads : ∀ m : Bytes, Bytes.ofList (m.slice (direntSize * j) direntSize) c =
          m (direntSize * j + c) := by
        intro m
        unfold Bytes.ofList
        rw [List.getD_eq_getElem _ _ (by rw [Bytes.length_slice]; exact small),
          Bytes.getElem_slice]
      rw [Kernel.direntAt, Kernel.direntAt, reads, reads, stored.content, overwrite_apply]
      by_cases same : j = e
      · subst same
        rw [if_pos ⟨rfl, by omega, by omega⟩, if_pos rfl, Nat.add_sub_cancel_left]
      · rw [if_neg same, if_neg]
        simp only [direntSize, dirsiz] at *
        omega
    show slotOf (k'.direntAt _ j) = update (fun e => slotOf (k.direntAt _ e)) e (slotOf de) j
    by_cases same : j = e
    · subst same
      rw [update_self]
      exact slotOf_congr fun c small => by rw [bytes c small, if_pos rfl]
    · rw [update_of_ne same]
      exact slotOf_congr fun c small => by rw [bytes c small, if_neg same]

theorem Stored.directory {src : Bytes} {e : Nat} (here : Directory dp k)
    (stored : Stored dp src (direntSize * e) direntSize k k') :
    Directory dp k' ∧ (k'.icache dp).inum = (k.icache dp).inum := by
  obtain ⟨size, h, inode⟩ := stored.inode
  have same : (k'.icache dp).inum = (k.icache dp).inum := by rw [inode]
  refine ⟨⟨stored.ok, ?_, ?_, ?_⟩, same⟩
  · rw [inode]
    exact here.held
  · rw [inode]
    exact here.dir
  · rw [same, stored.size, ← here.len]
    simp only [direntSize, dirsiz]
    omega

/-- A directory cannot grow past the largest file. -/
def Kernel.Crowded (k : Kernel) (dp : IPtr) : Prop :=
  maxfile * bsize < k.size (k.icache dp).inum + direntSize

theorem writeDirent_stored (here : Directory dp k) (de : Bytes) {e : Nat}
    (near : e ≤ (k.entries (k.icache dp).inum).len) (message : Panic) :
    wp (writeDirent dp de (direntSize * e) message)
      (fun _ k' => Stored dp de (direntSize * e) direntSize k k')
      (fun x => Spent k.log.outstanding x ∨ x = .panic message ∧ k.Crowded dp) k := by
  have width : k.size (k.icache dp).inum < 2 ^ 32 := (k.disk _).size.toNat_lt
  have low : direntSize * e ≤ k.size (k.icache dp).inum := by
    rw [← here.len]
    exact Nat.mul_le_mul_left direntSize near
  have off : (UInt32.ofNat (direntSize * e)).toNat = direntSize * e := by
    rw [UInt32.toNat_ofNat']
    exact Nat.mod_eq_of_lt (by omega)
  have length : (UInt32.ofNat direntSize).toNat = direntSize := rfl
  have file : (k.icache dp).dinode.type ≠ tDev := by
    rw [here.dir]
    decide
  have within : ¬ UInt32.ofNat (direntSize * e) > (k.icache dp).dinode.size := by
    rw [gt_iff_lt, UInt32.lt_iff_toNat_lt, off, here.size_eq]
    omega
  have most : (UInt32.ofNat (maxfile * bsize)).toNat = maxfile * bsize := rfl
  -- what `writei` returns here
  have returns : wp (writei dp de (UInt32.ofNat (direntSize * e)) (UInt32.ofNat direntSize))
      (fun r _ => r = .done (UInt32.ofNat direntSize) ∨ k.Crowded dp) (fun _ => True) k := by
    unfold writei
    simp only [wp_bind, wp_get]
    rw [if_neg file]
    refine wp_ite (fun wraps => ?_) fun _ => wp_ite (fun long => ?_) fun _ => ?_
    · right
      have wraps' := wraps.resolve_left within
      rw [UInt32.lt_iff_toNat_lt, UInt32.toNat_add, off, length] at wraps'
      simp only [Kernel.Crowded, maxfile, bsize, direntSize, dirsiz] at *
      omega
    · right
      rw [gt_iff_lt, UInt32.lt_iff_toNat_lt, UInt32.toNat_add, off, length, most] at long
      simp only [Kernel.Crowded, maxfile, bsize, direntSize, dirsiz] at *
      omega
    · refine wp_ite (fun _ => .inl rfl) fun _ => ?_
      rw [wp_bind, wp_iff]
      refine ⟨fun _ _ _ => ?_, fun _ _ => trivial⟩
      rw [wp_bind, wp_iff]
      exact ⟨fun _ _ _ => .inl rfl, fun _ _ => trivial⟩
  have written := wp_and (wp_and (writei_spec here.ok here.held de
    (UInt32.ofNat (direntSize * e)) (UInt32.ofNat direntSize)) ((writei_calm dp de _ _).spent k))
    returns
  unfold writeDirent
  refine wp_seq_mono written (fun _ stop => .inl stop.1.2) ?_
  rintro r k' ⟨⟨outcome, -⟩, full⟩
  refine wp_ite (fun done => ?_) fun short => ?_
  · subst done
    obtain ⟨-, -, -, stored⟩ := outcome
    rw [off, length] at stored
    exact stored
  · exact .inr ⟨rfl, full.resolve_left short⟩

/-! ## dirlink and erasing -/

/-- Nothing on the disk has changed: inodes, bytes and chains are as before. -/
structure Still (k k' : Kernel) : Prop where
  ok : k'.Ok
  sb : k'.sb = k.sb
  disk : ∀ i < k.sb.icap, k'.disk i = k.disk i
  content : ∀ i, k'.content i = k.content i
  keeps : ∀ i q, k.block i q ≠ 0 → k'.block i q = k.block i q
  outstanding : k'.log.outstanding = k.log.outstanding

theorem Still.trans (first : Still k k') (second : Still k' k'') : Still k k'' := by
  refine ⟨second.ok, second.sb.trans first.sb, fun i area => ?_,
    fun i => (second.content i).trans (first.content i), fun i q there => ?_,
    second.outstanding.trans first.outstanding⟩
  · rw [second.disk i (first.sb ▸ area), first.disk i area]
  · have kept := first.keeps i q there
    rw [second.keeps i q (kept ▸ there), kept]

theorem Peek.still (peek : Peek k k') : Still k k' :=
  ⟨peek.ok, peek.sb, peek.disk, peek.content, peek.keeps, peek.outstanding⟩

/-- A change of one cache entry only. -/
theorem Sound.still {ip : Inode} (sound : Sound k (k.setInode p ip)) :
    Still k (k.setInode p ip) :=
  ⟨sound.ok, rfl, fun _ _ => rfl, fun _ => rfl, fun _ _ _ => rfl, rfl⟩

theorem Got.still {i : Nat} (got : Got i p k k') (ok : k.Ok) : Still k k' := by
  have sound := got.sound ok
  rw [got.state] at sound ⊢
  exact sound.still

theorem Still.size (still : Still k k') {i : Nat} (area : i < k.sb.icap) :
    k'.size i = k.size i := by
  rw [Kernel.size, still.disk i area, Kernel.size]

theorem Still.entries (still : Still k k') {d : Nat} (area : d < k.sb.icap) :
    k'.entries d = k.entries d :=
  entries_congr (still.size area) (still.content d)

/-- The references to inodes are as before, and entries in use unchanged. -/
structure SameUse (k k' : Kernel) : Prop where
  used : ∀ q, 0 < (k.icache q).ref → k'.icache q = k.icache q
  unused : ∀ q, (k.icache q).ref = 0 → (k'.icache q).ref = 0

theorem SameUse.of_icache (same : k'.icache = k.icache) : SameUse k k' :=
  ⟨fun _ _ => by rw [same], fun _ _ => by rwa [same]⟩

theorem SameUse.trans (first : SameUse k k') (second : SameUse k' k'') : SameUse k k'' := by
  refine ⟨fun q used => ?_, fun q unused => second.unused q (first.unused q unused)⟩
  have same := first.used q used
  rw [second.used q (by rwa [same]), same]

theorem Directory.still (here : Directory dp k) (still : Still k k') (use : SameUse k k') :
    Directory dp k' ∧ (k'.icache dp).inum = (k.icache dp).inum := by
  have same := use.used dp (here.ok.locked dp here.held).1
  refine ⟨⟨still.ok, ?_, ?_, ?_⟩, by rw [same]⟩
  · rw [same]
    exact here.held
  · rw [same]
    exact here.dir
  · rw [same, still.size here.area]
    exact here.whole

/-- Dropping a reference just taken: the inode has another one, or has not been
read, so it is not freed. -/
theorem iput_got {i : Nat} (ok : k.Ok) (got : Got i p k k')
    (unlocked : (k.icache p).locked = false) :
    wp (iput p) (fun _ k'' => Still k k'' ∧ SameUse k k'') (fun _ => False) k' := by
  have kept : ¬ ((k'.icache p).valid = true ∧ (k'.icache p).dinode.nlink = 0 ∧
      (k'.icache p).ref = 1) := by
    rintro ⟨valid, -, one⟩
    rw [got.unread (by have := got.ref; omega)] at valid
    cases valid
  have still := got.still ok
  have dropped : Sound k' (k'.setInode p { k'.icache p with ref := (k'.icache p).ref - 1 }) :=
    still.ok.setRef (by rw [got.ref]; omega) fun held => by
      rw [got.locked, unlocked] at held
      cases held
  unfold iput
  simp only [wp_bind, wp_get]
  rw [if_neg (by rw [got.locked, unlocked]; decide), if_neg kept]
  refine ⟨still.trans dropped.still, fun q used => ?_, fun q unused => ?_⟩
  · by_cases here : q = p
    · subst here
      rw [Kernel.icache_setInode, update_self, got.state, Kernel.icache_setInode, update_self,
        if_pos used]
      rfl
    · rw [Kernel.icache_setInode, update_of_ne here, got.others here]
  · by_cases here : q = p
    · subst here
      rw [Kernel.icache_setInode, update_self]
      show (k'.icache q).ref - 1 = 0
      rw [got.ref, unused]
    · rw [Kernel.icache_setInode, update_of_ne here, got.others here]
      exact unused

/-- The name is not bound to an inode whose lock is held. -/
def Kernel.Apart (k : Kernel) (dp : IPtr) (name : Bytes) : Prop :=
  ∀ q v, (k.icache q).locked = true →
    (k.entries (k.icache dp).inum).Binds (nameKey name) v → (k.icache q).inum ≠ v.toNat

/-- What `dirlink` does, by what it returns. -/
def Linked (k : Kernel) (dp : IPtr) (name : Bytes) (inum : Nat) : Bool → Kernel → Prop
  | false, k' => (∃ v, (k.entries (k.icache dp).inum).Binds (nameKey name) v) ∧ Still k k' ∧
      SameUse k k'
  | true, k' => (∀ v, ¬ (k.entries (k.icache dp).inum).Binds (nameKey name) v) ∧
      ∃ e, (k.entries (k.icache dp).inum).Free e ∧
        (∀ j < e, (k.entries (k.icache dp).inum).cell j ≠ none) ∧
        Stored dp (dirent (UInt16.ofNat inum) name) (direntSize * e) direntSize k k'

/-- Why a change of a directory may stop. -/
def EntryStop (k : Kernel) (dp : IPtr) (message : Panic) (e : Stop) : Prop :=
  LookupStop k e ∨ e = .panic message ∧ k.Crowded dp

/-- **`dirlink`** fails exactly on a name that is there, and otherwise fills the
first free slot; it waits for its caller on a name bound to a locked inode. -/
theorem dirlink_outcome (here : Directory dp k) (name : Bytes) (inum : Nat) :
    wp (dirlink dp name inum) (Linked k dp name inum)
      (fun x => EntryStop k dp "dirlink" x ∨ x = .blocked ∧ ¬ k.Apart dp name) k := by
  unfold dirlink
  rw [wp_bind]
  refine wp_mono (dirlookup_found here name) (fun present k₁ found => ?_)
    fun _ stop => .inl (.inl stop)
  match present, found with
  | some (p, _), ⟨k₂, e, v, peek, _, ⟨holds, _⟩, got⟩ =>
    simp only
    rw [wp_bind]
    by_cases held : (k₂.icache p).locked = true
    · have waits : iput p k₁ = .error .blocked := by
        unfold iput
        show (if _ then _ else _ : Fs Unit) k₁ = _
        rw [if_pos (got.locked.trans held)]
        rfl
      have number := got.cached (peek.ok.locked p held).1
      rw [peek.icache] at held number
      rw [wp_iff, waits]
      refine ⟨nofun, ?_⟩
      rintro _ ⟨⟩
      exact .inr ⟨rfl, fun apart => apart p v held ⟨e, holds⟩ number⟩
    · refine wp_mono (iput_got peek.ok got (by simpa using held)) ?_ fun _ no => no.elim
      rintro _ k₃ ⟨still, use⟩
      exact ⟨⟨v, e, holds⟩, peek.still.trans still, (SameUse.of_icache peek.icache).trans use⟩
  | none, ⟨peek, absent⟩ =>
    have here₁ := here.quiet peek.toQuiet
    have same := peek.toQuiet.entries here.area
    simp only [wp_bind, wp_get]
    rw [here₁.size_eq]
    refine wp_mono (dirSlot_free here₁) ?_ fun x spent => ?_
    · rintro off k₂ ⟨peek₂, e, rfl, free, before⟩
      have both := peek.trans peek₂
      have here₂ := here₁.quiet peek₂.toQuiet
      have near : e ≤ (k₂.entries (k₂.icache dp).inum).len := by
        rw [peek₂.icache, peek₂.toQuiet.entries here₁.area]
        exact free.le_len
      rw [peek.icache, same] at free before
      refine wp_mono (writeDirent_stored here₂ _ near _) (fun _ k₃ stored => ?_)
        fun x stop => ?_
      · exact ⟨absent, e, free, before, both.stored stored here.area⟩
      · unfold Kernel.Crowded at stop
        rw [both.outstanding, both.icache, both.toQuiet.size here.area] at stop
        exact .inl (stop.imp_left .inl)
    · rw [peek.outstanding] at spent
      exact .inl (.inl (.inl spent))

/-- `dirlink` on a name that is not bound to a locked inode. -/
theorem dirlink_linked (here : Directory dp k) (name : Bytes) (inum : Nat)
    (apart : k.Apart dp name) :
    wp (dirlink dp name inum) (Linked k dp name inum) (EntryStop k dp "dirlink") k := by
  refine wp_mono (dirlink_outcome here name inum) (fun _ _ linked => linked) fun x stop => ?_
  exact stop.resolve_right fun ⟨_, no⟩ => no apart

/-- The lines of `sys_unlink` that erase an entry: look the name up, and zero the
entry at the offset found.  The inode is the caller's. -/
def dirErase (dp : IPtr) (name : Bytes) : Fs (Option IPtr) := do
  let present ← dirlookup dp name
  match present with
  | none => return none
  | some (ip, off) =>
    writeDirent dp (fun _ => 0) off "unlink: writei"
    return some ip

/-- What erasing does, by whether there was an entry. -/
def Erased (k : Kernel) (dp : IPtr) (name : Bytes) : Option IPtr → Kernel → Prop
  | none, k' => (∀ v, ¬ (k.entries (k.icache dp).inum).Binds (nameKey name) v) ∧ Peek k k'
  | some p, k' => ∃ k₁ k₂ e v, (k.entries (k.icache dp).inum).At e (nameKey name) v ∧
      Peek k k₁ ∧ Got v.toNat p k₁ k₂ ∧
      Stored dp (fun _ => 0) (direntSize * e) direntSize k₂ k'

theorem dirErase_erased (here : Directory dp k) (name : Bytes) :
    wp (dirErase dp name) (Erased k dp name) (EntryStop k dp "unlink: writei") k := by
  unfold dirErase
  rw [wp_bind]
  refine wp_mono (dirlookup_found here name) (fun present k₂ found => ?_) fun _ => .inl
  match present, found with
  | none, ⟨peek, absent⟩ => exact ⟨absent, peek⟩
  | some (p, _), ⟨k₁, e, v, peek, rfl, ⟨holds, _⟩, got⟩ =>
    have here₁ := here.quiet peek.toQuiet
    obtain ⟨ref, kept⟩ := got.used (here₁.ok.locked dp here₁.held).1
    have inum : (k₂.icache dp).inum = (k.icache dp).inum := by rw [kept, peek.icache]
    have size : k₂.size (k.icache dp).inum = k.size (k.icache dp).inum := by
      rw [Kernel.size, got.disk]
      exact peek.toQuiet.size here.area
    have near : e ≤ (k₂.entries (k₂.icache dp).inum).len := by
      rw [inum, got.entries, peek.toQuiet.entries here.area]
      exact Nat.le_of_lt holds.1
    refine (wp_bind _ _ _ _ _).mpr (wp_mono
      (writeDirent_stored (got.directory here₁) _ near _) (fun _ k₃ stored => ?_)
      fun x stop => ?_)
    · exact ⟨k₁, k₂, e, v, holds, peek, got, stored⟩
    · unfold Kernel.Crowded at stop
      rw [got.log, peek.outstanding, inum, size] at stop
      exact stop.imp_left .inl

end

end BasicOS
