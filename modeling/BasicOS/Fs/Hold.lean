/-
# BasicOS.Fs.Hold — a file system call on its way

What a system call of sysfile.c knows between two calls into fs.c.  `Fit` is what
holds of the file system at every such point: besides `Ok`, every directory is a
table of entries that lead to inodes, no entry but `.` and `..` leads to its own
directory, and an inode without links is one that somebody has open.

`Holding k₀ held locks k` says how far the call has come since `k₀`: it has the
references in `held` and the locks in `locks`, and what others have is as it was.
Each function of fs.c has one lemma that takes one such state to the next.
-/
import BasicOS.Fs.Entries
import BasicOS.Fs.Release

namespace BasicOS

open Lib Function
open Lib.Prog

set_option autoImplicit false

/-! ## The file system between two calls into fs.c -/

/-- A directory in whole entries.  They lead to inodes, and back to the directory
only as `.` and `..`. -/
structure Kernel.SaneDir (k : Kernel) (d : Nat) : Prop where
  whole : k.size d % direntSize = 0
  inside : ∀ {key v}, (k.entries d).Binds key v → v.toNat < k.sb.icap
  self : ∀ {key v}, (k.entries d).Binds key v → v.toNat = d → key = [46] ∨ key = [46, 46]

structure Kernel.Fit (k : Kernel) : Prop where
  ok : k.Ok
  root : rootino < k.sb.icap
  /-- Inode numbers fit in a directory entry. -/
  narrow : k.sb.icap ≤ 2 ^ 16
  area : ∀ q, 0 < (k.icache q).ref → 0 < (k.icache q).inum ∧ (k.icache q).inum < k.sb.icap
  dirs : ∀ d < k.sb.icap, (k.disk d).type = tDir → k.SaneDir d
  /-- An inode without links is in use. -/
  anchored : ∀ i < k.sb.icap, (k.disk i).type ≠ 0 → (k.disk i).nlink = 0 →
    ∃ q, 0 < (k.icache q).ref ∧ (k.icache q).inum = i ∧ (k.icache q).valid = true

/-- The inodes on disk and their bytes are the same. -/
structure SameFiles (k k' : Kernel) : Prop where
  sb : k'.sb = k.sb
  disk : ∀ i < k.sb.icap, k'.disk i = k.disk i
  content : ∀ i, k'.content i = k.content i

section

variable {k k' k'' k₀ : Kernel} {p dp : IPtr} {i d : Nat}

theorem SameFiles.refl (k : Kernel) : SameFiles k k :=
  ⟨rfl, fun _ _ => rfl, fun _ => rfl⟩

theorem SameFiles.trans (first : SameFiles k k') (second : SameFiles k' k'') :
    SameFiles k k'' := by
  refine ⟨second.sb.trans first.sb, ?_, fun i => (second.content i).trans (first.content i)⟩
  intro i area
  rw [second.disk i (first.sb ▸ area), first.disk i area]

theorem Quiet.sameFiles (quiet : Quiet k k') : SameFiles k k' :=
  ⟨quiet.sb, quiet.disk, quiet.content⟩

theorem Still.sameFiles (still : Still k k') : SameFiles k k' :=
  ⟨still.sb, still.disk, still.content⟩

theorem SameFiles.setInode (k : Kernel) (p : IPtr) (ip : Inode) : SameFiles k (k.setInode p ip) :=
  ⟨rfl, fun _ _ => rfl, fun _ => rfl⟩

theorem SameFiles.size (same : SameFiles k k') (area : i < k.sb.icap) : k'.size i = k.size i := by
  rw [Kernel.size, same.disk i area, Kernel.size]

theorem SameFiles.entries (same : SameFiles k k') (area : d < k.sb.icap) :
    k'.entries d = k.entries d :=
  entries_congr (same.size area) (same.content d)

/-- A directory that has not changed. -/
theorem Kernel.SaneDir.congr (sane : k.SaneDir d) (sb : k'.sb = k.sb)
    (size : k'.size d = k.size d) (content : k'.content d = k.content d) : k'.SaneDir d := by
  have entries := entries_congr size content
  refine ⟨by rw [size]; exact sane.whole, ?_, ?_⟩
  · intro key v bound
    rw [sb]
    rw [entries] at bound
    exact sane.inside bound
  · intro key v bound
    rw [entries] at bound
    exact sane.self bound

/-- A step that changes at most inode `i` on disk. -/
theorem Kernel.Fit.change (fit : k.Fit) (i : Nat) (ok : k'.Ok) (sb : k'.sb = k.sb)
    (disk : ∀ j < k.sb.icap, j ≠ i → k'.disk j = k.disk j)
    (content : ∀ j, j ≠ i → k'.content j = k.content j)
    (area : ∀ q, 0 < (k'.icache q).ref →
      0 < (k'.icache q).inum ∧ (k'.icache q).inum < k.sb.icap)
    (dir : i < k.sb.icap → (k'.disk i).type = tDir → k'.SaneDir i)
    (anchor : i < k.sb.icap → (k'.disk i).type ≠ 0 → (k'.disk i).nlink = 0 →
      ∃ q, 0 < (k'.icache q).ref ∧ (k'.icache q).inum = i ∧ (k'.icache q).valid = true)
    (anchors : ∀ q, 0 < (k.icache q).ref → (k.icache q).valid = true →
      (k.icache q).inum ≠ i → (k.disk (k.icache q).inum).nlink = 0 →
      0 < (k'.icache q).ref ∧ (k'.icache q).inum = (k.icache q).inum ∧
        (k'.icache q).valid = true) : k'.Fit := by
  refine ⟨ok, by rw [sb]; exact fit.root, by rw [sb]; exact fit.narrow, ?_, ?_, ?_⟩
  · intro q used
    rw [sb]
    exact area q used
  · intro d inside isDir
    rw [sb] at inside
    by_cases here : d = i
    · subst here
      exact dir inside isDir
    · have same := disk d inside here
      rw [same] at isDir
      refine (fit.dirs d inside isDir).congr sb ?_ (content d here)
      rw [Kernel.size, same, Kernel.size]
  · intro j inside typed unlinked
    rw [sb] at inside
    by_cases here : j = i
    · subst here
      exact anchor inside typed unlinked
    · rw [disk j inside here] at typed unlinked
      obtain ⟨q, used, same, valid⟩ := fit.anchored j inside typed unlinked
      subst same
      obtain ⟨used', same', valid'⟩ := anchors q used valid here unlinked
      exact ⟨q, used', same', valid'⟩

/-- Files that are the same are as fit, if the cache is. -/
theorem Kernel.Fit.sameFiles (fit : k.Fit) (ok : k'.Ok) (same : SameFiles k k')
    (area : ∀ q, 0 < (k'.icache q).ref →
      0 < (k'.icache q).inum ∧ (k'.icache q).inum < k.sb.icap)
    (anchors : ∀ q, 0 < (k.icache q).ref → (k.icache q).valid = true →
      (k.disk (k.icache q).inum).nlink = 0 →
      0 < (k'.icache q).ref ∧ (k'.icache q).inum = (k.icache q).inum ∧
        (k'.icache q).valid = true) : k'.Fit := by
  -- there is no inode at the end of the inode blocks
  apply fit.change k.sb.icap ok same.sb (fun j inside _ => same.disk j inside)
    (fun j _ => same.content j) area
  · exact fun inside => absurd inside (Nat.lt_irrefl _)
  · exact fun inside => absurd inside (Nat.lt_irrefl _)
  · exact fun q used valid _ => anchors q used valid

/-- A directory behind a locked entry. -/
theorem Kernel.Fit.directory (fit : k.Fit) (held : (k.icache dp).locked = true)
    (dir : (k.disk (k.icache dp).inum).type = tDir) : Directory dp k := by
  obtain ⟨used, valid⟩ := fit.ok.locked dp held
  obtain ⟨area, copy, -⟩ := fit.ok.cache dp used valid
  refine ⟨fit.ok, held, by rw [copy]; exact dir, (fit.dirs _ area dir).whole⟩

/-! ## Stops -/

/-- The panics that a system call on files can end in: something has run out, an
entry leads to a free inode, or a link count is wrong. -/
def panics : List Panic :=
  ["too big a transaction", "balloc: out of blocks", "log_write outside of trans",
    "iget: no inodes", "ialloc: no inodes", "ilock: no type", "dirlink", "unlink: writei",
    "unlink: nlink < 1"]

/-- One of these panics, so not a wait for a lock of one's own. -/
def Awake (e : Stop) : Prop :=
  ∃ message ∈ panics, e = .panic message

theorem Awake.ne_blocked {e : Stop} (awake : Awake e) : e ≠ .blocked := by
  obtain ⟨_, -, rfl⟩ := awake
  exact Stop.noConfusion

theorem Spent.awake {n : Nat} {e : Stop} (spent : Spent n e) : Awake e := by
  rcases spent with rfl | rfl | ⟨-, rfl⟩
  · exact ⟨_, by decide, rfl⟩
  · exact ⟨_, by decide, rfl⟩
  · exact ⟨_, by decide, rfl⟩

theorem LookupStop.awake {e : Stop} (stop : LookupStop k e) : Awake e := by
  rcases stop with spent | ⟨rfl, -⟩
  · exact spent.awake
  · exact ⟨_, by decide, rfl⟩

theorem EntryStop.awake {message : Panic} {e : Stop} (stop : EntryStop k dp message e)
    (listed : message ∈ panics) : Awake e := by
  rcases stop with lookup | ⟨rfl, -⟩
  · exact lookup.awake
  · exact ⟨_, listed, rfl⟩

/-- What a user of a cache entry relies on: it stands for the same inode, and a
valid one stays valid and keeps its type. -/
def Inode.Kept (old new : Inode) : Prop :=
  new.inum = old.inum ∧
    (old.valid = true → new.valid = true ∧ new.dinode.type = old.dinode.type)

theorem Inode.Kept.refl (ip : Inode) : ip.Kept ip :=
  ⟨rfl, fun valid => ⟨valid, rfl⟩⟩

theorem Inode.Kept.trans {a b c : Inode} (first : a.Kept b) (second : b.Kept c) : a.Kept c := by
  refine ⟨second.1.trans first.1, fun valid => ?_⟩
  obtain ⟨valid', type⟩ := first.2 valid
  exact ⟨(second.2 valid').1, (second.2 valid').2.trans type⟩

/-! ## References and locks in hand -/

/-- How many of the references are to the entry. -/
def refsTo (held : List (IPtr × Nat)) (q : IPtr) : Nat :=
  (held.map Prod.fst).count q

@[simp] theorem refsTo_nil (q : IPtr) : refsTo [] q = 0 := rfl

theorem refsTo_cons (held : List (IPtr × Nat)) (p q : IPtr) (i : Nat) :
    refsTo ((p, i) :: held) q = refsTo held q + if q = p then 1 else 0 := by
  by_cases here : q = p
  · simp [refsTo, here]
  · simp [refsTo, here, Ne.symm here]

theorem refsTo_pos {held : List (IPtr × Nat)} (mem : (p, i) ∈ held) : 0 < refsTo held p :=
  List.count_pos_iff.mpr (List.mem_map.mpr ⟨(p, i), mem, rfl⟩)

/-- Since `k₀`, a call has taken the references in `held`, to the inodes with
these numbers, and the locks in `locks`. -/
structure Holding (k₀ : Kernel) (held : List (IPtr × Nat)) (locks : List IPtr) (k : Kernel) :
    Prop where
  fit : k.Fit
  sb : k.sb = k₀.sb
  ref : ∀ q, (k.icache q).ref = (k₀.icache q).ref + refsTo held q
  inum : ∀ p i, (p, i) ∈ held → (k.icache p).inum = i
  keeps : ∀ q, 0 < (k₀.icache q).ref → (k₀.icache q).Kept (k.icache q)
  locked : ∀ q, (k.icache q).locked = true ↔ q ∈ locks
  outstanding : k.log.outstanding = k₀.log.outstanding

variable {held held' : List (IPtr × Nat)} {locks locks' : List IPtr}

namespace Holding

theorem refl (fit : k.Fit) (free : ∀ q, (k.icache q).locked = false) : Holding k [] [] k :=
  ⟨fit, rfl, fun _ => rfl, fun _ _ no => (List.not_mem_nil no).elim, fun _ _ => Inode.Kept.refl _,
    fun q => by simp [free q], rfl⟩

variable (h : Holding k₀ held locks k)

include h

/-- What is to come, seen from here. -/
theorem rebase : Holding k [] locks k :=
  ⟨h.fit, rfl, fun _ => rfl, fun _ _ no => (List.not_mem_nil no).elim,
    fun _ _ => Inode.Kept.refl _, h.locked, rfl⟩

theorem perm (same : held.Perm held') : Holding k₀ held' locks k := by
  refine ⟨h.fit, h.sb, ?_, ?_, h.keeps, h.locked, h.outstanding⟩
  · intro q
    rw [h.ref q, refsTo, refsTo, (same.map Prod.fst).count_eq]
  · intro p i mem
    exact h.inum p i (same.mem_iff.mpr mem)

theorem used (mem : (p, i) ∈ held) : 0 < (k.icache p).ref := by
  have := refsTo_pos mem
  rw [h.ref p]
  omega

theorem area (mem : (p, i) ∈ held) : 0 < i ∧ i < k.sb.icap := by
  have area := h.fit.area p (h.used mem)
  rwa [h.inum p i mem] at area

theorem inside (mem : (p, i) ∈ held) : i < k.sb.icap :=
  (h.area mem).2

theorem unlocked (free : p ∉ locks) :
    (k.icache p).locked = false := by
  rw [← Bool.not_eq_true, h.locked p]
  exact free

/-- A locked entry is a copy of its inode. -/
theorem copy_of_inum (inum : (k.icache p).inum = i)
    (lock : p ∈ locks) : (k.icache p).dinode = k.disk i ∧ (k.disk i).type ≠ 0 := by
  obtain ⟨used, valid⟩ := h.fit.ok.locked p ((h.locked p).mpr lock)
  obtain ⟨-, copy, typed⟩ := h.fit.ok.cache p used valid
  rw [inum] at copy
  exact ⟨copy, copy ▸ typed⟩

theorem copy (mem : (p, i) ∈ held) (lock : p ∈ locks) :
    (k.icache p).dinode = k.disk i ∧ (k.disk i).type ≠ 0 :=
  h.copy_of_inum (h.inum p i mem) lock

theorem directory (mem : (dp, d) ∈ held) (lock : dp ∈ locks)
    (dir : (k.disk d).type = tDir) : Directory dp k := by
  rw [← h.inum dp d mem] at dir
  exact h.fit.directory ((h.locked dp).mpr lock) dir

/-- Two entries for one inode are one. -/
theorem same_entry {q : IPtr} (mem : (p, i) ∈ held)
    (used : 0 < (k.icache q).ref) (here : (k.icache q).inum = i) : q = p :=
  h.fit.ok.unique q p used (h.used mem) (here.trans (h.inum p i mem).symm)

/-- Reading and committing leave the cache alone. -/
theorem quiet (quiet : Quiet k k')
    (outstanding : k'.log.outstanding = k.log.outstanding) : Holding k₀ held locks k' := by
  have icache := quiet.icache
  refine ⟨?_, quiet.sb.trans h.sb, ?_, ?_, ?_, ?_, outstanding.trans h.outstanding⟩
  · apply h.fit.sameFiles quiet.ok quiet.sameFiles
    · rw [icache]
      exact h.fit.area
    · rw [icache]
      exact fun q used valid _ => ⟨used, rfl, valid⟩
  · rw [icache]
    exact h.ref
  · rw [icache]
    exact h.inum
  · rw [icache]
    exact h.keeps
  · rw [icache]
    exact h.locked

/-- A step that touches one cache entry. -/
theorem change (fit : k'.Fit) (sb : k'.sb = k.sb)
    (outstanding : k'.log.outstanding = k.log.outstanding)
    (others : ∀ q, q ≠ p → k'.icache q = k.icache q)
    (same : 0 < (k₀.icache p).ref ∨ 0 < refsTo held p ∧ 0 < refsTo held' p →
      (k.icache p).Kept (k'.icache p))
    (ref : (k'.icache p).ref + refsTo held p = (k.icache p).ref + refsTo held' p)
    (refs : ∀ q, q ≠ p → refsTo held' q = refsTo held q)
    (inum : ∀ q i, (q, i) ∈ held' → q = p ∧ i = (k'.icache p).inum ∨ (q, i) ∈ held)
    (lock : (k'.icache p).locked = true ↔ p ∈ locks')
    (free : ∀ q, q ≠ p → (q ∈ locks' ↔ q ∈ locks)) : Holding k₀ held' locks' k' := by
  refine ⟨fit, sb.trans h.sb, ?_, ?_, ?_, ?_, outstanding.trans h.outstanding⟩
  · intro q
    have old := h.ref q
    by_cases here : q = p
    · subst here
      omega
    · rw [others q here, old, refs q here]
  · intro q i mem
    rcases inum q i mem with ⟨rfl, rfl⟩ | old
    · rfl
    · by_cases here : q = p
      · subst here
        rw [(same (.inr ⟨refsTo_pos old, refsTo_pos mem⟩)).1]
        exact h.inum q i old
      · rw [others q here]
        exact h.inum q i old
  · intro q before
    have old := h.keeps q before
    by_cases here : q = p
    · subst here
      exact old.trans (same (.inl before))
    · rw [others q here]
      exact old
  · intro q
    by_cases here : q = p
    · subst here
      exact lock
    · rw [others q here, free q here]
      exact h.locked q

/-- A change of one cache entry and nothing else. -/
theorem setInode {ip : Inode} (sound : Sound k (k.setInode p ip))
    (area : 0 < ip.ref → 0 < ip.inum ∧ ip.inum < k.sb.icap)
    (anchor : 0 < (k.icache p).ref → (k.icache p).valid = true →
      (k.disk (k.icache p).inum).nlink = 0 → 0 < ip.ref)
    (same : 0 < (k.icache p).ref → (k.icache p).Kept ip)
    (ref : ip.ref + refsTo held p = (k.icache p).ref + refsTo held' p)
    (refs : ∀ q, q ≠ p → refsTo held' q = refsTo held q)
    (inum : ∀ q i, (q, i) ∈ held' → q = p ∧ i = ip.inum ∨ (q, i) ∈ held)
    (lock : ip.locked = true ↔ p ∈ locks') (free : ∀ q, q ≠ p → (q ∈ locks' ↔ q ∈ locks)) :
    Holding k₀ held' locks' (k.setInode p ip) := by
  have here : (k.setInode p ip).icache p = ip := by simp
  have others : ∀ q, q ≠ p → (k.setInode p ip).icache q = k.icache q := fun q other => by
    simp [other]
  have inUse : 0 < (k₀.icache p).ref ∨ 0 < refsTo held p ∧ 0 < refsTo held' p →
      0 < (k.icache p).ref := by
    have := h.ref p
    omega
  have fit : (k.setInode p ip).Fit := by
    apply h.fit.sameFiles sound.ok (SameFiles.setInode k p ip)
    · intro q used
      by_cases here' : q = p
      · subst here'
        rw [here] at used ⊢
        exact area used
      · rw [others q here'] at used ⊢
        exact h.fit.area q used
    · intro q used valid unlinked
      by_cases here' : q = p
      · subst here'
        rw [here]
        exact ⟨anchor used valid unlinked, (same used).1, ((same used).2 valid).1⟩
      · rw [others q here']
        exact ⟨used, rfl, valid⟩
  apply h.change fit rfl rfl others
  · rw [here]
    exact fun either => same (inUse either)
  · rw [here]
    exact ref
  · exact refs
  · rw [here]
    exact inum
  · rw [here]
    exact lock
  · exact free

end Holding

/-! ## Taking and dropping references -/

theorem Got.holds (got : Got i p k k') (h : Holding k₀ held locks k)
    (inside : 0 < i ∧ i < k.sb.icap) :
    Holding k₀ ((p, i) :: held) locks k' := by
  have sound := got.sound h.fit.ok
  have inum := got.inum
  have ref := got.ref
  have locked := got.locked
  have kept : 0 < (k.icache p).ref → (k.icache p).Kept (k'.icache p) := by
    intro used
    obtain ⟨ref, same⟩ := got.used used
    rw [same]
    exact ⟨rfl, fun valid => ⟨valid, rfl⟩⟩
  rw [got.state] at sound inum ref locked kept ⊢
  rw [Kernel.icache_setInode, update_self] at inum ref locked kept
  apply h.setInode sound
  · intro _
    rw [inum]
    exact inside
  · intro _ _ _
    rw [ref]
    omega
  · exact kept
  · rw [ref, refsTo_cons, if_pos rfl]
    omega
  · intro q other
    rw [refsTo_cons, if_neg other]
    omega
  · intro q j mem
    rcases List.mem_cons.mp mem with same | old
    · cases same
      exact .inl ⟨rfl, inum.symm⟩
    · exact .inr old
  · rw [locked]
    exact h.locked p
  · exact fun q _ => Iff.rfl

theorem iget_holds (h : Holding k₀ held locks k) (inside : 0 < i ∧ i < k.sb.icap) :
    wp (iget i) (fun p k' => Holding k₀ ((p, i) :: held) locks k' ∧ SameFiles k k') Awake k := by
  apply wp_mono (iget_got k i)
  · intro p k' got
    exact ⟨got.holds h inside, (got.still h.fit.ok).sameFiles⟩
  · rintro _ ⟨rfl, -⟩
    exact ⟨_, by decide, rfl⟩

theorem idup_holds (h : Holding k₀ held locks k) (used : 0 < (k.icache p).ref) :
    wp (idup p) (fun q k' => q = p ∧ Holding k₀ ((p, (k.icache p).inum) :: held) locks k' ∧
      SameFiles k k') Awake k := by
  refine ⟨rfl, ?_, SameFiles.setInode _ _ _⟩
  apply h.setInode (h.fit.ok.setRef used fun _ => Nat.succ_pos _)
  · exact fun _ => h.fit.area p used
  · exact fun _ _ _ => Nat.succ_pos _
  · exact fun _ => ⟨rfl, fun valid => ⟨valid, rfl⟩⟩
  · rw [refsTo_cons, if_pos rfl]
    show (k.icache p).ref + 1 + _ = _
    omega
  · intro q other
    rw [refsTo_cons, if_neg other]
    omega
  · intro q j mem
    rcases List.mem_cons.mp mem with same | old
    · cases same
      exact .inl ⟨rfl, rfl⟩
    · exact .inr old
  · exact h.locked p
  · exact fun q _ => Iff.rfl

/-- The last reference to an inode without links is gone, and the inode with it. -/
theorem Freed.fit (freed : Freed p k k') (fit : k.Fit) : k'.Fit := by
  apply fit.change (k.icache p).inum freed.sound.ok freed.sound.sb freed.disk freed.content
  · intro q used
    have other : q ≠ p := by
      rintro rfl
      rw [freed.ref] at used
      omega
    rw [freed.others q other] at used ⊢
    exact fit.area q used
  · intro _ dir
    rw [freed.gone] at dir
    cases dir
  · exact fun _ typed => absurd freed.gone typed
  · intro q used valid elsewhere _
    have other : q ≠ p := by
      rintro rfl
      exact elsewhere rfl
    rw [freed.others q other]
    exact ⟨used, rfl, valid⟩

section

variable (h : Holding k₀ ((p, i) :: held) locks k)

include h

theorem iput_holds (free : p ∉ locks) :
    wp (iput p) (fun _ k' => Holding k₀ held locks k' ∧ Released p k k') Awake k := by
  have mem : (p, i) ∈ (p, i) :: held := List.mem_cons_self
  have used := h.used mem
  have unlocked := h.unlocked free
  have count := h.ref p
  rw [refsTo_cons, if_pos rfl] at count
  apply wp_mono (iput_released h.fit.ok used unlocked) ?_ fun _ => Spent.awake
  intro _ k' released
  refine ⟨?_, released⟩
  unfold Released at released
  split at released
  case isTrue last =>
    -- nobody else has it
    apply h.change (released.fit h.fit) released.sound.sb released.outstanding released.others
    · omega
    · rw [released.ref, refsTo_cons, if_pos rfl]
      omega
    · intro q other
      rw [refsTo_cons, if_neg other]
      omega
    · exact fun q j old => .inr (List.mem_cons_of_mem _ old)
    · refine iff_of_false (fun held => ?_) free
      have := (released.sound.ok.locked p held).1
      rw [released.ref] at this
      omega
    · exact fun q _ => Iff.rfl
  case isFalse kept =>
    subst released
    have sound : Sound k (k.setInode p { k.icache p with ref := (k.icache p).ref - 1 }) :=
      h.fit.ok.setRef used fun held => by
        rw [unlocked] at held
        cases held
    apply h.setInode sound
    · exact fun _ => h.fit.area p used
    · intro _ valid unlinked
      obtain ⟨-, copy, -⟩ := h.fit.ok.cache p used valid
      show 0 < (k.icache p).ref - 1
      by_contra zero
      exact kept ⟨valid, by rw [copy]; exact unlinked, by omega⟩
    · exact fun _ => ⟨rfl, fun valid => ⟨valid, rfl⟩⟩
    · rw [refsTo_cons, if_pos rfl]
      show (k.icache p).ref - 1 + _ = _
      omega
    · intro q other
      rw [refsTo_cons, if_neg other]
      omega
    · exact fun q j old => .inr (List.mem_cons_of_mem _ old)
    · exact h.locked p
    · exact fun q _ => Iff.rfl

/-- While the files are as the call has found them, no reference it drops is the
last one to an inode without links. -/
theorem Holding.not_last (fit : k₀.Fit)
    (same : SameFiles k₀ k) : ¬ ((k.icache p).valid = true ∧ (k.icache p).dinode.nlink = 0 ∧
      (k.icache p).ref = 1) := by
  rintro ⟨valid, unlinked, one⟩
  have mem : (p, i) ∈ (p, i) :: held := List.mem_cons_self
  obtain ⟨inside, copy, typed⟩ := h.fit.ok.cache p (h.used mem) valid
  rw [copy] at unlinked typed
  rw [same.sb] at inside
  rw [same.disk _ inside] at unlinked typed
  obtain ⟨q, before, here, -⟩ := fit.anchored _ inside typed unlinked
  have after : 0 < (k.icache q).ref := by
    rw [h.ref q]
    omega
  obtain rfl := h.same_entry mem after
    (((h.keeps q before).1.trans here).trans (h.inum p i mem))
  have count := h.ref q
  rw [refsTo_cons, if_pos rfl] at count
  omega

theorem Holding.released (fit : k₀.Fit)
    (same : SameFiles k₀ k) (released : Released p k k') : SameFiles k k' := by
  unfold Released at released
  rw [if_neg (h.not_last fit same)] at released
  subst released
  exact SameFiles.setInode _ _ _

/-- Dropping a reference while the files are as the call has found them. -/
theorem iput_same (fit : k₀.Fit) (same : SameFiles k₀ k)
    (free : p ∉ locks) :
    wp (iput p) (fun _ k' => Holding k₀ held locks k' ∧ SameFiles k₀ k') Awake k := by
  apply wp_post (iput_holds h free)
  rintro _ k' ⟨after, released⟩
  exact ⟨after, same.trans (h.released fit same released)⟩

end

/-! ## Locks -/

theorem ilock_awake (used : 0 < (k.icache p).ref) (unlocked : (k.icache p).locked = false) :
    wp (ilock p) (fun _ _ => True) Awake k := by
  unfold ilock
  simp only [wp_bind, wp_get, unlocked]
  refine wp_ite (fun none_left => absurd none_left (by omega)) fun _ => ?_
  refine wp_ite (fun no => by cases no) fun _ => ?_
  refine wp_ite (fun _ => trivial) fun _ => ?_
  exact wp_ite (fun _ => ⟨_, by decide, rfl⟩) fun _ => trivial

section

variable (h : Holding k₀ held locks k)

include h

/-- What `ilock` leaves behind when it returns. -/
theorem ilock_sets {E : Stop → Prop} (used : 0 < (k.icache p).ref)
    (stops : wp (ilock p) (fun _ _ => True) E k) :
    wp (ilock p) (fun _ k' => Holding k₀ held (p :: locks) k' ∧ ∃ ip, k' = k.setInode p ip) E k := by
  have spec := wp_and (ilock_spec h.fit.ok (h.fit.area p used).2) stops
  apply wp_mono spec ?_ fun _ stop => stop.2
  rintro _ k' ⟨⟨sound, d, rfl⟩, -⟩
  refine ⟨?_, _, rfl⟩
  -- both copies are of the inode on disk
  have copy : (k.icache p).valid = true → d = (k.icache p).dinode := by
    intro valid
    have after := (sound.ok.cache p (by simpa using used) (by simp)).2.1
    rw [Kernel.icache_setInode, update_self] at after
    exact after.trans (h.fit.ok.cache p used valid).2.1.symm
  apply h.setInode sound
  · exact h.fit.area p
  · exact fun used _ _ => used
  · exact fun _ => ⟨rfl, fun valid => ⟨rfl, congrArg Dinode.type (copy valid)⟩⟩
  · rfl
  · exact fun _ _ => rfl
  · exact fun _ _ => .inr
  · simp
  · intro q other
    simp [other]

/-- `ilock` on an entry that is in use, by the call or by others. -/
theorem ilock_used (used : 0 < (k.icache p).ref) (free : p ∉ locks) :
    wp (ilock p) (fun _ k' => Holding k₀ held (p :: locks) k' ∧ SameFiles k k') Awake k := by
  apply wp_post (ilock_sets h used (ilock_awake used (h.unlocked free)))
  rintro _ k' ⟨holds, ip, rfl⟩
  exact ⟨holds, SameFiles.setInode _ _ _⟩

/-- `ilock` on an inode that has been read returns. -/
theorem ilock_valid {E : Stop → Prop} (used : 0 < (k.icache p).ref)
    (free : p ∉ locks) (valid : (k.icache p).valid = true) :
    wp (ilock p) (fun _ k' => Holding k₀ held (p :: locks) k' ∧ ∃ ip, k' = k.setInode p ip) E k := by
  apply ilock_sets h used
  unfold ilock
  simp only [wp_bind, wp_get, h.unlocked free]
  refine wp_ite (fun none_left => absurd none_left (by omega)) fun _ => ?_
  refine wp_ite (fun no => by cases no) fun _ => ?_
  exact wp_ite (fun _ => trivial) fun unread => absurd valid unread

theorem ilock_holds (mem : (p, i) ∈ held) (free : p ∉ locks) :
    wp (ilock p) (fun _ k' => Holding k₀ held (p :: locks) k' ∧ SameFiles k k') Awake k :=
  ilock_used h (h.used mem) free

/-- `iunlock` of a lock that is held returns. -/
theorem iunlock_sets {E : Stop → Prop} (lock : p ∈ locks)
    (rest : ∀ q, q ∈ locks' ↔ q ∈ locks ∧ q ≠ p) :
    wp (iunlock p) (fun _ k' => Holding k₀ held locks' k' ∧ ∃ ip, k' = k.setInode p ip) E k := by
  have locked := (h.locked p).mpr lock
  obtain ⟨used, -⟩ := h.fit.ok.locked p locked
  have returns : wp (iunlock p) (fun _ _ => True) E k := by
    unfold iunlock
    simp only [wp_bind, wp_get]
    rw [if_neg (by simp [locked]; omega)]
    exact trivial
  apply wp_mono (wp_and (iunlock_spec h.fit.ok) returns) ?_ fun _ stop => stop.2
  rintro _ k' ⟨⟨sound, rfl⟩, -⟩
  refine ⟨?_, _, rfl⟩
  apply h.setInode sound
  · exact h.fit.area p
  · exact fun used _ _ => used
  · exact fun _ => ⟨rfl, fun valid => ⟨valid, rfl⟩⟩
  · rfl
  · exact fun _ _ => rfl
  · exact fun _ _ => .inr
  · simp [rest]
  · intro q other
    simp [rest, other]

theorem iunlock_holds (lock : p ∈ locks)
    (rest : ∀ q, q ∈ locks' ↔ q ∈ locks ∧ q ≠ p) :
    wp (iunlock p) (fun _ k' => Holding k₀ held locks' k' ∧ SameFiles k k') Awake k := by
  apply wp_post (iunlock_sets h lock rest)
  rintro _ k' ⟨holds, ip, rfl⟩
  exact ⟨holds, SameFiles.setInode _ _ _⟩

end

/-- The last lock is given back. -/
theorem only_lock (p : IPtr) : ∀ q, q ∈ ([] : List IPtr) ↔ q ∈ [p] ∧ q ≠ p := by
  simp

/-- `iunlockput` while the files are as the call has found them. -/
theorem iunlockput_same (h : Holding k₀ ((p, i) :: held) locks k) (fit : k₀.Fit)
    (same : SameFiles k₀ k) (lock : p ∈ locks) (rest : ∀ q, q ∈ locks' ↔ q ∈ locks ∧ q ≠ p) :
    wp (iunlockput p) (fun _ k' => Holding k₀ held locks' k' ∧ SameFiles k₀ k') Awake k := by
  unfold iunlockput
  apply wp_seq (iunlock_holds h lock rest)
  rintro _ k₁ ⟨after, same₁⟩
  exact iput_same after fit (same.trans same₁) (by simp [rest])

/-! ## Lookups -/

/-- What a lookup in a locked directory leaves. -/
def LookedUp (k₀ : Kernel) (held : List (IPtr × Nat)) (locks : List IPtr) (k : Kernel) (d : Nat)
    (name : Bytes) : Option (IPtr × Nat) → Kernel → Prop
  | none, k' => Holding k₀ held locks k' ∧ SameFiles k k' ∧
      ∀ v, ¬ (k.entries d).Binds (nameKey name) v
  | some (p, off), k' => ∃ e v, Holding k₀ ((p, v.toNat) :: held) locks k' ∧ SameFiles k k' ∧
      off = direntSize * e ∧ (k.entries d).First e (nameKey name) v

theorem dirlookup_holds (h : Holding k₀ held locks k) (mem : (dp, d) ∈ held) (lock : dp ∈ locks)
    (dir : (k.disk d).type = tDir) (name : Bytes) :
    wp (dirlookup dp name) (LookedUp k₀ held locks k d name) Awake k := by
  have here := h.directory mem lock dir
  apply wp_mono (dirlookup_found here name) ?_ fun _ => LookupStop.awake
  intro r k' found
  match r, found with
  | none, ⟨peek, absent⟩ =>
    rw [h.inum dp d mem] at absent
    exact ⟨h.quiet peek.toQuiet peek.outstanding, peek.toQuiet.sameFiles, absent⟩
  | some (p, off), ⟨k₁, e, v, peek, at_off, holds, got⟩ =>
    rw [h.inum dp d mem] at holds
    have after := h.quiet peek.toQuiet peek.outstanding
    have inside := (h.fit.dirs d (h.inside mem) dir).inside ⟨e, holds.1⟩
    rw [← peek.sb] at inside
    refine ⟨e, v, got.holds after ⟨slotOf_pos holds.1.2, inside⟩, ?_, at_off, holds⟩
    exact peek.toQuiet.sameFiles.trans (got.still peek.ok).sameFiles

end

end BasicOS
