/-
# BasicOS.Fs.Walk — path resolution changes nothing

`namex` takes and drops references and locks as it goes, and ends with one
reference, to the inode it returns, and no lock.  The files are as they were: it
never drops the last reference to an inode without links.  The directories on disk are
a tree (`Kernel.tree`), and what it returns is what the tree gives for the elements of
the path (`namex_follows`).
-/
import BasicOS.Fs.Hold
import BasicOS.Fs.Path
import BasicOS.Lib.Tree

namespace BasicOS

open Lib Function
open Lib.Prog

set_option autoImplicit false

section

variable {k k' k₀ : Kernel} {p : IPtr} {i : Nat} {held held' : List (IPtr × Nat)}
  {locks locks' : List IPtr}

theorem refsTo_append (held held' : List (IPtr × Nat)) (q : IPtr) :
    refsTo (held ++ held') q = refsTo held q + refsTo held' q := by
  simp [refsTo]

/-- What a part of a call takes adds to what the call had before. -/
theorem Holding.trans (first : Holding k₀ held locks k) (second : Holding k held' locks' k') :
    Holding k₀ (held' ++ held) locks' k' := by
  refine ⟨second.fit, second.sb.trans first.sb, ?_, ?_, ?_, second.locked,
    second.outstanding.trans first.outstanding⟩
  · intro q
    rw [second.ref q, first.ref q, refsTo_append]
    omega
  · intro p i mem
    rcases List.mem_append.mp mem with new | old
    · exact second.inum p i new
    · rw [(second.keeps p (first.used old)).1]
      exact first.inum p i old
  · intro q before
    have between : 0 < (k.icache q).ref := by
      rw [first.ref q]
      omega
    exact (first.keeps q before).trans (second.keeps q between)

/-- One reference less. -/
def Kernel.unref (k : Kernel) (p : IPtr) : Kernel :=
  k.setInode p { k.icache p with ref := (k.icache p).ref - 1 }

theorem icache_unref (k : Kernel) (p q : IPtr) : (k.unref p).icache q =
    { k.icache q with ref := (k.icache q).ref - if q = p then 1 else 0 } := by
  by_cases here : q = p
  · subst here
    simp [Kernel.unref]
  · simp [Kernel.unref, here]

/-- A reference from before the call is taken over by it. -/
theorem Holding.borrow (fit : k.Fit) (free : ∀ q, (k.icache q).locked = false)
    (used : 0 < (k.icache p).ref) : Holding (k.unref p) [(p, (k.icache p).inum)] [] k := by
  refine ⟨fit, rfl, ?_, ?_, ?_, ?_, rfl⟩
  · intro q
    rw [refsTo_cons, refsTo_nil, icache_unref]
    by_cases here : q = p
    · subst here
      simp only [if_true]
      omega
    · simp only [if_neg here]
      omega
  · intro q j mem
    cases List.mem_singleton.mp mem
    rfl
  · intro q _
    rw [icache_unref]
    exact ⟨rfl, fun valid => ⟨valid, rfl⟩⟩
  · intro q
    simp [free q]

/-! ## Transactions -/

/-- The kernel between system calls. -/
structure Kernel.Rested (k : Kernel) : Prop where
  fit : k.Fit
  free : ∀ q, (k.icache q).locked = false
  idle : k.log.outstanding = 0
  empty : k.log.lh = []

theorem Quiet.fit (quiet : Quiet k k') (fit : k.Fit) : k'.Fit := by
  apply fit.sameFiles quiet.ok quiet.sameFiles
  · rw [quiet.icache]
    exact fit.area
  · rw [quiet.icache]
    exact fun q used valid _ => ⟨used, rfl, valid⟩

theorem beginOp_run (rested : k.Rested) :
    beginOp k = .ok ((), { k with log := { k.log with outstanding := 1 } }) := by
  have admitted : k.log.beginOp = some { k.log with outstanding := 1 } := by
    rw [Log.beginOp, if_neg (by rw [rested.fit.ok.log.idle]; decide),
      if_neg (by rw [rested.empty, rested.idle]; decide), rested.idle]
  unfold beginOp
  rw [run_get, admitted]
  rfl

/-- `begin_op` as the first thing a system call does. -/
theorem beginOp_rested {E : Stop → Prop} (rested : k.Rested) :
    wp beginOp (fun _ k' => Quiet k k' ∧ k'.log.outstanding = 1 ∧ Holding k' [] [] k') E k := by
  have run := beginOp_run rested
  have quiet := wp_ok (beginOp_spec rested.fit.ok) run
  apply wp_of_run run
  exact ⟨quiet, rfl, Holding.refl (quiet.fit rested.fit) rested.free⟩

/-- `end_op` as the last thing. -/
theorem endOp_rested {E : Stop → Prop} (fit : k.Fit) (free : ∀ q, (k.icache q).locked = false)
    (one : k.log.outstanding = 1) :
    wp endOp (fun _ k' => k'.Rested ∧ Quiet k k') E k := by
  have ended : k.log.endOp = .ok (true, { k.log with outstanding := 0, committing := true }) := by
    unfold Log.endOp
    simp [fit.ok.log.idle, one]
  have run : ∃ k', endOp k = .ok ((), k') ∧ k'.log.outstanding = 0 ∧ k'.log.lh = [] := by
    refine ⟨{ k with
      dev := exec (commit { k.log with outstanding := 0, committing := true }) k.dev
      log := { k.log with outstanding := 0, committing := false, lh := [] } }, ?_, rfl, rfl⟩
    unfold endOp
    rw [run_get, ended]
    rfl
  obtain ⟨k', run, idle, empty⟩ := run
  have quiet := wp_ok (endOp_spec fit.ok) run
  apply wp_of_run run
  refine ⟨⟨quiet.fit fit, ?_, idle, empty⟩, quiet⟩
  rw [quiet.icache]
  exact free

theorem Holding.free (h : Holding k₀ held [] k) (q : IPtr) : (k.icache q).locked = false :=
  h.unlocked List.not_mem_nil

/-! ## The tree on disk -/

/-- The directories on disk. -/
def Kernel.tree (k : Kernel) : Tree Nat (List UInt8) where
  isDir i := (k.disk i).type = tDir
  child d key := ((k.entries d).lookup key).map UInt16.toNat

theorem Kernel.tree_isDir {k : Kernel} {i : Nat} :
    k.tree.isDir i = true ↔ (k.disk i).type = tDir :=
  decide_eq_true_iff

/-- Where a path starts. -/
def Kernel.pathStart (k : Kernel) (cwd : IPtr) (path : List UInt8) : Nat :=
  if path.head? = some slash then rootino else (k.icache cwd).inum

/-- The answer that the tree gives, for the inode of a path or for its parent. -/
def Resolves (t : Tree Nat (List UInt8)) (i : Nat) (elems : List (List UInt8)) :
    Bool → Option (IPtr × Bytes) → Kernel → Prop
  | false, r, k => r.map (fun x => (k.icache x.1).inum) = t.resolve i elems
  | true, r, k => r.map (fun x => ((k.icache x.1).inum, nameKey x.2)) = t.parentOf i elems

theorem Resolves.leaf {t : Tree Nat (List UInt8)} (leaf : t.isDir i = false)
    (elem : List UInt8) (elems : List (List UInt8)) (nameiparent : Bool) :
    Resolves t i (elem :: elems) nameiparent none k := by
  cases nameiparent with
  | false => exact (Tree.resolve_leaf leaf elem elems).symm
  | true => exact (Tree.parentOf_leaf leaf elem elems).symm

/-- A step from a directory to what it has under the name, or to nothing. -/
theorem Resolves.step {t : Tree Nat (List UInt8)} (dir : t.isDir i = true) {elem : List UInt8}
    {elems : List (List UInt8)} {nameiparent : Bool} (more : ¬ (nameiparent = true ∧ elems = []))
    {r : Option (IPtr × Bytes)}
    (next : match t.child i elem with
      | none => r = none
      | some j => Resolves t j elems nameiparent r k) :
    Resolves t i (elem :: elems) nameiparent r k := by
  cases nameiparent with
  | false =>
    show _ = t.resolve i (elem :: elems)
    rw [Tree.resolve_cons dir]
    cases found : t.child i elem with
    | none =>
      rw [found] at next
      rw [show r = none from next]
      rfl
    | some j =>
      rw [found] at next
      exact next
  | true =>
    show _ = t.parentOf i (elem :: elems)
    rw [Tree.parentOf_cons dir elem fun last => more ⟨rfl, last⟩]
    cases found : t.child i elem with
    | none =>
      rw [found] at next
      rw [show r = none from next]
      rfl
    | some j =>
      rw [found] at next
      exact next

/-! ## Paths -/

theorem strKey_eq {s : Bytes} {word : List UInt8} (nonzero : 0 ∉ word) {n i : Nat}
    (short : word.length ≤ n) (bytes : ∀ j (inside : j < word.length), s (i + j) = word[j])
    (ended : word.length < n → s (i + word.length) = 0) : strKey s n i = word := by
  induction word generalizing n i with
  | nil =>
    cases n with
    | zero => rfl
    | succ n => exact if_pos (ended (Nat.succ_pos n))
  | cons c word ih =>
    cases n with
    | zero => cases short
    | succ n =>
      have first : s i = c := bytes 0 (Nat.succ_pos _)
      have other : c ≠ 0 := fun zero => nonzero (zero ▸ List.mem_cons_self)
      rw [strKey, first, if_neg other]
      refine congrArg (c :: ·) (ih (fun mem => nonzero (List.mem_cons_of_mem _ mem))
        (Nat.le_of_succ_le_succ short) (fun j inside => ?_) fun room => ?_)
      · have := bytes (j + 1) (Nat.succ_lt_succ inside)
        rwa [← Nat.add_assoc, Nat.add_right_comm] at this
      · have := ended (Nat.succ_lt_succ room)
        rwa [List.length_cons, ← Nat.add_assoc, Nat.add_right_comm] at this

/-- The kernel sees the element in the buffer. -/
theorem nameKey_copyElem {elem : List UInt8} (nonzero : 0 ∉ elem) (short : elem.length ≤ dirsiz)
    (name : Bytes) : nameKey (copyElem elem name) = elem := by
  refine strKey_eq nonzero short (fun j inside => ?_) fun room => ?_
  · unfold copyElem
    rw [Nat.zero_add]
    split
    · simp [Bytes.copy, Bytes.ofList, inside, show j < dirsiz by omega]
    · rw [update_of_ne (by omega)]
      simp [Bytes.copy, Bytes.ofList, inside]
  · rw [copyElem, if_neg (by omega), Nat.zero_add, update_self]

/-- The last element of a path, as `skipelem` leaves it in the buffer. -/
def lastElem (path : List UInt8) (name : Bytes) : Option Bytes :=
  match _ : skipelem path name with
  | none => none
  | some (rest, name) => if rest = [] then some name else lastElem rest name
  termination_by path.length
  decreasing_by exact skipelem_shorter ‹_›

theorem lastElem_eq {path rest : List UInt8} {name name' : Bytes}
    (next : skipelem path name = some (rest, name')) :
    lastElem path name = if rest = [] then some name' else lastElem rest name' := by
  rw [lastElem]
  split
  · next none_left => rw [none_left] at next; cases next
  · next found =>
      rw [found] at next
      cases next
      rfl

/-- What `namex` leaves: nothing, or a reference to the inode it returns, which is
a directory if the parent was asked for. -/
def Walked (k₀ : Kernel) (nameiparent : Bool) (path : List UInt8) (name : Bytes) :
    Option (IPtr × Bytes) → Kernel → Prop
  | none, k => Holding k₀ [] [] k ∧ SameFiles k₀ k
  | some (p, name'), k => ∃ i, Holding k₀ [(p, i)] [] k ∧ SameFiles k₀ k ∧
      (nameiparent = true → (k₀.disk i).type = tDir ∧ lastElem path name = some name')

/-- The loop of `namex` follows the tree that the call has found. -/
theorem namexLoop_follows (fit : k₀.Fit) (nameiparent : Bool) {path : List UInt8} {clean : Prop}
    (known : clean → ∀ elem ∈ elements path, 0 ∉ elem) (name : Bytes)
    (h : Holding k₀ [(p, i)] [] k) (same : SameFiles k₀ k) :
    wp (namexLoop nameiparent p path name) (fun r k' => Walked k₀ nameiparent path name r k' ∧
      (clean → Resolves k₀.tree i (elements path) nameiparent r k')) Awake k := by
  have short : ∀ elem ∈ elements path, elem.length ≤ dirsiz := fun _ => elements_short
  have mem : (p, i) ∈ [(p, i)] := List.mem_singleton_self _
  induction elems : elements path generalizing path name p i k with
  | nil =>
    rw [namexLoop_ended (skipelem_none elems name)]
    refine wp_ite (fun parent => ?_) fun no => ?_
    · subst parent
      apply wp_seq (iput_same h fit same List.not_mem_nil)
      exact fun _ _ done => ⟨done, fun _ => rfl⟩
    · obtain rfl : nameiparent = false := by simpa using no
      exact ⟨⟨i, h, same, fun yes => absurd yes no⟩, fun _ => congrArg some (h.inum p i mem)⟩
  | cons elem elems ih =>
    have lock : p ∈ [p] := List.mem_singleton_self _
    have unlock := only_lock p
    have inside : i < k₀.sb.icap := by
      have := h.inside mem
      rwa [h.sb] at this
    obtain ⟨rest, next, tail, last⟩ := skipelem_some elems name
    have first_mem : elem ∈ elements path := elems ▸ List.mem_cons_self
    have word : clean → nameKey (copyElem elem name) = elem := fun holds =>
      nameKey_copyElem (known holds elem first_mem) (short elem first_mem) name
    rw [namexLoop_next next]
    apply wp_seq (ilock_holds h mem List.not_mem_nil)
    rintro _ k₁ ⟨h₁, same₁⟩
    replace same₁ := same.trans same₁
    have type : (k₁.icache p).dinode.type = (k₀.disk i).type := by
      rw [(h₁.copy mem lock).1, same₁.disk i inside]
    rw [wp_bind, wp_get, type]
    refine wp_ite (fun other => ?_) fun isDir => ?_
    · apply wp_seq (iunlockput_same h₁ fit same₁ lock unlock)
      exact fun _ k₂ done =>
        ⟨done, fun _ => Resolves.leaf (by simpa [Kernel.tree] using other) _ _ _⟩
    · rw [not_not] at isDir
      have dir : k₀.tree.isDir i = true := Kernel.tree_isDir.mpr isDir
      refine wp_ite (fun early => ?_) fun more => ?_
      · apply wp_seq (iunlock_holds h₁ lock unlock)
        rintro _ k₂ ⟨h₂, same₂⟩
        obtain ⟨rfl, ended⟩ := early
        refine ⟨⟨i, h₂, same₁.trans same₂, fun _ => ⟨isDir, ?_⟩⟩, fun holds => ?_⟩
        · rw [lastElem_eq next, if_pos ended]
        · obtain rfl := last.mp ended
          show some ((k₂.icache p).inum, nameKey (copyElem elem name)) = k₀.tree.parentOf i [elem]
          rw [Tree.parentOf_single dir, h₂.inum p i mem, word holds]
      · apply wp_seq (dirlookup_holds h₁ mem lock (by rw [same₁.disk i inside]; exact isDir)
          (copyElem elem name))
        intro found k₂ looked
        match found, looked with
        | none, ⟨h₂, same₂, absent⟩ =>
          simp only
          apply wp_seq (iunlockput_same h₂ fit (same₁.trans same₂) lock unlock)
          refine fun _ k₃ done => ⟨done, fun holds => ?_⟩
          refine Resolves.step dir (by rwa [last] at more) ?_
          rw [same₁.entries inside, word holds] at absent
          show match ((k₀.entries i).lookup elem).map UInt16.toNat with
            | none => _
            | some j => _
          rw [Slots.lookup_eq_none absent]
          rfl
        | some (q, _), ⟨_, v, h₂, same₂, _, first⟩ =>
          simp only
          apply wp_seq (iunlockput_same (h₂.perm (List.Perm.swap _ _ _)) fit
            (same₁.trans same₂) lock unlock)
          rintro _ k₃ ⟨h₃, same₃⟩
          have later : ∀ elem ∈ elements rest, elem ∈ elements path := fun elem mem => by
            rw [elems]
            exact List.mem_cons_of_mem _ (tail ▸ mem)
          apply wp_post (ih (fun holds elem mem => known holds elem (later elem mem))
            (copyElem elem name) h₃ same₃ (fun elem mem => short elem (later elem mem))
            (List.mem_singleton_self _) tail)
          rintro r k₄ ⟨walked, resolved⟩
          refine ⟨?_, fun holds => Resolves.step dir (by rwa [last] at more) ?_⟩
          · match r, walked with
            | none, walked => exact walked
            | some (q, name''), ⟨j, h₄, same₄, parent⟩ =>
              refine ⟨j, h₄, same₄, fun yes => ?_⟩
              rw [lastElem_eq next, if_neg fun no => more ⟨yes, no⟩]
              exact parent yes
          · rw [same₁.entries inside, word holds] at first
            show match ((k₀.entries i).lookup elem).map UInt16.toNat with
              | none => _
              | some j => _
            rw [first.lookup]
            exact resolved holds

theorem namex_follows (fit : k.Fit) (free : ∀ q, (k.icache q).locked = false) {cwd : IPtr}
    (used : 0 < (k.icache cwd).ref) (path : List UInt8) (nameiparent : Bool) (name : Bytes) :
    wp (namex cwd path nameiparent name) (fun r k' => Walked k nameiparent path name r k' ∧
      (0 ∉ path → Resolves k.tree (k.pathStart cwd path) (elements path) nameiparent r k'))
      Awake k := by
  have h := Holding.refl fit free
  have known : 0 ∉ path → ∀ elem ∈ elements path, 0 ∉ elem := fun nonzero _ =>
    elements_nonzero nonzero
  unfold namex Kernel.pathStart
  refine wp_ite (fun rooted => ?_) fun relative => ?_
  · rw [if_pos rooted]
    apply wp_seq (iget_holds h ⟨Nat.one_pos, fit.root⟩)
    rintro p k₁ ⟨h₁, same⟩
    exact namexLoop_follows fit nameiparent known name h₁ same
  · rw [if_neg relative]
    apply wp_seq (idup_holds h used)
    rintro p k₁ ⟨rfl, h₁, same⟩
    exact namexLoop_follows fit nameiparent known name h₁ same

theorem namex_walked (fit : k.Fit) (free : ∀ q, (k.icache q).locked = false) {cwd : IPtr}
    (used : 0 < (k.icache cwd).ref) (path : List UInt8) (nameiparent : Bool) (name : Bytes) :
    wp (namex cwd path nameiparent name) (Walked k nameiparent path name) Awake k :=
  wp_post (namex_follows fit free used path nameiparent name) fun _ _ => And.left

/-- What `namei` leaves. -/
def Named (k₀ : Kernel) : Option IPtr → Kernel → Prop
  | none, k => Holding k₀ [] [] k ∧ SameFiles k₀ k
  | some p, k => ∃ i, Holding k₀ [(p, i)] [] k ∧ SameFiles k₀ k

theorem namei_named (fit : k.Fit) (free : ∀ q, (k.icache q).locked = false) {cwd : IPtr}
    (used : 0 < (k.icache cwd).ref) (path : List UInt8) (name : Bytes) :
    wp (namei cwd path name) (Named k) Awake k := by
  unfold namei
  apply wp_seq (namex_walked fit free used path false name)
  intro r k' walked
  match r, walked with
  | none, walked => exact walked
  | some (p, _), ⟨i, h, same, _⟩ => exact ⟨i, h, same⟩

end

end BasicOS
