/-
# BasicOS.Sys.Names — what create does to the tree

The effect of a call is a list of changes (`Changed`): an inode is made, a link
count goes up or down, a slot of a directory is filled or emptied, a reference is
dropped.  Each change says what it has found, at the state the changes before it
have led to.

`create` returns nothing and has changed nothing, or it returns an inode that was
there or is new.  It finds the names it enters absent, so that its own panics are
never reached.
-/
import BasicOS.Sys.Change

namespace BasicOS

open Lib Function
open Lib.Prog

set_option autoImplicit false

/-! ## Changes -/

/-- Inode `i` is freed, with its bytes. -/
structure FreedFile (i : Nat) (k k' : Kernel) : Prop where
  sb : k'.sb = k.sb
  typed : (k.disk i).type ≠ 0
  unlinked : (k.disk i).nlink = 0
  disk : ∀ j < k.sb.icap, j ≠ i → k'.disk j = k.disk j
  gone : (k'.disk i).type = 0
  content : ∀ j, j ≠ i → k'.content j = k.content j

inductive Change where
  /-- A free inode becomes one with one link. -/
  | make (i : Nat) (type major minor : Int16)
  /-- The link count of inode `i` changes by `n`. -/
  | links (i : Nat) (n : Int16)
  /-- Slot `e` of directory `d` is filled, under a name that was not there. -/
  | enter (d e : Nat) (key : List UInt8) (i : Nat)
  /-- Slot `e` of directory `d` is emptied. -/
  | erase (d e : Nat) (key : List UInt8) (i : Nat)
  /-- A reference is dropped; if it was the last one to an inode without links,
  the inode is freed. -/
  | drop (i : Nat)

def Change.Of : Change → Kernel → Kernel → Prop
  | .make i type major minor, k, k' =>
    0 < i ∧ (k.disk i).type = 0 ∧ Edited i (.created type major minor) k k'
  | .links i n, k, k' => Edited i ((k.disk i).relinked n) k k'
  | .enter d e key i, k, k' => (k.disk d).type = tDir ∧ (∀ v, ¬ (k.entries d).Binds key v) ∧
      (k.entries d).Free e ∧ Entered d e (some (key, UInt16.ofNat i)) k k'
  | .erase d e key i, k, k' => (k.disk d).type = tDir ∧
      (∃ v, (k.entries d).At e key v ∧ v.toNat = i) ∧ Entered d e none k k'
  | .drop i, k, k' => SameFiles k k' ∨ FreedFile i k k'

/-- These changes have been made, in this order, and no others. -/
def Changed : List Change → Kernel → Kernel → Prop
  | [], k, k' => SameFiles k k'
  | c :: cs, k, k' => ∃ k₁ k₂, SameFiles k k₁ ∧ c.Of k₁ k₂ ∧ Changed cs k₂ k'

section

variable {k k' k'' k₀ : Kernel} {p ip dp cwd : IPtr} {i d : Nat} {held : List (IPtr × Nat)}
  {locks locks' : List IPtr} {cs cs' : List Change} {c : Change}

theorem SameFiles.changed (same : SameFiles k k') : Changed [] k k' :=
  same

theorem Change.Of.changed (made : c.Of k k') : Changed [c] k k' :=
  ⟨k, k', SameFiles.refl k, made, SameFiles.refl k'⟩

theorem SameFiles.andThen (same : SameFiles k k') (later : Changed cs k' k'') :
    Changed cs k k'' := by
  cases cs with
  | nil => exact same.trans later
  | cons c cs =>
    obtain ⟨k₁, k₂, same₁, made, rest⟩ := later
    exact ⟨k₁, k₂, same.trans same₁, made, rest⟩

theorem Changed.andThen (first : Changed cs k k') (later : Changed cs' k' k'') :
    Changed (cs ++ cs') k k'' := by
  induction cs generalizing k with
  | nil => exact SameFiles.andThen first later
  | cons c cs ih =>
    obtain ⟨k₁, k₂, same, made, rest⟩ := first
    exact ⟨k₁, k₂, same, made, ih rest⟩

theorem Changed.thenSame (first : Changed cs k k') (same : SameFiles k' k'') :
    Changed cs k k'' := by
  have all := first.andThen same.changed
  rwa [List.append_nil] at all

/-! ## Dropping references -/

section

variable (h : Holding k₀ ((p, i) :: held) locks k)

include h

theorem Released.dropped (released : Released p k k') :
    (Change.drop i).Of k k' := by
  have mem : (p, i) ∈ (p, i) :: held := List.mem_cons_self
  have inum := h.inum p i mem
  unfold Released at released
  split at released
  case isTrue last =>
    obtain ⟨valid, unlinked, -⟩ := last
    obtain ⟨-, copy, typed⟩ := h.fit.ok.cache p (h.used mem) valid
    have disk := released.disk
    have gone := released.gone
    have content := released.content
    rw [inum] at disk gone content
    rw [copy, inum] at unlinked typed
    exact .inr ⟨released.sound.sb, typed, unlinked, disk, gone, content⟩
  case isFalse =>
    subst released
    exact .inl (SameFiles.setInode _ _ _)

theorem iput_drops (free : p ∉ locks) :
    wp (iput p) (fun _ k' => Holding k₀ held locks k' ∧ Changed [.drop i] k k') Awake k := by
  apply wp_post (iput_holds h free)
  rintro _ k' ⟨after, released⟩
  exact ⟨after, (released.dropped h).changed⟩

theorem iunlockput_drops (lock : p ∈ locks)
    (rest : ∀ q, q ∈ locks' ↔ q ∈ locks ∧ q ≠ p) :
    wp (iunlockput p) (fun _ k' => Holding k₀ held locks' k' ∧ Changed [.drop i] k k') Awake k := by
  unfold iunlockput
  apply wp_seq (iunlock_holds h lock rest)
  rintro _ k₁ ⟨after, same⟩
  apply wp_post (iput_drops after (by simp [rest]))
  rintro _ k' ⟨done, dropped⟩
  exact ⟨done, same.andThen dropped⟩

end

/-- References are dropped, and nothing else changes. -/
def Drops (k k' : Kernel) : Prop :=
  ∃ is : List Nat, Changed (is.map Change.drop) k k'

theorem SameFiles.drops (same : SameFiles k k') : Drops k k' :=
  ⟨[], same⟩

theorem Drops.trans (first : Drops k k') (second : Drops k' k'') :
    Drops k k'' := by
  obtain ⟨is, first⟩ := first
  obtain ⟨js, second⟩ := second
  refine ⟨is ++ js, ?_⟩
  rw [List.map_append]
  exact first.andThen second

/-- A link count that goes up and down again is as it was. -/
theorem Edited.undo {n : Int16} (up : Edited i ((k.disk i).relinked n) k k')
    (down : Edited i ((k'.disk i).relinked (-n)) k' k'') : SameFiles k k'' := by
  refine ⟨down.sb.trans up.sb, fun j inside => ?_, fun j => ?_⟩
  · rw [down.disk j (by rw [up.sb]; exact inside)]
    by_cases here : j = i
    · subst here
      rw [if_pos rfl, up.disk j inside, if_pos rfl]
      simp [Dinode.relinked, Int16.add_assoc, Int16.add_right_neg]
    · rw [if_neg here, up.disk j inside, if_neg here]
  · rw [down.content, up.content]

/-! ## What a change leaves alone -/

/-- The inode that a change may make or free. -/
def Change.inode : Change → Option Nat
  | .make i _ _ _ | .drop i => some i
  | .links _ _ | .enter _ _ _ _ | .erase _ _ _ _ => none

/-- The inode whose bytes a change may change. -/
def Change.table : Change → Option Nat
  | .make i _ _ _ | .enter i _ _ _ | .erase i _ _ _ | .drop i => some i
  | .links _ _ => none

theorem Change.Of.sb (made : c.Of k k') : k'.sb = k.sb := by
  cases c with
  | make i type major minor => exact made.2.2.sb
  | links i n => exact Edited.sb made
  | enter d e key i => exact made.2.2.2.sb
  | erase d e key i => exact made.2.2.sb
  | drop i =>
    rcases made with same | freed
    · exact same.sb
    · exact freed.sb

theorem Entered.type {e : Nat} {x : Option (List UInt8 × UInt16)} (entered : Entered d e x k k') :
    (k'.disk d).type = (k.disk d).type := by
  obtain ⟨size, h, disk⟩ := entered.inode
  rw [disk]

theorem Change.Of.type (made : c.Of k k') {j : Nat} (inside : j < k.sb.icap)
    (other : c.inode ≠ some j) : (k'.disk j).type = (k.disk j).type := by
  have entered : ∀ {d e x}, Entered d e x k k' → (k'.disk j).type = (k.disk j).type := by
    intro d e x entered
    by_cases here : j = d
    · rw [here]
      exact entered.type
    · rw [entered.disk j inside here]
  cases c with
  | make i type major minor =>
    have apart : j ≠ i := fun here => other (congrArg some here.symm)
    rw [made.2.2.disk j inside, if_neg apart]
  | links i n =>
    rw [Edited.disk made j inside]
    split
    · next here => rw [here]; rfl
    · rfl
  | enter d e key i => exact entered made.2.2.2
  | erase d e key i => exact entered made.2.2
  | drop i =>
    rcases made with same | freed
    · rw [same.disk j inside]
    · rw [freed.disk j inside fun here => other (congrArg some here.symm)]

theorem Change.Of.table (made : c.Of k k') {j : Nat} (inside : j < k.sb.icap)
    (other : c.table ≠ some j) : k'.size j = k.size j ∧ k'.content j = k.content j := by
  unfold Kernel.size
  cases c with
  | make i type major minor =>
    have apart : j ≠ i := fun here => other (congrArg some here.symm)
    rw [made.2.2.disk j inside, if_neg apart]
    exact ⟨rfl, made.2.2.content j⟩
  | links i n =>
    rw [Edited.disk made j inside]
    refine ⟨?_, Edited.content made j⟩
    split
    · next here => rw [here]; rfl
    · rfl
  | enter d e key i =>
    have apart : j ≠ d := fun here => other (congrArg some here.symm)
    rw [made.2.2.2.disk j inside apart]
    exact ⟨rfl, made.2.2.2.content j apart⟩
  | erase d e key i =>
    have apart : j ≠ d := fun here => other (congrArg some here.symm)
    rw [made.2.2.disk j inside apart]
    exact ⟨rfl, made.2.2.content j apart⟩
  | drop i =>
    rcases made with same | freed
    · rw [same.disk j inside]
      exact ⟨rfl, same.content j⟩
    · have apart : j ≠ i := fun here => other (congrArg some here.symm)
      rw [freed.disk j inside apart]
      exact ⟨rfl, freed.content j apart⟩

theorem Changed.type (changed : Changed cs k k') {j : Nat} (inside : j < k.sb.icap)
    (other : ∀ c ∈ cs, c.inode ≠ some j) : (k'.disk j).type = (k.disk j).type := by
  induction cs generalizing k with
  | nil => rw [SameFiles.disk changed j inside]
  | cons c cs ih =>
    obtain ⟨k₁, k₂, same, made, rest⟩ := changed
    have inside₁ : j < k₁.sb.icap := by rwa [same.sb]
    rw [ih rest (by rwa [made.sb]) fun c mem => other c (List.mem_cons_of_mem _ mem),
      made.type inside₁ (other c List.mem_cons_self), same.disk j inside]

theorem Changed.table (changed : Changed cs k k') {j : Nat} (inside : j < k.sb.icap)
    (other : ∀ c ∈ cs, c.table ≠ some j) : k'.size j = k.size j ∧ k'.content j = k.content j := by
  induction cs generalizing k with
  | nil => exact ⟨SameFiles.size changed inside, SameFiles.content changed j⟩
  | cons c cs ih =>
    obtain ⟨k₁, k₂, same, made, rest⟩ := changed
    have inside₁ : j < k₁.sb.icap := by rwa [same.sb]
    obtain ⟨size, content⟩ := ih rest (by rwa [made.sb])
      fun c mem => other c (List.mem_cons_of_mem _ mem)
    obtain ⟨size₁, content₁⟩ := made.table inside₁ (other c List.mem_cons_self)
    exact ⟨size.trans (size₁.trans (same.size inside)),
      content.trans (content₁.trans (same.content j))⟩

theorem Changed.entries (changed : Changed cs k k') (inside : d < k.sb.icap)
    (other : ∀ c ∈ cs, c.table ≠ some d) : k'.entries d = k.entries d := by
  obtain ⟨size, content⟩ := changed.table inside other
  exact entries_congr size content

/-! ## create -/

theorem nameKey_dot : nameKey dot = [46] := by decide

theorem nameKey_dotdot : nameKey dotdot = [46, 46] := by decide

theorem entries_empty (empty : k.size d = 0) : (k.entries d).len = 0 := by
  simp [Kernel.entries, empty]

/-- A name that is not bound is not bound to a locked inode. -/
theorem Kernel.apart_of_absent {name : Bytes}
    (absent : ∀ v, ¬ (k.entries (k.icache dp).inum).Binds (nameKey name) v) : k.Apart dp name :=
  fun _ v _ bound => absurd bound (absent v)

/-- `dirlink` of a name that is absent enters it. -/
theorem dirlink_enters (h : Holding k₀ held locks k) (mem : (dp, d) ∈ held) (lock : dp ∈ locks)
    (dir : (k.disk d).type = tDir) {name : Bytes} {key : List UInt8} (named : nameKey name = key)
    (absent : ∀ v, ¬ (k.entries d).Binds key v) (inside : i < k.sb.icap) (positive : 0 < i)
    (other : i = d → key = [46] ∨ key = [46, 46]) :
    wp (dirlink dp name i) (fun linked k' => linked = true ∧ Holding k₀ held locks k' ∧
      ∃ e, (∀ j < e, (k.entries d).cell j ≠ none) ∧ (Change.enter d e key i).Of k k') Awake k := by
  subst named
  apply wp_mono (dirlink_holds h mem lock dir name inside positive other)
  · intro linked k' result
    match linked, result with
    | false, ⟨_, _, v, bound⟩ => exact absurd bound (absent v)
    | true, ⟨after, _, e, free, before, entered⟩ =>
      exact ⟨rfl, after, e, before, dir, absent, free, entered⟩
  · rintro x (awake | ⟨-, no⟩)
    · exact awake
    · refine absurd (Kernel.apart_of_absent ?_) no
      rw [h.inum dp d mem]
      exact absent

theorem createDots_holds (h : Holding k₀ held locks k) (memD : (dp, d) ∈ held) (lockD : dp ∈ locks)
    (memI : (ip, i) ∈ held) (lockI : ip ∈ locks) (dir : (k.disk i).type = tDir)
    (empty : k.size i = 0) :
    wp (createDots dp ip) (fun _ k' => Holding k₀ held locks k' ∧
      Changed [.links d 1, .enter i 0 [46] i, .enter i 1 [46, 46] d] k k') Awake k := by
  have insideI := h.inside memI
  unfold createDots
  apply wp_seq (relink_holds h memD lockD 1)
  rintro _ k₁ ⟨h₁, edited⟩
  have first : (Change.links d 1).Of k k₁ := edited
  have dir₁ : (k₁.disk i).type = tDir := by rw [first.type insideI (by simp [Change.inode]), dir]
  have empty₁ : (k₁.entries i).len = 0 := by
    apply entries_empty
    rw [(first.table insideI (by simp [Change.table])).1, empty]
  rw [wp_bind, wp_get, wp_bind, h₁.inum ip i memI]
  apply wp_post (dirlink_enters h₁ memI lockI dir₁ nameKey_dot
    (Slots.not_binds_of_empty empty₁ _) (h₁.inside memI) (h₁.area memI).1 fun _ => .inl rfl)
  rintro _ k₂ ⟨rfl, h₂, e, -, second⟩
  -- the table was empty
  obtain rfl : e = 0 := by
    have := second.2.2.1.le_len
    omega
  rw [if_neg Bool.true_eq_false_eq_False, wp_bind, h₁.inum dp d memD]
  have entries₂ := second.2.2.2.entries
  have dir₂ : (k₂.disk i).type = tDir := by rw [second.2.2.2.type, dir₁]
  have absent : ∀ v, ¬ (k₂.entries i).Binds [46, 46] v := by
    intro v bound
    rw [entries₂, Slots.binds_fill second.2.2.1] at bound
    rcases bound with ⟨no, -⟩ | old
    · cases no
    · exact Slots.not_binds_of_empty empty₁ _ _ old
  apply wp_post (dirlink_enters h₂ memI lockI dir₂ nameKey_dotdot absent (h₂.inside memD)
    (h₂.area memD).1 fun _ => .inr rfl)
  rintro _ k₃ ⟨rfl, h₃, e, before, third⟩
  -- slot 0 is taken now
  obtain rfl : e = 1 := by
    have length : (k₂.entries i).len = 1 := by
      rw [entries₂, Slots.put, empty₁]
      rfl
    have low := third.2.2.1.le_len
    rcases third.2.2.1 with ⟨inside, free⟩ | last
    · obtain rfl : e = 0 := by omega
      simp [entries₂, Slots.put] at free
    · omega
  rw [if_neg Bool.true_eq_false_eq_False]
  exact ⟨h₃, first.changed.andThen (second.changed.andThen third.changed)⟩

/-- What `create` does when the name is not there. -/
def newChanges (i d e : Nat) (key : List UInt8) (type major minor : Int16) : List Change :=
  .make i type major minor ::
    (if type = tDir then [.links d 1, .enter i 0 [46] i, .enter i 1 [46, 46] d] else []) ++
    [.enter d e key i, .drop d]

theorem createNew_holds (h : Holding k₀ [(dp, d)] [dp] k) (dir : (k.disk d).type = tDir)
    {name : Bytes} (absent : ∀ v, ¬ (k.entries d).Binds (nameKey name) v)
    {type major minor : Int16} (typed : type ≠ 0) :
    wp (createNew dp name type major minor) (fun made k' => ∃ ip i e, made = some ip ∧
      Holding k₀ [(ip, i)] [ip] k' ∧ i ≠ d ∧
      Changed (newChanges i d e (nameKey name) type major minor) k k') Awake k := by
  have insideD := h.inside (List.mem_singleton_self _)
  unfold createNew
  apply wp_seq (createInode_holds h typed)
  rintro ip k₁ ⟨i, h₁, notLocked, positive, free, edited⟩
  have memI : (ip, i) ∈ [(ip, i), (dp, d)] := by simp
  have memD : (dp, d) ∈ [(ip, i), (dp, d)] := by simp
  have apart : i ≠ d := by
    rintro rfl
    rw [free] at dir
    cases dir
  have made : (Change.make i type major minor).Of k k₁ := ⟨positive, free, edited⟩
  have insideI : i < k.sb.icap := by
    have := h₁.inside memI
    rwa [edited.sb] at this
  -- from here on with or without the dots
  have rest : ∀ {dots k₂}, Holding k₀ [(ip, i), (dp, d)] [ip, dp] k₂ → Changed dots k₁ k₂ →
      (∀ c ∈ dots, c.table ≠ some d ∧ c.inode ≠ some d) →
      wp (do
        let k ← get
        let linked ← dirlink dp name (k.icache ip).inum
        if linked = false then throw (.panic "create: dirlink")
        else
          iunlockput dp
          return some ip) (fun made k' => made = some ip ∧ Holding k₀ [(ip, i)] [ip] k' ∧
        ∃ e, Changed (.make i type major minor :: dots ++
          [.enter d e (nameKey name) i, .drop d]) k k') Awake k₂ := by
    intro dots k₂ h₂ changed spared
    have insideD₁ : d < k₁.sb.icap := by rwa [edited.sb]
    have other : (Change.make i type major minor).table ≠ some d := by simp [Change.table, apart]
    have dir₂ : (k₂.disk d).type = tDir := by
      rw [changed.type insideD₁ fun c mem => (spared c mem).2,
        made.type insideD (by simp [Change.inode, apart]), dir]
    have entries₂ : k₂.entries d = k.entries d := by
      rw [changed.entries insideD₁ fun c mem => (spared c mem).1]
      exact made.changed.entries insideD (by simpa using other)
    rw [wp_bind, wp_get, wp_bind, h₂.inum ip i memI]
    apply wp_post (dirlink_enters h₂ memD (by simp) dir₂ rfl (by rw [entries₂]; exact absent)
      (h₂.inside memI) positive fun same => absurd same apart)
    rintro _ k₃ ⟨rfl, h₃, e, -, entered⟩
    rw [if_neg Bool.true_eq_false_eq_False, wp_bind]
    have unlock : ∀ q, q ∈ [ip] ↔ q ∈ [ip, dp] ∧ q ≠ dp := by
      intro q
      have : ip ≠ dp := fun same => notLocked (by simp [same])
      aesop
    apply wp_post (iunlockput_drops (h₃.perm (List.Perm.swap _ _ _)) (by simp) unlock)
    rintro _ k₄ ⟨h₄, dropped⟩
    refine ⟨rfl, h₄, e, ?_⟩
    exact made.changed.andThen (changed.andThen (entered.changed.andThen dropped))
  refine wp_ite (fun isDir => ?_) fun notDir => ?_
  · rw [wp_bind]
    have disk : k₁.disk i = .created type major minor := by rw [edited.disk i insideI, if_pos rfl]
    apply wp_post (createDots_holds h₁ memD (by simp) memI (by simp)
      (by rw [disk]; exact isDir) (by rw [Kernel.size, disk]; rfl))
    rintro _ k₂ ⟨h₂, changed⟩
    apply wp_post (rest h₂ changed (by simp [Change.table, Change.inode, apart]))
    rintro _ k' ⟨rfl, h', e, all⟩
    refine ⟨ip, i, e, rfl, h', apart, ?_⟩
    rwa [newChanges, if_pos isDir]
  · apply wp_post (rest h₁ (SameFiles.refl k₁).changed (by simp))
    rintro _ k' ⟨rfl, h', e, all⟩
    refine ⟨ip, i, e, rfl, h', apart, ?_⟩
    rwa [newChanges, if_neg notDir]

/-- What `create` leaves: the inode of a file that was there, or a new one. -/
def Created (k₀ : Kernel) (type major minor : Int16) : Option IPtr → Kernel → Prop
  | none, k => Holding k₀ [] [] k ∧ SameFiles k₀ k
  | some ip, k => ∃ i, Holding k₀ [(ip, i)] [ip] k ∧ (k.disk i).type = type ∧
      (type = tFile ∧ SameFiles k₀ k ∨
        ∃ d e key, i < k₀.sb.icap ∧ d < k₀.sb.icap ∧ i ≠ d ∧
          Changed (newChanges i d e key type major minor) k₀ k)

theorem newChanges_type {e : Nat} {key : List UInt8} {type major minor : Int16}
    (inside : i < k.sb.icap) (apart : i ≠ d)
    (changed : Changed (newChanges i d e key type major minor) k k') :
    (k'.disk i).type = type := by
  rw [newChanges, List.cons_append] at changed
  obtain ⟨k₁, k₂, same, ⟨-, -, edited⟩, rest⟩ := changed
  have inside₁ : i < k₁.sb.icap := by rwa [same.sb]
  have kept := rest.type (j := i) (by rwa [edited.sb]) (by
    intro c mem
    simp only [List.mem_append, List.mem_cons, List.not_mem_nil, or_false] at mem
    rcases mem with dots | rfl | rfl
    · split at dots
      · simp only [List.mem_cons, List.not_mem_nil, or_false] at dots
        rcases dots with rfl | rfl | rfl <;> simp [Change.inode]
      · cases dots
    · simp [Change.inode]
    · simp [Change.inode, Ne.symm apart])
  rw [kept, edited.disk i inside₁, if_pos rfl]
  rfl

theorem createFound_holds {v : Nat} (h : Holding k₀ [(ip, v), (dp, d)] [dp] k) (fit : k₀.Fit)
    (same : SameFiles k₀ k) (type major minor : Int16) :
    wp (createFound dp ip type) (Created k₀ type major minor) Awake k := by
  unfold createFound
  apply wp_seq (iunlockput_same (h.perm (List.Perm.swap _ _ _)) fit same (by simp) (only_lock _))
  rintro _ k₁ ⟨h₁, same₁⟩
  apply wp_seq (ilock_holds h₁ (List.mem_singleton_self _) List.not_mem_nil)
  rintro _ k₂ ⟨h₂, same₂⟩
  have copy := (h₂.copy (List.mem_singleton_self _) (List.mem_singleton_self _)).1
  replace same₂ := same₁.trans same₂
  rw [wp_bind, wp_get]
  refine wp_ite (fun isFile => ?_) fun _ => ?_
  · refine ⟨v, h₂, ?_, .inl ⟨isFile.1, same₂⟩⟩
    rw [← copy, isFile.2, isFile.1]
  · rw [wp_bind]
    exact iunlockput_same h₂ fit same₂ (by simp) (by simp)

theorem create_holds (fit : k.Fit) (free : ∀ q, (k.icache q).locked = false)
    (used : 0 < (k.icache cwd).ref) (path : List UInt8) {type major minor : Int16}
    (typed : type ≠ 0) (name : Bytes) :
    wp (create cwd path type major minor name) (Created k type major minor) Awake k := by
  unfold create nameiparent
  apply wp_seq (namex_walked fit free used path true name)
  intro parent k₁ walked
  match parent, walked with
  | none, walked => exact walked
  | some (dp, name'), ⟨d, h₁, same₁, parent⟩ =>
    have mem : (dp, d) ∈ [(dp, d)] := List.mem_singleton_self _
    have inside : d < k.sb.icap := by
      have := h₁.inside mem
      rwa [h₁.sb] at this
    have dir := (parent rfl).1
    simp only
    apply wp_seq (ilock_holds h₁ mem List.not_mem_nil)
    rintro _ k₂ ⟨h₂, same₂⟩
    replace same₂ := same₁.trans same₂
    have dir₂ : (k₂.disk d).type = tDir := by rw [same₂.disk d inside, dir]
    apply wp_seq (dirlookup_holds h₂ mem (by simp) dir₂ name')
    intro found k₃ looked
    match found, looked with
    | some (ip, _), ⟨_, v, h₃, same₃, _, _⟩ =>
      exact createFound_holds h₃ fit (same₂.trans same₃) type major minor
    | none, ⟨h₃, same₃, absent⟩ =>
      have inside₂ : d < k₂.sb.icap := by rwa [h₂.sb]
      have dir₃ : (k₃.disk d).type = tDir := by rw [same₃.disk d inside₂, dir₂]
      rw [← same₃.entries inside₂] at absent
      apply wp_post (createNew_holds h₃ dir₃ absent typed)
      rintro _ k₄ ⟨ip, i, e, rfl, h₄, apart, changed⟩
      replace changed := (same₂.trans same₃).andThen changed
      have insideI : i < k.sb.icap := by
        have := h₄.inside (List.mem_singleton_self _)
        rwa [h₄.sb] at this
      exact ⟨i, h₄, newChanges_type insideI apart changed,
        .inr ⟨d, e, nameKey name', insideI, inside, apart, changed⟩⟩

/-! ## Transactions -/

/-- The operation has begun. -/
structure Began (k k₁ : Kernel) : Prop where
  rested : k.Rested
  quiet : Quiet k k₁
  one : k₁.log.outstanding = 1

/-- The call is over: it has these references more than there were in `k`, and what
others have is as it was. -/
structure Returned (k : Kernel) (held : List (IPtr × Nat)) (k' : Kernel) : Prop where
  rested : k'.Rested
  ref : ∀ q, (k'.icache q).ref = (k.icache q).ref + refsTo held q
  keeps : ∀ q, 0 < (k.icache q).ref → (k.icache q).Kept (k'.icache q)

theorem Holding.returned (h : Holding k₀ held locks k) (rested : k'.Rested)
    (icache : k'.icache = k.icache) : Returned k₀ held k' := by
  refine ⟨rested, ?_, ?_⟩
  · rw [icache]
    exact h.ref
  · rw [icache]
    exact h.keeps

theorem Returned.of_icache {k₁ : Kernel} (returned : Returned k₁ held k')
    (icache : k₁.icache = k.icache) : Returned k held k' := by
  obtain ⟨rested, ref, keeps⟩ := returned
  rw [icache] at ref keeps
  exact ⟨rested, ref, keeps⟩

/-- `end_op` at the end of a call. -/
theorem endOp_ends {k₁ k₂ : Kernel} {E : Stop → Prop} (began : Began k k₁)
    (h : Holding k₁ held [] k₂) : wp endOp (fun _ k' => Returned k held k' ∧ Quiet k₂ k') E k₂ := by
  apply wp_post (endOp_rested h.fit h.free (h.outstanding.trans began.one))
  rintro _ k' ⟨rested, quiet⟩
  have returned := h.returned rested quiet.icache
  exact ⟨returned.of_icache began.quiet.icache, quiet⟩

theorem endOp_returns {k₁ k₂ : Kernel} (began : Began k k₁) (h : Holding k₁ held [] k₂) :
    wp endOp (fun _ k' => Returned k held k' ∧ SameFiles k₂ k') Awake k₂ := by
  apply wp_post (endOp_ends began h)
  rintro _ k' ⟨returned, quiet⟩
  exact ⟨returned, quiet.sameFiles⟩

end

end BasicOS
