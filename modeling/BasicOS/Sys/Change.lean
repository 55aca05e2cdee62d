/-
# BasicOS.Sys.Change — the changes that sysfile.c makes

The steps by which `create`, `link` and `unlink` change the tree, on the way of a
call (`Holding`): the fields of an inode are written (`Edited`), an inode is
allocated, an entry of a directory is written (`Entered`).
-/
import BasicOS.Fs.Walk
import BasicOS.Sys.Tree

namespace BasicOS

open Lib Function
open Lib.Prog

set_option autoImplicit false

section

variable {k k' k₀ : Kernel} {p dp : IPtr} {i d : Nat} {held : List (IPtr × Nat)}
  {locks : List IPtr}

/-! ## Fields of an inode -/

/-- The inode with number `i` has become `d` on disk. -/
structure Edited (i : Nat) (d : Dinode) (k k' : Kernel) : Prop where
  sb : k'.sb = k.sb
  disk : ∀ j < k.sb.icap, k'.disk j = if j = i then d else k.disk j
  content : ∀ j, k'.content j = k.content j

theorem Kernel.Ok.edited (ok : k.Ok) (lock : (k.icache p).locked = true) {d : Dinode}
    (addrs : d.addrs = (k.icache p).dinode.addrs) (size : d.size = (k.icache p).dinode.size)
    (typed : d.type ≠ 0) : Edited (k.icache p).inum d k ((k.edit p d).synced p) := by
  obtain ⟨used, valid⟩ := ok.locked p lock
  obtain ⟨area, copy, -⟩ := ok.cache p used valid
  have blocks := blocks_edit addrs (ok.working lock).blocks (fun zero => absurd zero typed)
    fun big => by
      rw [addrs, copy]
      rw [size, copy] at big
      exact ok.blocks.headed _ area big
  have area' : ((k.edit p d).icache p).inum < (k.edit p d).sb.icap := by
    rw [icache_edit]
    exact area
  refine ⟨rfl, ?_, ?_⟩
  · intro j _
    rw [disk_synced, cur_edit, ok.cur lock, update_apply]
  · intro j
    rw [content_synced blocks area', bytes_edit area addrs, ok.bytes lock]

/-- Writing back a locked inode of which only plain fields have changed. -/
theorem iupdate_holds (h : Holding k₀ held locks k) (mem : (p, i) ∈ held) (lock : p ∈ locks)
    {d : Dinode} (addrs : d.addrs = (k.disk i).addrs) (size : d.size = (k.disk i).size)
    (type : d.type = (k.disk i).type) :
    wp (iupdate p) (fun _ k' => Holding k₀ held locks k' ∧ Edited i d k k') Awake
      (k.edit p d) := by
  have ok := h.fit.ok
  have locked := (h.locked p).mpr lock
  obtain ⟨used, valid⟩ := ok.locked p locked
  obtain ⟨copy, typed⟩ := h.copy mem lock
  have inum := h.inum p i mem
  have calm : Calm [] (iupdate p) := iupdate_calm p
  have outstanding := calm.spent (k.edit p d)
  have written : wp (iupdate p) (fun _ k' => Grows k k' ∧ k' = (k.edit p d).synced p) Harmless
      (k.edit p d) :=
    iupdate_wp fun room =>
      ⟨ok.refield locked (by rw [copy, addrs]) (by rw [copy, size]) (by rw [type]; exact typed) room,
        rfl⟩
  apply wp_mono (wp_and written outstanding) ?_ fun _ stop => Spent.awake stop.2
  rintro _ k' ⟨⟨⟨sound, -, -⟩, rfl⟩, outstanding⟩
  have edited := ok.edited locked (d := d) (by rw [copy, addrs]) (by rw [copy, size])
    (by rw [type]; exact typed)
  rw [inum] at edited
  have here : ((k.edit p d).synced p).icache p = { k.icache p with dinode := d } :=
    icache_edit k p d
  have others : ∀ q, q ≠ p → ((k.edit p d).synced p).icache q = k.icache q :=
    fun q other => icache_edit_ne k other d
  have entry : ∀ q, (((k.edit p d).synced p).icache q).ref = (k.icache q).ref ∧
      (((k.edit p d).synced p).icache q).inum = (k.icache q).inum ∧
      (((k.edit p d).synced p).icache q).valid = (k.icache q).valid := by
    intro q
    by_cases eq : q = p
    · rw [eq, here]
      exact ⟨rfl, rfl, rfl⟩
    · rw [others q eq]
      exact ⟨rfl, rfl, rfl⟩
  have disk : ((k.edit p d).synced p).disk i = d := by
    rw [edited.disk i (h.inside mem), if_pos rfl]
  refine ⟨?_, edited⟩
  have fit : ((k.edit p d).synced p).Fit := by
    apply h.fit.change i sound.ok rfl
    · intro j inside other
      rw [edited.disk j inside, if_neg other]
    · exact fun j _ => edited.content j
    · intro q used
      rw [(entry q).1] at used
      rw [(entry q).2.1]
      exact h.fit.area q used
    · intro inside dir
      rw [disk, type] at dir
      refine (h.fit.dirs i inside dir).congr rfl ?_ (edited.content i)
      rw [Kernel.size, disk, size, Kernel.size]
    · intro _ _ _
      refine ⟨p, ?_⟩
      rw [here]
      exact ⟨used, inum, valid⟩
    · intro q used valid _ _
      obtain ⟨ref, inum, same⟩ := entry q
      rw [ref, inum, same]
      exact ⟨used, rfl, valid⟩
  apply h.change fit rfl outstanding others
  · rw [here]
    exact fun _ => ⟨rfl, fun valid => ⟨valid, by rw [copy]; exact type⟩⟩
  · rw [here]
  · exact fun _ _ => rfl
  · exact fun _ _ => .inr
  · rw [here]
    exact h.locked p
  · exact fun _ _ => Iff.rfl

/-- The inode with `n` more links. -/
def Dinode.relinked (d : Dinode) (n : Int16) : Dinode :=
  { d with nlink := d.nlink + n }

theorem relink_holds (h : Holding k₀ held locks k) (mem : (p, i) ∈ held) (lock : p ∈ locks)
    (n : Int16) :
    wp (relink p n) (fun _ k' => Holding k₀ held locks k' ∧ Edited i ((k.disk i).relinked n) k k')
      Awake k := by
  have edit : (k.setInode p { k.icache p with
      dinode := { (k.icache p).dinode with nlink := (k.icache p).dinode.nlink + n } }) =
      k.edit p ((k.disk i).relinked n) := by
    rw [← (h.copy mem lock).1]
    rfl
  unfold relink addLinks
  rw [wp_bind, wp_modify, edit]
  exact iupdate_holds h mem lock rfl rfl rfl

/-! ## New inodes -/

/-- The inode that `create` makes. -/
def Dinode.created (type major minor : Int16) : Dinode :=
  { Dinode.zero with type, major, minor, nlink := 1 }

/-- An inode of size zero, with nothing in it, is a directory in order. -/
theorem saneDir_empty (empty : k.size d = 0) : k.SaneDir d := by
  have none_bound : ∀ key v, ¬ (k.entries d).Binds key v := by
    rintro key v ⟨e, inside, -⟩
    have : k.size d / direntSize = 0 := by simp [empty]
    exact absurd inside (by simp [Kernel.entries, this])
  refine ⟨by simp [empty], fun bound => ?_, fun bound => ?_⟩
  · exact absurd bound (none_bound _ _)
  · exact absurd bound (none_bound _ _)

/-- What `ialloc` writes. -/
theorem fill_edited (ok : k.Ok) (area : i < k.sb.icap) (free : (k.disk i).type = 0) {d : Dinode}
    (addrs : ∀ j, d.addrs j = 0) :
    Edited i d k (k.put (k.sb.iblock i) (d.put (k.store (k.sb.iblock i)) (inodeOffset i))) := by
  have same : d.addrs = (k.disk i).addrs := by
    apply funext
    intro j
    rw [addrs]
    by_cases first : j = 0
    · rw [first, ok.blocks.free i area free]
    · rw [ok.blocks.tail i area j first]
  have disk : (k.put (k.sb.iblock i) (d.put (k.store (k.sb.iblock i)) (inodeOffset i))).disk =
      update k.disk i d := by
    apply funext
    intro j
    rw [Kernel.disk, Kernel.store_put, Kernel.sb_put, Superblock.dinode_put, update_apply]
    rfl
  have heads : k.sb.heads (update k.disk i d) = k.sb.heads k.disk := by
    rw [heads_update area, same]
    apply funext
    intro j
    by_cases here : j = i
    · subst here
      simp [Superblock.heads, area]
    · rw [update_of_ne here]
  refine ⟨rfl, ?_, ?_⟩
  · intro j _
    rw [disk, update_apply]
  · intro j
    show k.sb.contents _ _ j = k.sb.contents _ _ j
    rw [disk, Kernel.store_put, contents_heads heads, contents_inode ok.blocks area]

theorem logWrite_put (k : Kernel) (b : Nat) (data : Block) :
    wp (logWrite b data) (fun _ k' => k' = k.put b data ∧
      (k.log.Room)) Awake k := by
  have calm : Calm [] (logWrite b data) := logWrite_calm b data
  have put : wp (logWrite b data) (fun _ k' => k' = k.put b data ∧
      (k.log.Room)) Harmless k :=
    logWrite_wp fun room _ => ⟨rfl, room⟩
  exact wp_mono (wp_and put (calm.spent k)) (fun _ _ done => done.1)
    fun _ stop => Spent.awake stop.2

/-- An entry for an inode that was free is neither locked nor valid. -/
theorem Got.unread_free {k₁ : Kernel} (ok : k.Ok) (free : (k.disk i).type = 0)
    (same : k₁.icache = k.icache) (got : Got i p k₁ k') :
    (k'.icache p).locked = false ∧ (k'.icache p).valid = false := by
  have cached := got.cached
  rw [same] at cached
  have notValid : 0 < (k.icache p).ref → (k.icache p).valid = false := by
    intro used
    rw [← Bool.not_eq_true]
    intro valid
    obtain ⟨-, copy, typed⟩ := ok.cache p used valid
    rw [copy, cached used] at typed
    exact typed free
  constructor
  · rw [got.locked, same, ← Bool.not_eq_true]
    intro locked
    obtain ⟨used, valid⟩ := ok.locked p locked
    rw [notValid used] at valid
    cases valid
  · by_cases used : 0 < (k.icache p).ref
    · obtain ⟨ref, entry⟩ := got.used (q := p) (by rw [same]; exact used)
      rw [entry, same]
      exact notValid used
    · exact got.unread (by rw [same]; omega)

/-- The steps of `create` up to the new inode's first `iupdate`. -/
theorem createInode_spec (ok : k.Ok) {type major minor : Int16} (typed : type ≠ 0) :
    wp (createInode type major minor)
      (fun p k' => ∃ i, Sound k k' ∧ i < k.sb.icap ∧ 0 < i ∧ (k.disk i).type = 0 ∧
        Edited i (.created type major minor) k k' ∧
        k'.log.outstanding = k.log.outstanding ∧
        (k.icache p).locked = false ∧ (0 < (k.icache p).ref → (k.icache p).inum = i) ∧
        (0 < (k.icache p).ref → (k.icache p).valid = false) ∧
        (∀ q, q ≠ p → k'.icache q = k.icache q) ∧
        k'.icache p = ⟨i, (k.icache p).ref + 1, true, true, .created type major minor⟩)
      Awake k := by
  unfold createInode ialloc
  simp only [wp_bind, wp_get]
  cases found : firstFreeInode k.sb k.store with
  | none => exact ⟨_, by decide, rfl⟩
  | some i =>
    obtain ⟨inside, free⟩ := firstFreeInode_spec ok.blocks.layout found
    have positive : 0 < i := by
      have mem := List.mem_of_find?_eq_some found
      rw [List.mem_range'_1] at mem
      omega
    simp only [wp_bind]
    apply wp_post (logWrite_put k _ _)
    rintro _ k₁ ⟨put, room⟩
    have filled := ok.fill inside free (d := { Dinode.zero with type }) (fun _ => rfl) rfl room
    have edited := fill_edited ok inside free (d := { Dinode.zero with type }) fun _ => rfl
    have icache : k₁.icache = k.icache := by rw [put]; rfl
    have outstanding : k₁.log.outstanding = k.log.outstanding := by rw [put]; rfl
    rw [← put] at filled edited
    apply wp_mono (iget_got k₁ i)
    · intro p k₂ got
      have sound₂ := filled.toSound.trans (got.sound filled.ok)
      obtain ⟨unlocked, unread⟩ := Got.unread_free ok free icache got
      have disk₂ : ∀ j < k.sb.icap, k₂.disk j =
          if j = i then { Dinode.zero with type } else k.disk j := by
        rw [got.disk]
        exact edited.disk
      have run := ilock_fresh (by rw [got.ref]; omega) unlocked unread (by
        rw [got.inum]
        show (k₂.disk i).type ≠ 0
        rw [disk₂ i inside, if_pos rfl]
        exact typed)
      have sound₃ := sound₂.trans (wp_ok (ilock_spec sound₂.ok (by
        rw [got.inum, sound₂.sb]
        exact inside)) run).1
      rw [got.inum, show k₂.sb.dinode k₂.store i = { Dinode.zero with type } from
        (disk₂ i inside).trans (if_pos rfl)] at run
      apply wp_of_run run
      rw [got.inum, show k₂.sb.dinode k₂.store i = { Dinode.zero with type } from
        (disk₂ i inside).trans (if_pos rfl)] at sound₃
      generalize entered : k₂.setInode p { k₂.icache p with
        locked := true, valid := true, dinode := { Dinode.zero with type } } = k₃ at sound₃ ⊢
      have entry : k₃.icache p = { k₂.icache p with
          locked := true, valid := true, dinode := { Dinode.zero with type } } := by
        rw [← entered]
        simp
      have inum : (k₃.icache p).inum = i := by
        rw [entry]
        exact got.inum
      have locked : (k₃.icache p).locked = true := by rw [entry]
      have edit : k₃.setInode p { k₃.icache p with
          dinode := { (k₃.icache p).dinode with major, minor, nlink := 1 } } =
          k₃.edit p (.created type major minor) := by
        rw [Kernel.edit, entry]
        rfl
      rw [wp_modify, edit]
      have written : wp (iupdate p)
          (fun _ k' => Grows k₃ k' ∧ k' = (k₃.edit p (.created type major minor)).synced p)
          Harmless (k₃.edit p (.created type major minor)) :=
        iupdate_wp fun room => ⟨sound₃.ok.refield locked (by rw [entry]; rfl) (by rw [entry]; rfl)
          typed room, rfl⟩
      have edited₃ := sound₃.ok.edited locked (d := .created type major minor)
        (by rw [entry]; rfl) (by rw [entry]; rfl) typed
      rw [inum] at edited₃
      have calm : Calm [] (iupdate p) := iupdate_calm p
      apply wp_mono (wp_and written (calm.spent _)) ?_ fun _ stop =>
        Spent.awake stop.2
      rintro _ k₄ ⟨⟨⟨sound₄, -, -⟩, rfl⟩, outstanding₄⟩
      have disk₃ : k₃.disk = k₂.disk := by rw [← entered]; rfl
      have content₃ : k₃.content = k₂.content := by rw [← entered]; rfl
      have log₃ : k₃.log = k₂.log := by rw [← entered]; rfl
      have number := got.cached
      rw [icache] at number
      refine ⟨i, sound₃.trans sound₄, inside, positive, free, ⟨(sound₃.trans sound₄).sb, ?_, ?_⟩,
        ?_, ?_, number, ?_, ?_, ?_⟩
      · intro j within
        rw [edited₃.disk j (by rw [sound₃.sb]; exact within), disk₃, disk₂ j within]
        split <;> rfl
      · intro j
        rw [edited₃.content, content₃, got.content, edited.content]
      · rw [outstanding₄]
        show k₃.log.outstanding = _
        rw [log₃, got.log, outstanding]
      · rw [← icache, ← got.locked]
        exact unlocked
      · intro used
        obtain ⟨ref, same⟩ := got.used (q := p) (by rw [icache]; exact used)
        rw [same, icache] at unread
        exact unread
      · intro q other
        show (k₃.edit p _).icache q = _
        rw [icache_edit_ne k₃ other, ← entered, Kernel.icache_setInode, update_of_ne other,
          got.others other, icache]
      · show (k₃.edit p _).icache p = _
        rw [icache_edit, entry]
        simp only [got.inum, got.ref, icache]
    · rintro _ ⟨rfl, -⟩
      exact ⟨_, by decide, rfl⟩

theorem createInode_holds (h : Holding k₀ held locks k) {type major minor : Int16}
    (typed : type ≠ 0) :
    wp (createInode type major minor)
      (fun p k' => ∃ i, Holding k₀ ((p, i) :: held) (p :: locks) k' ∧ p ∉ locks ∧ 0 < i ∧
        (k.disk i).type = 0 ∧ Edited i (.created type major minor) k k')
      Awake k := by
  apply wp_post (createInode_spec h.fit.ok typed)
  rintro p k' ⟨i, sound, inside, positive, free, edited, outstanding, unlocked, cached, unread,
    others, entry⟩
  have notLocked : p ∉ locks := by
    rw [← h.locked p, unlocked]
    exact Bool.false_ne_true
  have disk : k'.disk i = .created type major minor := by rw [edited.disk i inside, if_pos rfl]
  refine ⟨i, ?_, notLocked, positive, free, edited⟩
  have fit : k'.Fit := by
    apply h.fit.change i sound.ok sound.sb
    · intro j within other
      rw [edited.disk j within, if_neg other]
    · exact fun j _ => edited.content j
    · intro q used
      by_cases here : q = p
      · subst here
        rw [entry]
        exact ⟨positive, inside⟩
      · rw [others q here] at used ⊢
        exact h.fit.area q used
    · intro _ _
      apply saneDir_empty
      rw [Kernel.size, disk]
      rfl
    · intro _ _ unlinked
      rw [disk] at unlinked
      cases unlinked
    · intro q used valid elsewhere _
      have here : q ≠ p := by
        rintro rfl
        exact elsewhere (cached used)
      rw [others q here]
      exact ⟨used, rfl, valid⟩
  apply h.change fit sound.sb outstanding others
  · rw [entry]
    intro either
    have used : 0 < (k.icache p).ref := by
      have := h.ref p
      omega
    refine ⟨(cached used).symm, fun valid => ?_⟩
    rw [unread used] at valid
    cases valid
  · rw [entry, refsTo_cons, if_pos rfl]
    show (k.icache p).ref + 1 + _ = _
    omega
  · intro q other
    rw [refsTo_cons, if_neg other]
    omega
  · intro q j mem
    rw [entry]
    rcases List.mem_cons.mp mem with same | old
    · cases same
      exact .inl ⟨rfl, rfl⟩
    · exact .inr old
  · rw [entry]
    simp
  · intro q other
    simp [other]

/-! ## Entries -/

/-- Slot `e` of directory `d` has new contents. -/
structure Entered (d e : Nat) (x : Option (List UInt8 × UInt16)) (k k' : Kernel) : Prop where
  sb : k'.sb = k.sb
  disk : ∀ j < k.sb.icap, j ≠ d → k'.disk j = k.disk j
  content : ∀ j, j ≠ d → k'.content j = k.content j
  /-- The directory keeps everything but its size and its first block. -/
  inode : ∃ size h, k'.disk d = { k.disk d with
    size := size, addrs := update (k.disk d).addrs 0 h }
  entries : k'.entries d = (k.entries d).put e x

/-- What is written to a locked inode leaves the rest in order, if it leaves a
directory in order. -/
theorem Stored.holds {src : Bytes} {off n : Nat} (h : Holding k₀ held locks k)
    (inum : (k.icache p).inum = i) (lock : p ∈ locks) (stored : Stored p src off n k k')
    (dir : (k.disk i).type = tDir → k'.SaneDir i) :
    Holding k₀ held locks k' ∧
      ∃ size h, k'.disk i = { k.disk i with
        size := size, addrs := update (k.disk i).addrs 0 h } := by
  obtain ⟨used, valid⟩ := h.fit.ok.locked p ((h.locked p).mpr lock)
  obtain ⟨copy, -⟩ := h.copy_of_inum inum lock
  obtain ⟨size, head, entry⟩ := stored.inode
  have disk : k'.disk i = { k.disk i with size := size, addrs := update (k.disk i).addrs 0 head } := by
    have copy' := (stored.ok.cache p (by rw [entry]; exact used) (by rw [entry]; exact valid)).2.1
    rw [entry] at copy'
    simp only [inum, copy] at copy'
    exact copy'.symm
  refine ⟨?_, size, head, disk⟩
  have fields : ∀ q, (k'.icache q).ref = (k.icache q).ref ∧
      (k'.icache q).inum = (k.icache q).inum ∧ (k'.icache q).valid = (k.icache q).valid := by
    intro q
    by_cases here : q = p
    · rw [here, entry]
      exact ⟨rfl, rfl, rfl⟩
    · rw [stored.others q here]
      exact ⟨rfl, rfl, rfl⟩
  have fit : k'.Fit := by
    apply h.fit.change i stored.ok stored.sb
    · intro j within other
      exact stored.disk j within (by rw [inum]; exact other)
    · intro j other
      rw [stored.content, overwrite, update_of_ne (by rw [inum]; exact other)]
    · intro q used
      rw [(fields q).1] at used
      rw [(fields q).2.1]
      exact h.fit.area q used
    · intro _ isDir
      rw [disk] at isDir
      exact dir isDir
    · intro _ _ _
      refine ⟨p, ?_⟩
      rw [entry]
      exact ⟨used, inum, valid⟩
    · intro q used valid _ _
      obtain ⟨ref, number, same⟩ := fields q
      rw [ref, number, same]
      exact ⟨used, rfl, valid⟩
  apply h.change fit stored.sb stored.outstanding stored.others
  · rw [entry]
    exact fun _ => ⟨rfl, fun valid => ⟨valid, rfl⟩⟩
  · rw [entry]
  · exact fun _ _ => rfl
  · exact fun _ _ => .inr
  · rw [entry]
    exact h.locked p
  · exact fun _ _ => Iff.rfl

/-- An entry is written to a locked directory. -/
theorem Stored.entered {de : Bytes} {e : Nat} (h : Holding k₀ held locks k)
    (mem : (dp, d) ∈ held) (lock : dp ∈ locks) (dir : (k.disk d).type = tDir)
    (near : e ≤ (k.entries d).len) (stored : Stored dp de (direntSize * e) direntSize k k')
    (inside : ∀ key v, slotOf de = some (key, v) → v.toNat < k.sb.icap)
    (self : ∀ key v, slotOf de = some (key, v) → v.toNat = d → key = [46] ∨ key = [46, 46]) :
    Holding k₀ held locks k' ∧ Entered d e (slotOf de) k k' := by
  have here := h.directory mem lock dir
  have inum := h.inum dp d mem
  have entries := stored.entries here (by rw [inum]; exact near)
  have directory := (stored.directory here).1
  rw [inum] at entries
  have same : (k'.icache dp).inum = d := by rw [(stored.directory here).2, inum]
  have sane := h.fit.dirs d (h.inside mem) dir
  -- an entry of the new table is the one written, or an old one
  have bound : ∀ {key v}, (k'.entries d).Binds key v →
      slotOf de = some (key, v) ∨ (k.entries d).Binds key v := by
    rintro key v ⟨j, holds⟩
    rw [entries, Slots.at_put near] at holds
    rcases holds with ⟨-, new⟩ | ⟨-, old⟩
    · exact .inl new
    · exact .inr ⟨j, old⟩
  obtain ⟨holding, inode⟩ := stored.holds h inum lock fun _ => by
    refine ⟨?_, ?_, ?_⟩
    · have whole := directory.whole
      rwa [same] at whole
    · intro key v binds
      rw [stored.sb]
      rcases bound binds with new | old
      · exact inside key v new
      · exact sane.inside old
    · intro key v binds
      rcases bound binds with new | old
      · exact self key v new
      · exact sane.self old
  refine ⟨holding, stored.sb, ?_, ?_, inode, entries⟩
  · intro j within other
    exact stored.disk j within (by rw [inum]; exact other)
  · intro j other
    rw [stored.content, overwrite, update_of_ne (by rw [inum]; exact other)]

/-- References that have been taken and dropped again leave no trace. -/
theorem Holding.sameUse (h : Holding k₀ held locks k) (still : Still k k') (use : SameUse k k') :
    Holding k₀ held locks k' := by
  have ref : ∀ q, (k'.icache q).ref = (k.icache q).ref := by
    intro q
    by_cases used : 0 < (k.icache q).ref
    · rw [use.used q used]
    · rw [use.unused q (by omega)]
      omega
  have used : ∀ {q}, 0 < (k'.icache q).ref → k'.icache q = k.icache q := by
    intro q used
    rw [ref q] at used
    exact use.used q used
  refine ⟨?_, still.sb.trans h.sb, ?_, ?_, ?_, ?_, still.outstanding.trans h.outstanding⟩
  · apply h.fit.sameFiles still.ok still.sameFiles
    · intro q inUse
      have same := used inUse
      rw [same] at inUse ⊢
      exact h.fit.area q inUse
    · intro q inUse valid _
      rw [use.used q inUse]
      exact ⟨inUse, rfl, valid⟩
  · intro q
    rw [ref q]
    exact h.ref q
  · intro p i mem
    rw [use.used p (h.used mem)]
    exact h.inum p i mem
  · intro q before
    have inUse : 0 < (k.icache q).ref := by
      have := h.ref q
      omega
    rw [use.used q inUse]
    exact h.keeps q before
  · intro q
    by_cases inUse : 0 < (k.icache q).ref
    · rw [use.used q inUse]
      exact h.locked q
    · rw [← h.locked q]
      refine iff_of_false (fun locked => ?_) fun locked => inUse (h.fit.ok.locked q locked).1
      have := (still.ok.locked q locked).1
      rw [ref q] at this
      exact inUse this

/-- What `dirlink` leaves on the way of a call. -/
def LinkedIn (k₀ : Kernel) (held : List (IPtr × Nat)) (locks : List IPtr) (k : Kernel) (d : Nat)
    (name : Bytes) (inum : Nat) : Bool → Kernel → Prop
  | false, k' => Holding k₀ held locks k' ∧ SameFiles k k' ∧
      ∃ v, (k.entries d).Binds (nameKey name) v
  | true, k' => Holding k₀ held locks k' ∧ (∀ v, ¬ (k.entries d).Binds (nameKey name) v) ∧
      ∃ e, (k.entries d).Free e ∧ (∀ j < e, (k.entries d).cell j ≠ none) ∧
        Entered d e (some (nameKey name, UInt16.ofNat inum)) k k'

theorem dirlink_holds (h : Holding k₀ held locks k) (mem : (dp, d) ∈ held) (lock : dp ∈ locks)
    (dir : (k.disk d).type = tDir) (name : Bytes) {inum : Nat} (inside : inum < k.sb.icap)
    (positive : 0 < inum)
    (other : inum = d → nameKey name = [46] ∨ nameKey name = [46, 46]) :
    wp (dirlink dp name inum) (LinkedIn k₀ held locks k d name inum)
      (fun x => Awake x ∨ x = .blocked ∧ ¬ k.Apart dp name) k := by
  have number : (UInt16.ofNat inum).toNat = inum := by
    rw [UInt16.toNat_ofNat']
    have := h.fit.narrow
    exact Nat.mod_eq_of_lt (by omega)
  have slot : slotOf (dirent (UInt16.ofNat inum) name) =
      some (nameKey name, UInt16.ofNat inum) := by
    rw [slotOf_dirent, if_neg]
    intro zero
    rw [zero] at number
    exact absurd number (by simp; omega)
  apply wp_mono (dirlink_outcome (h.directory mem lock dir) name inum)
  · intro r k' linked
    match r, linked with
    | false, ⟨bound, still, use⟩ =>
      rw [h.inum dp d mem] at bound
      exact ⟨h.sameUse still use, still.sameFiles, bound⟩
    | true, ⟨absent, e, free, before, stored⟩ =>
      rw [h.inum dp d mem] at absent free before
      obtain ⟨holding, entered⟩ := stored.entered h mem lock dir free.le_len
        (by
          intro key v same
          rw [slot] at same
          cases same
          rw [number]
          exact inside)
        (by
          intro key v same
          rw [slot] at same
          cases same
          rw [number]
          exact other)
      rw [slot] at entered
      exact ⟨holding, absent, e, free, before, entered⟩
  · intro x stop
    exact stop.imp_left fun stop => stop.awake (by decide)

/-- Erasing an entry of a locked directory. -/
theorem erase_holds (h : Holding k₀ held locks k) (mem : (dp, d) ∈ held) (lock : dp ∈ locks)
    (dir : (k.disk d).type = tDir) {e : Nat} (near : e ≤ (k.entries d).len) :
    wp (writeDirent dp (fun _ => 0) (direntSize * e) "unlink: writei")
      (fun _ k' => Holding k₀ held locks k' ∧ Entered d e none k k') Awake k := by
  have here := h.directory mem lock dir
  have inum := h.inum dp d mem
  apply wp_mono (writeDirent_stored here (fun _ => 0) (e := e) (by rw [inum]; exact near) _)
  · intro _ k' stored
    apply stored.entered h mem lock dir near
    · intro key v no
      rw [slotOf_zero] at no
      cases no
    · intro key v no
      rw [slotOf_zero] at no
      cases no
  · rintro x (spent | ⟨rfl, -⟩)
    · exact spent.awake
    · exact ⟨_, by decide, rfl⟩

end

end BasicOS
