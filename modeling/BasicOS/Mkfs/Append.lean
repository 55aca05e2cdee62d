/-
# BasicOS.Mkfs.Append — what iappend does

While `mkfs` runs, the free map on the image is still empty: the blocks in use
are those below `freeblock`.  `Image.view` is the image as the kernel would see
it with the free map that this means, and with one inode in hand.  Seen so,
taking the next block is the kernel's allocation, and the two programs can be
compared by the same words: `appendBlock` does to the view what `bmap` does to
the kernel's state, and `iappend` what `writei` does.
-/
import BasicOS.Fs.File
import BasicOS.Mkfs.Program

namespace BasicOS.Mkfs

open Lib Function
open Lib.Chain (Pos addr idx Placed Fresh OnPath)
open Lib.Prog

set_option autoImplicit false

/-! ## The image as the kernel sees it -/

@[simp] theorem sb_size : sb.size = fssize := rfl
@[simp] theorem sb_inodestart : sb.inodestart = 32 := rfl
@[simp] theorem sb_bmapstart : sb.bmapstart = 58 := rfl
@[simp] theorem sb_datastart : sb.datastart = nmeta := rfl
@[simp] theorem sb_icap : sb.icap = 208 := rfl

/-- Block `j` of the free map when the first `f` blocks are in use. -/
def freeMap (f j : Nat) : Block :=
  bitmap (min (f - bpb * j) bpb)

/-- The blocks of the image, with the free map that `freeblock` means. -/
def Image.marked (s : Image) : Nat → Block := fun b =>
  if sb.bmapstart ≤ b ∧ b < sb.datastart then freeMap s.freeblock (b - sb.bmapstart)
  else s.sector b

/-- The inode in hand is behind this pointer. -/
def hand : IPtr := 0

/-- The image as a kernel state, with inode `inum` in hand. -/
def Image.view (s : Image) (inum : Nat) (din : Dinode) : Kernel where
  dev := { disk := s.sector, cache := fun b => some (s.marked b) }
  log := { start := sb.logstart, size := sb.nlog, outstanding := 0, committing := false, lh := [] }
  sb := sb
  icache := update (fun _ => ⟨0, 0, false, false, Dinode.zero⟩) hand ⟨inum, 1, true, true, din⟩

section View

variable (s : Image) (inum : Nat) (din : Dinode)

@[simp] theorem store_view : (s.view inum din).store = s.marked := rfl
@[simp] theorem sb_view : (s.view inum din).sb = sb := rfl
@[simp] theorem icache_view : (s.view inum din).icache hand = ⟨inum, 1, true, true, din⟩ := by
  simp [Image.view]

theorem log_view : (s.view inum din).LogOk :=
  ⟨rfl, rfl, rfl, List.nodup_nil, by simp [Image.view], Nat.zero_le _, Nat.zero_le _⟩

variable {s}

theorem marked_sector {b : Nat} (outside : b < 58 ∨ nmeta ≤ b) : s.marked b = s.sector b := by
  refine if_neg ?_
  simp only [sb_bmapstart, sb_datastart]
  omega

/-- Writing a sector outside the free map. -/
theorem marked_update {sec n : Nat} (outside : sec < 58 ∨ nmeta ≤ sec) (buf : Block) :
    Image.marked { s with sector := update s.sector sec buf, sectors := n } =
      update s.marked sec buf := by
  funext b
  unfold Image.marked
  by_cases here : b = sec
  · subst here
    rw [update_self, if_neg (by simp only [sb_bmapstart, sb_datastart]; omega)]
    exact update_self ..
  · simp only [update_of_ne here]

end View

/-! ## The free map -/

theorem bitmap_succ (n : Nat) : bitmap (n + 1) = (bitmap n).setBit n := by
  simp [bitmap, List.range_succ]

@[simp] theorem testBit_bitmap (n i : Nat) : (bitmap n).testBit i = decide (i < n) := by
  induction n with
  | zero => simp [bitmap, Bytes.testBit]
  | succ n ih =>
    rw [bitmap_succ, Bytes.testBit_setBit, ih, ← Bool.decide_or]
    exact decide_eq_decide.mpr (by omega)

variable {s s' : Image} {inum : Nat} {din din' : Dinode}

theorem nmeta_eq : nmeta = 123 := rfl

theorem bblock_area {b : Nat} (inside : b < fssize) :
    sb.bmapstart ≤ sb.bblock b ∧ sb.bblock b < sb.datastart := by
  rw [sb_datastart, nmeta_eq]
  simp only [Superblock.bblock, sb_bmapstart, bpb, bsize, fssize] at *
  omega

/-- The blocks in use are those below `freeblock`. -/
theorem used_marked {b : Nat} (inside : b < fssize) :
    sb.used s.marked b = decide (b < s.freeblock) := by
  rw [Superblock.used, Image.marked, if_pos (bblock_area inside), freeMap, testBit_bitmap]
  refine decide_eq_decide.mpr ?_
  simp only [Superblock.bblock, sb_bmapstart, bpb, bsize]
  omega

/-- Taking the next block is what the kernel's `balloc` does. -/
theorem marked_take (low : nmeta ≤ s.freeblock) (room : s.freeblock < fssize)
    (fresh : s.sector s.freeblock = fun _ => 0) :
    Image.marked { s with freeblock := s.freeblock + 1 } = allocated sb s.marked s.freeblock := by
  funext b
  unfold allocated
  by_cases here : b = s.freeblock
  · subst here
    rw [update_self]
    exact (marked_sector (.inr low)).trans fresh
  rw [update_of_ne here]
  by_cases bit : b = sb.bblock s.freeblock
  · subst bit
    rw [update_self]
    unfold Image.marked
    rw [if_pos (bblock_area room), if_pos (bblock_area room)]
    · have count : min (s.freeblock + 1 - bpb * (s.freeblock / bpb)) bpb =
          min (s.freeblock - bpb * (s.freeblock / bpb)) bpb + 1 := by
        simp only [bpb, bsize]
        omega
      have last : min (s.freeblock - bpb * (s.freeblock / bpb)) bpb = s.freeblock % bpb := by
        simp only [bpb, bsize]
        omega
      simp only [Superblock.bblock, Nat.add_sub_cancel, freeMap, count, bitmap_succ, last]
  · rw [update_of_ne bit]
    unfold Image.marked
    split
    · simp only [freeMap]
      congr 1
      simp only [Superblock.bblock, sb_bmapstart, bpb, bsize] at *
      omega
    · rfl

/-! ## One block more -/

/-- The block number at a position of the inode in hand. -/
def Image.at (s : Image) (inum : Nat) (din : Dinode) (q : Pos) : Nat :=
  (s.view inum din).blk hand inum q

/-- The blocks that hold nothing yet: the header of the log, the free map, and
what has not been taken. -/
abbrev Image.Untouched (s : Image) (b : Nat) : Prop :=
  b = 2 ∨ 58 ≤ b ∧ b < nmeta ∨ s.freeblock ≤ b

/-- The image is in order, with inode `inum` in hand. -/
structure Building (s : Image) (inum : Nat) (din : Dinode) : Prop where
  work : (s.view inum din).Working hand
  sectors : s.sectors = fssize
  low : nmeta ≤ s.freeblock
  high : s.freeblock ≤ fssize
  fresh : ∀ b, s.Untouched b → s.sector b = fun _ => 0

/-- At most `c` blocks have been taken. -/
def Takes (c : Nat) (s s' : Image) : Prop :=
  s.freeblock ≤ s'.freeblock ∧ s'.freeblock ≤ s.freeblock + c

/-- The block number is past the end of the image, so reading it fails. -/
def Overrun (s : Image) (x : Nat) : Prop :=
  s.sectors ≤ x ∧ fssize < s.freeblock

/-- The block at position `q` of the inode in hand is there. -/
structure Grew (inum : Nat) (q : Pos) (s : Image) (din : Dinode) (x : Nat) (s' : Image)
    (din' : Dinode) : Prop where
  build : Building s' inum din'
  reaches : Reaches hand q (s.view inum din) x (s'.view inum din')
  freeinode : s'.freeinode = s.freeinode

section Grow

variable {q : Pos} {j : Nat}

section

variable (build : Building s inum din)

include build

theorem Building.block (there : s.at inum din q ≠ 0) :
    sb.DataBlock s.marked (s.at inum din q) :=
  build.work.blocks.owned (i := inum) (p := q) there

theorem Building.owned (there : s.at inum din q ≠ 0) :
    nmeta ≤ s.at inum din q ∧ s.at inum din q < s.freeblock := by
  obtain ⟨low, high, used⟩ := build.block there
  rw [used_marked high, decide_eq_true_eq] at used
  rw [sb_datastart] at low
  exact ⟨low, used⟩

/-- A word of an index block. -/
theorem Building.word (below : q.parent perIndex = some j)
    (index : s.at inum din (.index j) ≠ 0) :
    ((s.sector (s.at inum din (.index j))).get32 (4 * q.word perIndex)).toNat =
      s.at inum din q := by
  have read : s.at inum din q = words s.marked (s.at inum din (.index j)) (q.word perIndex) :=
    Chain.addr_of_parent (p := q) (i := j) below index
  rw [read, words, marked_sector (.inr (build.owned index).1)]

theorem Grew.refl (there : s.at inum din q ≠ 0) :
    Grew inum q s din (s.at inum din q) s din := by
  refine ⟨build, ?_, rfl⟩
  have reaches := Reaches.refl (q := q) build.work (by rw [icache_view]; exact there)
  rwa [icache_view] at reaches

end

/-- The image after the next block has been taken and its number stored in a
word of block `last`. -/
def Image.link (s : Image) (last o : Nat) : Image where
  sector := update s.sector last ((s.sector last).put32 o (UInt32.ofNat s.freeblock))
  sectors := max s.sectors (last + 1)
  freeinode := s.freeinode
  freeblock := s.freeblock + 1

theorem Building.link (build : Building s inum din) (below : q.parent perIndex = some j)
    (index : s.at inum din (.index j) ≠ 0) (empty : s.at inum din q = 0)
    (room : s.freeblock < fssize) :
    Grew inum q s din s.freeblock (s.link (s.at inum din (.index j)) (4 * q.word perIndex)) din := by
  obtain ⟨data, parent⟩ := build.owned index
  have free : sb.used s.marked s.freeblock = false := by simp [used_marked room]
  have taken := marked_take build.low room (build.fresh _ (.inr (.inr (Nat.le_refl _))))
  have same : allocated sb s.marked s.freeblock (s.at inum din (.index j)) =
      s.sector (s.at inum din (.index j)) := by
    rw [← marked_sector (s := s) (.inr data)]
    exact owned_allocated build.work.blocks room free (build.block index)
  have marked : (s.link (s.at inum din (.index j)) (4 * q.word perIndex)).marked =
      update (allocated sb s.marked s.freeblock) (s.at inum din (.index j))
        ((allocated sb s.marked s.freeblock (s.at inum din (.index j))).put32
          (4 * q.word perIndex) (UInt32.ofNat s.freeblock)) := by
    rw [same, ← taken]
    exact marked_update (s := { s with freeblock := s.freeblock + 1 }) (.inr data) _
  have zeroed : (s.link (s.at inum din (.index j)) (4 * q.word perIndex)).marked s.freeblock =
      fun _ => 0 := by
    rw [marked, update_of_ne (by omega), allocated, update_self]
  have grown : GrownAt hand q (s.view inum din) s.freeblock
      ((s.link (s.at inum din (.index j)) (4 * q.word perIndex)).view inum din) := by
    refine grownAt_link build.work below ?_ ?_ room free rfl rfl ?_ ?_ (log_view _ _ _) rfl ?_
    · rw [icache_view]
      exact index
    · rw [icache_view]
      exact empty
    · rw [icache_view]
      exact marked
    · exact congrArg some zeroed
    · intro x mem
      cases mem
  refine ⟨⟨grown.working, ?_, ?_, room, fun b above => ?_⟩, grown.toReaches, rfl⟩
  · have := build.sectors
    have := build.high
    simp only [Image.link]
    omega
  · have := build.low
    simp only [Image.link]
    omega
  · have := nmeta_eq
    simp only [Image.link, Image.Untouched] at above ⊢
    rw [update_of_ne (by omega)]
    exact build.fresh b (by omega)

theorem appendWord_spec (build : Building s inum din) (below : q.parent perIndex = some j)
    (index : s.at inum din (.index j) ≠ 0) :
    wp (appendWord (s.at inum din (.index j)) (4 * q.word perIndex)
        (s.sector (s.at inum din (.index j))))
      (fun r s' => Takes 1 s s' ∧ (Overrun s' (r.1.get32 (4 * q.word perIndex)).toNat ∨
        Grew inum q s din (r.1.get32 (4 * q.word perIndex)).toNat s' din ∧
        r.1 = s'.sector (s.at inum din (.index j)) ∧
        (r.2 = true → s'.sector (r.1.get32 (4 * q.word perIndex)).toNat = fun _ => 0)))
      (fun _ => False) s := by
  have word := build.word below index
  obtain ⟨data, parent⟩ := build.owned index
  have high := build.high
  unfold appendWord
  refine wp_ite (fun zero => ?_) fun some_word => ?_
  · have empty : s.at inum din q = 0 := by
      rw [← word, zero]
      rfl
    have stored : ((s.sector (s.at inum din (.index j))).put32 (4 * q.word perIndex)
        (UInt32.ofNat s.freeblock)).get32 (4 * q.word perIndex) = UInt32.ofNat s.freeblock :=
      Bytes.get32_put32 _ _ _
    have width : (UInt32.ofNat s.freeblock).toNat = s.freeblock := by
      rw [UInt32.toNat_ofNat']
      exact Nat.mod_eq_of_lt (Nat.lt_of_le_of_lt high (by decide))
    simp only [takeBlock, wsect, wp_bind, wp_get, wp_set, wp_pure,
      wp_modify]
    rw [stored, width]
    refine ⟨⟨Nat.le_succ _, Nat.le_refl _⟩, ?_⟩
    by_cases room : s.freeblock < fssize
    · refine .inr ⟨build.link below index empty room, by rw [update_self], fun _ => ?_⟩
      rw [update_of_ne (by omega)]
      exact build.fresh _ (.inr (.inr (Nat.le_refl _)))
    · have := build.sectors
      exact .inl ⟨by simp only; omega, by simp only; omega⟩
  · refine ⟨⟨Nat.le_refl _, Nat.le_succ _⟩, .inr ⟨?_, rfl, fun new => by cases new⟩⟩
    rw [word]
    refine Grew.refl build fun zero => some_word ?_
    rw [zero] at word
    exact UInt32.toNat_inj.mp word

/-! ## Along the chain -/

/-- `mkfs` stops only when `c` more blocks do not fit. -/
def Short (c : Nat) (s : Image) : Stop → Prop :=
  fun _ => fssize < s.freeblock + c

theorem rsect_wp {x : Nat} {Q : Block → Image → Prop} {E : Stop → Prop}
    (inside : x < s.sectors → Q (s.sector x) s) (outside : s.sectors ≤ x → E .exit) :
    wp (rsect x) Q E s := by
  unfold rsect
  simp only [wp_bind, wp_get]
  exact wp_ite inside fun past => outside (Nat.not_lt.mp past)

theorem Takes.refl (s : Image) : Takes 0 s s :=
  ⟨Nat.le_refl _, Nat.le_refl _⟩

theorem Takes.trans {a b : Nat} {s'' : Image} (first : Takes a s s') (second : Takes b s' s'') :
    Takes (a + b) s s'' := by
  unfold Takes at *
  omega

theorem Takes.mono {a b : Nat} (takes : Takes a s s') (le : a ≤ b) : Takes b s s' := by
  unfold Takes at *
  omega

theorem Takes.short {a b : Nat} {e : Stop} (takes : Takes a s s') (short : Short b s' e) :
    Short (a + b) s e := by
  unfold Takes Short at *
  omega

theorem Grew.here {x : Nat} (grew : Grew inum q s din x s' din') : s'.at inum din' q = x := by
  have here := grew.reaches.here
  rwa [icache_view] at here

theorem Grew.nonzero {x : Nat} (grew : Grew inum q s din x s' din') : x ≠ 0 :=
  grew.reaches.nonzero

theorem Grew.trans {q' : Pos} {x x' : Nat} {s'' : Image} {din'' : Dinode}
    (first : Grew inum q s din x s' din') (second : Grew inum q' s' din' x' s'' din'')
    (path : OnPath perIndex q q') : Grew inum q' s din x' s'' din'' :=
  ⟨second.build, first.reaches.trans second.reaches path, second.freeinode.trans first.freeinode⟩

/-- A block that is there can be read. -/
theorem Grew.inside {x : Nat} (grew : Grew inum q s din x s' din') : x < s'.sectors := by
  have owned := grew.build.owned (by rw [grew.here]; exact grew.nonzero)
  have := grew.build.high
  rw [grew.here] at owned
  rw [grew.build.sectors]
  omega

theorem appendWalk_spec {i : Nat} {isNew : Bool} (build : Building s inum din)
    (index : s.at inum din (.index j) ≠ 0) (head : isNew = true → i = 0) :
    wp (appendWalk i isNew (s.at inum din (.index j)) (s.sector (s.at inum din (.index j))))
      (fun r s' => Takes i s s' ∧ Grew inum (.index (j + i)) s din r.1 s' din ∧
        r.2 = s'.sector r.1) (Short i s) s := by
  induction i generalizing j s isNew with
  | zero => exact ⟨Takes.refl s, Grew.refl build index, rfl⟩
  | succ i ih =>
    have old : isNew = false := by
      by_contra new
      exact absurd (head (by simpa using new)) (Nat.succ_ne_zero i)
    unfold appendWalk
    refine wp_seq_sure (appendWord_spec build (q := .index (j + 1)) rfl index) ?_
    rintro ⟨indirect, new⟩ s₁ ⟨takes, next⟩
    rw [wp_bind]
    refine rsect_wp (fun inside => ?_) fun outside => ?_
    · obtain overrun | ⟨grew, -, zero⟩ := next
      · exact absurd inside (Nat.not_lt.mpr overrun.1)
      · have data : (if isNew || new then
              (s₁.sector (indirect.get32 nextWord).toNat).put32 nextWord 0
            else s₁.sector (indirect.get32 nextWord).toNat) =
            s₁.sector (indirect.get32 nextWord).toNat := by
          rw [old, Bool.false_or]
          split
          · rename_i fresh
            rw [show s₁.sector (indirect.get32 nextWord).toNat = fun _ => 0 from zero fresh,
              Bytes.put32_zero]
          · rfl
        have here : s₁.at inum din (.index (j + 1)) = (indirect.get32 nextWord).toNat := grew.here
        show wp (appendWalk i false (indirect.get32 nextWord).toNat (if isNew || new then _
          else _)) _ _ s₁
        rw [data, ← here]
        refine wp_mono (ih grew.build (by rw [here]; exact grew.nonzero)
          fun no => by cases no) ?_ fun e short => ?_
        · rintro ⟨last, block⟩ s₂ ⟨takes', walked, read⟩
          have shift : j + 1 + i = j + (i + 1) := by omega
          rw [shift] at walked
          refine ⟨(takes.trans takes').mono (by omega), grew.trans walked ?_, read⟩
          exact .inr ⟨j + 1, by simp only [Pos.level]; omega, rfl⟩
        · have := takes.short short
          unfold Short at *
          omega
    · obtain overrun | ⟨grew, -⟩ := next
      · have := overrun.2
        unfold Short Takes at *
        omega
      · exact absurd grew.inside (Nat.not_lt.mpr outside)

theorem head_at (area : inum < 208) : s.at inum din (.index 0) = (din.addrs 0).toNat := by
  have first : (s.view inum din).blk hand inum (.index 0) = _ := blockAt_first area
  rw [Image.at, first, Kernel.cur, icache_view]
  simp

theorem Building.area (build : Building s inum din) : inum < 208 := by
  have area := build.work.area
  rw [icache_view] at area
  exact area

theorem appendHead_spec {bno : Nat} (build : Building s inum din)
    (headed : bno ≠ 0 → din.addrs 0 ≠ 0) :
    wp (appendHead bno din) (fun r s' => Takes 1 s s' ∧ (r.2 = true → bno = 0) ∧
      (Overrun s' (r.1.addrs 0).toNat ∨ Grew inum (.index 0) s din (r.1.addrs 0).toNat s' r.1))
      (fun _ => False) s := by
  have high := build.high
  unfold appendHead
  refine wp_ite (fun ⟨first, missing⟩ => ?_) fun there => ?_
  · simp only [takeBlock, wp_bind, wp_get, wp_set, wp_pure, update_self]
    have width : (UInt32.ofNat s.freeblock).toNat = s.freeblock := by
      rw [UInt32.toNat_ofNat']
      exact Nat.mod_eq_of_lt (Nat.lt_of_le_of_lt high (by decide))
    rw [width]
    refine ⟨⟨Nat.le_succ _, Nat.le_refl _⟩, fun _ => first, ?_⟩
    by_cases room : s.freeblock < fssize
    · right
      have taken := marked_take build.low room (build.fresh _ (.inr (.inr (Nat.le_refl _))))
      have free : sb.used s.marked s.freeblock = false := by simp [used_marked room]
      have empty : s.at inum din (.index 0) = 0 := by
        rw [head_at build.area, missing]
        rfl
      have grown : GrownAt hand (.index 0) (s.view inum din) s.freeblock
          (Image.view { s with freeblock := s.freeblock + 1 } inum (din.withHead s.freeblock)) := by
        refine grownAt_head build.work ?_ room free rfl ?_ ?_ taken ?_ (log_view _ _ _) rfl ?_
        · rw [icache_view]
          exact empty
        · intro r other
          simp [Image.view, other]
        · simp only [icache_view]
        · show some _ = _
          rw [taken, allocated, update_self]
        · intro x mem
          cases mem
      exact ⟨⟨grown.working, build.sectors, Nat.le_succ_of_le build.low, room, fun b above =>
        build.fresh b (above.imp_right (Or.imp_right Nat.le_of_succ_le))⟩, grown.toReaches, rfl⟩
    · have := build.sectors
      exact .inl ⟨by simp only; omega, by simp only; omega⟩
  · refine ⟨⟨Nat.le_refl _, Nat.le_succ _⟩, fun new => (by cases new), .inr ?_⟩
    have some_head : din.addrs 0 ≠ 0 := by
      by_cases first : bno = 0
      · exact fun missing => there ⟨first, missing⟩
      · exact headed first
    rw [← head_at (s := s) build.area]
    refine Grew.refl build ?_
    rw [head_at build.area]
    exact fun zero => some_head (UInt32.toNat_inj.mp zero)

/-- `appendBlock` finds the block, as `bmap` does. -/
theorem appendBlock_spec {bn : Nat} (build : Building s inum din)
    (headed : bn / perIndex ≠ 0 → din.addrs 0 ≠ 0) :
    wp (appendBlock din bn) (fun r s' => Takes (bn / perIndex + 2) s s' ∧
      (Overrun s' r.2 ∨ Grew inum (.item bn) s din r.2 s' r.1)) (Short (bn / perIndex + 2) s) s := by
  unfold appendBlock
  rw [chainSplit_eq, Nat.zero_add]
  refine wp_seq_sure (appendHead_spec build headed) ?_
  rintro ⟨din₁, isNew⟩ s₁ ⟨takes₁, new, head⟩
  rw [wp_bind]
  refine rsect_wp (fun inside => ?_) fun outside => ?_
  · obtain overrun | grew₁ := head
    · exact absurd inside (Nat.not_lt.mpr overrun.1)
    have here₁ : s₁.at inum din₁ (.index 0) = (din₁.addrs 0).toNat := grew₁.here
    rw [wp_bind]
    simp only at new ⊢
    rw [← here₁]
    refine wp_mono (appendWalk_spec grew₁.build (by rw [here₁]; exact grew₁.nonzero) new) ?_
      fun e short => ?_
    · rintro ⟨last, indirect⟩ s₂ ⟨takes₂, walked, read⟩
      simp only [Nat.zero_add] at walked read ⊢
      have here₂ : s₂.at inum din₁ (.index (bn / perIndex)) = last := walked.here
      rw [wp_bind, read, ← here₂]
      refine wp_mono (appendWord_spec walked.build (q := .item bn) rfl
        (by rw [here₂]; exact walked.nonzero)) ?_ fun _ no => no.elim
      rintro ⟨indirect', new'⟩ s₃ ⟨takes₃, next⟩
      rw [wp_pure]
      refine ⟨((takes₁.trans takes₂).trans takes₃).mono (by omega), ?_⟩
      refine next.imp id fun ⟨grew₃, _⟩ => ?_
      exact (grew₁.trans walked (.inr ⟨0, Nat.zero_le _, rfl⟩)).trans grew₃
        (.inr ⟨bn / perIndex, Nat.le_refl _, rfl⟩)
    · have := takes₁.short short
      unfold Short at *
      omega
  · obtain overrun | grew₁ := head
    · have := overrun.2
      have := Nat.zero_le (bn / perIndex)
      unfold Short Takes at *
      omega
    · exact absurd grew₁.inside (Nat.not_lt.mpr outside)

/-! ## The loop -/

/-- Bytes have been written to the inode in hand. -/
structure Filled (inum : Nat) (src : Bytes) (off n : Nat) (s : Image) (din : Dinode) (s' : Image)
    (din' : Dinode) : Prop where
  build : Building s' inum din'
  wrote : Wrote hand src off n (s.view inum din) (s'.view inum din')
  freeinode : s'.freeinode = s.freeinode

/-- A sector of the inode in hand has been written. -/
theorem Building.write {bn : Nat} (build : Building s inum din)
    (there : s.at inum din (.item bn) ≠ 0) (buf : Block) {n : Nat}
    (sectors : n = max s.sectors (s.at inum din (.item bn) + 1)) :
    ItemWritten hand bn buf (s.view inum din)
        (Image.view { s with
          sector := update s.sector (s.at inum din (.item bn)) buf, sectors := n } inum din) ∧
      Building { s with sector := update s.sector (s.at inum din (.item bn)) buf, sectors := n }
        inum din := by
  obtain ⟨data, taken⟩ := build.owned there
  have written : ItemWritten hand bn buf (s.view inum din)
      (Image.view { s with
        sector := update s.sector (s.at inum din (.item bn)) buf, sectors := n } inum din) := by
    refine itemWritten_of build.work ?_ rfl rfl ?_ (log_view _ _ _) rfl ?_
    · rw [icache_view]
      exact there
    · rw [icache_view]
      exact marked_update (.inr data) buf
    · intro x mem
      cases mem
  refine ⟨written, written.working, ?_, build.low, build.high, fun b above => ?_⟩
  · have := build.sectors
    have := build.high
    simp only
    omega
  · have := nmeta_eq
    simp only [Image.Untouched] at above ⊢
    rw [update_of_ne (by omega)]
    exact build.fresh b above

theorem appendLoop_spec (build : Building s inum din) (off n : Nat) (src : Bytes)
    (headed : off ≠ 0 → din.addrs 0 ≠ 0) :
    wp (appendLoop din off src n) (fun r s' => r.2 = off + n ∧
      Takes (n * ((off + n) / bsize / perIndex + 2)) s s' ∧ Filled inum src off n s din s' r.1)
      (Short (n * ((off + n) / bsize / perIndex + 2)) s) s := by
  induction n using Nat.strong_induction_on generalizing s din off src with
  | _ n ih =>
  unfold appendLoop
  by_cases done : n = 0
  · subst done
    refine ⟨rfl, (Takes.refl s).mono (Nat.zero_le _), build, ?_, rfl⟩
    exact Wrote.nil build.work src off
  · rw [dif_neg done]
    have short := Nat.mod_lt off bsize_pos
    have quot : off / bsize * bsize + off % bsize = off := by
      rw [Nat.mul_comm]
      exact Nat.div_add_mod off bsize
    have start : off - off / bsize * bsize = off % bsize := by omega
    have size : (off / bsize + 1) * bsize - off = bsize - off % bsize := by
      rw [Nat.add_mul, Nat.one_mul]
      omega
    rw [start, size]
    generalize len : min n (bsize - off % bsize) = m
    -- the cost of this piece and of the rest
    have level : off / bsize / perIndex ≤ (off + n) / bsize / perIndex :=
      Nat.div_le_div_right (Nat.div_le_div_right (Nat.le_add_right off n))
    have total : off + m + (n - m) = off + n := by omega
    have cost : off / bsize / perIndex + 2 + (n - m) * ((off + n) / bsize / perIndex + 2) ≤
        n * ((off + n) / bsize / perIndex + 2) := by
      have pieces : (n - m + 1) * ((off + n) / bsize / perIndex + 2) ≤
          n * ((off + n) / bsize / perIndex + 2) := Nat.mul_le_mul_right _ (by omega)
      rw [Nat.add_mul, Nat.one_mul] at pieces
      omega
    rw [wp_bind]
    refine wp_mono (appendBlock_spec build fun far => headed fun zero => ?_) ?_ ?_
    · rw [zero] at far
      exact far rfl
    · rintro ⟨din₁, x⟩ s₁ ⟨takes₁, found⟩
      rw [wp_bind]
      refine rsect_wp (fun inside => ?_) fun outside => ?_
      · obtain overrun | grew := found
        · exact absurd inside (Nat.not_lt.mpr overrun.1)
        have here : s₁.at inum din₁ (.item (off / bsize)) = x := grew.here
        have there : s₁.at inum din₁ (.item (off / bsize)) ≠ 0 := by
          rw [here]
          exact grew.nonzero
        obtain ⟨item, build₂⟩ := grew.build.write there
          ((s₁.sector x).copy (off % bsize) src m) (by rw [here])
        have head₁ : din₁.addrs 0 ≠ 0 := by
          intro zero
          have first := Chain.idx_ne_zero_of_le (Nat.zero_le _) (Kernel.blk_index (j := _) rfl there)
          refine first ?_
          have head : s₁.at inum din₁ (.index 0) = _ := head_at build.area
          rw [zero] at head
          exact head
        simp only [wsect, wp_bind, wp_modify]
        rw [here] at item build₂
        refine wp_mono (ih (n - m) (by omega) build₂ (off + m) (src.drop m) fun _ => head₁)
          ?_ fun e rest => ?_
        · rintro ⟨din₃, off₃⟩ s₃ ⟨reached, takes₃, filled⟩
          rw [total] at takes₃
          refine ⟨by rw [← total]; exact reached, (takes₁.trans takes₃).mono cost, filled.build, ?_,
            filled.freeinode.trans grew.freeinode⟩
          refine filled.wrote.cons (by omega) len grew.reaches ?_
          have read : (s₁.view inum din₁).store x = s₁.sector x := by
            have owned := (grew.build.owned there).1
            rw [here] at owned
            exact marked_sector (.inr owned)
          rw [read]
          exact item
        · rw [total] at rest
          have := takes₁.short (e := e) rest
          unfold Short at *
          omega
      · obtain overrun | grew := found
        · have := overrun.2
          unfold Short Takes at *
          omega
        · exact absurd grew.inside (Nat.not_lt.mpr outside)
    · intro e stop
      unfold Short at *
      omega

end Grow

end BasicOS.Mkfs
