/-
# BasicOS.Mkfs.Build — the image while mkfs builds it

Between calls of `iappend` no inode is in hand.  `Settled` is the invariant then:
the blocks are in order, and the blocks of an inode are exactly those below its
size.  `Built s fs` says what the image holds once the input files `fs` have been
added: the root directory with their entries, and their bytes.
-/
import BasicOS.Mkfs.Append

namespace BasicOS.Mkfs

open Lib Function
open Lib.Chain (Pos addr idx Placed Fresh OnPath)
open Lib.Prog

set_option autoImplicit false

namespace Image

/-- The inode with number `i`. -/
def disk (s : Image) (i : Nat) : Dinode :=
  sb.dinode s.marked i

/-- The block number at a position of inode `i`. -/
def block (s : Image) (i : Nat) (q : Pos) : Nat :=
  sb.blockAt s.marked s.disk i q

/-- The bytes of inode `i`. -/
def content (s : Image) (i : Nat) : Bytes :=
  sb.contents s.marked s.disk i

end Image

structure Settled (s : Image) : Prop where
  blocks : Blocks sb s.marked s.disk
  sectors : s.sectors = fssize
  low : nmeta ≤ s.freeblock
  high : s.freeblock ≤ fssize
  fresh : ∀ b, s.Untouched b → s.sector b = fun _ => 0
  /-- The blocks of an inode are those below its size. -/
  exact_blocks : ∀ i < 208, ∀ n, s.block i (.item n) ≠ 0 ↔ n * bsize < (s.disk i).size.toNat
  /-- The blocks taken so far are all in chains. -/
  chained : ∀ b, sb.DataBlock s.marked b → ∃ i q, s.block i q = b

variable {s s' : Image} {inum : Nat} {din d : Dinode}

/-! ## Inodes -/

theorem layout : sb.Layout := by
  refine ⟨?_, ?_, ?_, ?_, ?_, ?_, ?_⟩ <;> decide

theorem iblock_area (area : inum < 208) : 32 ≤ sb.iblock inum ∧ sb.iblock inum < 58 := by
  simp only [Superblock.iblock, sb_inodestart, ipb, bsize, dinodeSize, ndirect]
  omega

/-- The image with inode `inum` written. -/
def Image.putInode (s : Image) (inum : Nat) (d : Dinode) : Image :=
  { s with
    sector := update s.sector (sb.iblock inum)
      (d.put (s.sector (sb.iblock inum)) (inodeOffset inum))
    sectors := max s.sectors (sb.iblock inum + 1) }

theorem winode_run (sectors : s.sectors = fssize) (area : inum < 208) :
    winode inum d s = .ok ((), s.putInode inum d) := by
  have inside : sb.iblock inum < s.sectors := by
    have := iblock_area area
    rw [sectors]
    simp only [fssize]
    omega
  have read : rsect (sb.iblock inum) s = .ok (s.sector (sb.iblock inum), s) := by
    unfold rsect
    show (if sb.iblock inum < s.sectors then _ else _ : Mk Block) s = _
    rw [if_pos inside]
    rfl
  rw [winode, run_bind read]
  rfl

theorem rinode_run (sectors : s.sectors = fssize) (area : inum < 208) :
    rinode inum s = .ok (s.disk inum, s) := by
  have block := iblock_area area
  have inside : sb.iblock inum < s.sectors := by
    rw [sectors]
    simp only [fssize]
    omega
  have read : rsect (sb.iblock inum) s = .ok (s.sector (sb.iblock inum), s) := by
    unfold rsect
    show (if sb.iblock inum < s.sectors then _ else _ : Mk Block) s = _
    rw [if_pos inside]
    rfl
  rw [rinode, run_bind read, Image.disk, Superblock.dinode, marked_sector (.inl block.2)]
  rfl

/-- What writing an inode leaves alone. -/
theorem fresh_putInode (area : inum < 208) (low : nmeta ≤ s.freeblock)
    (fresh : ∀ b, s.Untouched b → s.sector b = fun _ => 0) :
    ∀ b, (s.putInode inum d).Untouched b → (s.putInode inum d).sector b = fun _ => 0 := by
  intro b zero
  have := iblock_area area
  have := nmeta_eq
  simp only [Image.putInode, Image.Untouched] at zero ⊢
  rw [update_of_ne (by omega)]
  exact fresh b zero

theorem sectors_putInode (area : inum < 208) (sectors : s.sectors = fssize) :
    (s.putInode inum d).sectors = fssize := by
  have := iblock_area area
  simp only [Image.putInode]
  rw [sectors]
  simp only [fssize]
  omega

theorem cur_view : (s.view inum d).cur hand = update s.disk inum d := by
  rw [Kernel.cur, icache_view]
  rfl

section Put

variable (area : inum < 208)

include area

/-- Writing the inode in hand is what the kernel's `iupdate` does. -/
theorem marked_putInode : (s.putInode inum d).marked = ((s.view inum d).synced hand).store := by
  have block := iblock_area area
  rw [Kernel.synced, Kernel.store_put, icache_view]
  refine (marked_update (.inl block.2) _).trans ?_
  rw [← marked_sector (s := s) (.inl block.2)]
  rfl

theorem disk_putInode : (s.putInode inum d).disk = update s.disk inum d := by
  have written := disk_synced (s.view inum d) hand
  rw [cur_view] at written
  funext i
  rw [Image.disk, marked_putInode area]
  exact congrFun written i

theorem used_putInode {b : Nat} (inside : b < sb.size) :
    sb.used (s.putInode inum d).marked b = sb.used s.marked b := by
  have area' : ((s.view inum d).icache hand).inum < (s.view inum d).sb.icap := by
    rw [icache_view]
    exact area
  rw [marked_putInode area]
  exact used_synced (k := s.view inum d) layout area' inside

/-- Writing an inode takes no block. -/
theorem dataBlock_putInode {b : Nat} (data : sb.DataBlock (s.putInode inum d).marked b) :
    sb.DataBlock s.marked b :=
  ⟨data.low, data.high, (used_putInode area data.high).symm.trans data.used⟩

variable (work : Blocks sb s.marked (update s.disk inum d))

include work

theorem blocks_putInode : Blocks sb (s.putInode inum d).marked (s.putInode inum d).disk := by
  have area' : ((s.view inum d).icache hand).inum < (s.view inum d).sb.icap := by
    rw [icache_view]
    exact area
  have synced := blocks_synced (k := s.view inum d) (p := hand) (by rw [cur_view]; exact work) area'
  rw [disk_synced, cur_view] at synced
  rw [disk_putInode area, marked_putInode area]
  exact synced

theorem block_putInode : (s.putInode inum d).block = (s.view inum d).blk hand := by
  have area' : ((s.view inum d).icache hand).inum < (s.view inum d).sb.icap := by
    rw [icache_view]
    exact area
  rw [← block_synced (k := s.view inum d) (p := hand) (by rw [cur_view]; exact work) area']
  funext i q
  rw [Image.block, disk_putInode area, marked_putInode area, Kernel.block, disk_synced, cur_view]
  rfl

theorem content_putInode : (s.putInode inum d).content = (s.view inum d).bytes hand := by
  have area' : ((s.view inum d).icache hand).inum < (s.view inum d).sb.icap := by
    rw [icache_view]
    exact area
  rw [← content_synced (k := s.view inum d) (p := hand) (by rw [cur_view]; exact work) area']
  funext i
  rw [Image.content, disk_putInode area, marked_putInode area, Kernel.content, disk_synced, cur_view]
  rfl

end Put

/-- An inode is taken in hand as it is on the image. -/
theorem cur_take : (s.view inum (s.disk inum)).cur hand = s.disk := by
  rw [cur_view, update_eq_self]

theorem Settled.take (settled : Settled s) (area : inum < 208) (typed : (s.disk inum).type ≠ 0) :
    Building s inum (s.disk inum) := by
  refine ⟨⟨?_, log_view _ _ _, ?_, ?_⟩, settled.sectors, settled.low, settled.high, settled.fresh⟩
  · rw [cur_take]
    exact settled.blocks
  · rw [icache_view]
    exact area
  · rw [icache_view]
    exact typed

theorem blk_take (inum : Nat) : (s.view inum (s.disk inum)).blk hand = s.block := by
  funext i q
  rw [Kernel.blk, cur_take]
  rfl

theorem bytes_take (inum : Nat) : (s.view inum (s.disk inum)).bytes hand = s.content := by
  funext i
  rw [Kernel.bytes, cur_take]
  rfl

/-! ## Appending -/

/-- Bytes have been appended to inode `inum`. -/
structure Appended (inum : Nat) (data : List UInt8) (s s' : Image) : Prop where
  settled : Settled s'
  others : ∀ i < 208, i ≠ inum → s'.disk i = s.disk i
  type : (s'.disk inum).type = (s.disk inum).type
  nlink : (s'.disk inum).nlink = (s.disk inum).nlink
  size : (s'.disk inum).size.toNat = (s.disk inum).size.toNat + data.length
  content : s'.content =
    overwrite s.content inum (Bytes.ofList data) (s.disk inum).size.toNat data.length
  freeinode : s'.freeinode = s.freeinode

/-- The view with another copy of the inode in hand. -/
theorem view_edit (s : Image) (inum : Nat) (din d : Dinode) :
    (s.view inum din).edit hand d = s.view inum d := by
  simp [Kernel.edit, Kernel.setInode, Image.view]

/-- Which data blocks are there once a range has been written. -/
theorem Filled.there {src : Bytes} {off n : Nat} (filled : Filled inum src off n s din s' d)
    (old : ∀ m, s.at inum din (.item m) ≠ 0 ↔ m * bsize < off) (m : Nat) :
    s'.at inum d (.item m) ≠ 0 ↔ m * bsize < off + n := by
  obtain ⟨-, ⟨-, ext, -, there, new⟩, -⟩ := filled
  have keeps := ext.keeps inum (.item m)
  rw [icache_view] at there new
  constructor
  · intro after
    by_cases before : s.at inum din (.item m) = 0
    · obtain ⟨m', ⟨o, low, high, block⟩, path⟩ := new (.item m) before after
      obtain same | ⟨j, -, index⟩ := path
      · have := Nat.div_mul_le_self o bsize
        rw [block, ← Pos.item.inj same] at this
        omega
      · cases index
    · have := (old m).mp before
      omega
  · intro below
    by_cases inside : m * bsize < off
    · have before := (old m).mpr inside
      have same : s'.at inum d (.item m) = s.at inum din (.item m) := keeps before
      rwa [same]
    · exact there m ⟨m * bsize, by omega, below, Nat.mul_div_cancel m bsize_pos⟩

theorem iappend_spec (data : List UInt8) (settled : Settled s) (area : inum < 208)
    (typed : (s.disk inum).type ≠ 0) :
    wp (iappend inum data) (fun _ s' => Appended inum data s s' ∧
      Takes (data.length * (((s.disk inum).size.toNat + data.length) / bsize / perIndex + 2)) s s')
      (Short (data.length * (((s.disk inum).size.toNat + data.length) / bsize / perIndex + 2)) s)
      s := by
  have build := settled.take area typed
  unfold iappend
  rw [wp_bind]
  refine wp_of_run (rinode_run settled.sectors area) ?_
  refine wp_seq (appendLoop_spec build _ data.length (Bytes.ofList data) fun big => ?_) ?_
  · refine settled.blocks.headed inum area fun zero => big ?_
    rw [zero]
    rfl
  rintro ⟨din₁, off₁⟩ s₁ ⟨rfl, takes, filled⟩
  obtain ⟨h, inode⟩ := filled.wrote.ext.inode
  rw [icache_view, icache_view] at inode
  replace inode : din₁ = { s.disk inum with addrs := update (s.disk inum).addrs 0 h } :=
    (Inode.mk.inj inode).2.2.2.2
  generalize size : (s.disk inum).size.toNat = off at *
  have items := filled.there fun m => by
    show (s.view inum (s.disk inum)).blk hand inum _ ≠ 0 ↔ _
    rw [blk_take, ← size]
    exact settled.exact_blocks inum area m
  -- the blocks below the new size are distinct, so it fits in thirty-two bits
  have width : (UInt32.ofNat (off + data.length)).toNat = off + data.length := by
    have count : (off + data.length + bsize - 1) / bsize ≤ sb.size - sb.datastart :=
      filled.build.work.blocks.items_le (i := inum) fun n below => (items n).mpr (by
        simp only [bsize] at *
        omega)
    rw [UInt32.toNat_ofNat']
    refine Nat.mod_eq_of_lt ?_
    simp only [sb_size, fssize, bsize] at count
    omega
  have work := filled.build.work
  have area₁ : ((s₁.view inum din₁).icache hand).inum < (s₁.view inum din₁).sb.icap := work.area
  show wp (winode inum { din₁ with size := UInt32.ofNat (off + data.length) }) _ _ s₁
  generalize new : { din₁ with size := UInt32.ofNat (off + data.length) } = d
  have addrs : d.addrs = ((s₁.view inum din₁).icache hand).dinode.addrs := by
    rw [icache_view, ← new]
  have blocks : Blocks sb s₁.marked (update s₁.disk inum d) := by
    have edited := blocks_edit addrs work.blocks (fun free => ?_) fun big => ?_
    · rw [view_edit, cur_view] at edited
      exact edited
    · refine absurd ?_ typed
      rw [← new, inode] at free
      exact free
    · rw [← new]
      intro zero
      have item : s₁.at inum din₁ (.item 0) ≠ 0 := by
        refine (items 0).mpr ?_
        rw [Nat.zero_mul]
        refine Nat.pos_of_ne_zero fun none_left => big ?_
        rw [← new, none_left]
        rfl
      have first := Chain.idx_ne_zero_of_le (Nat.zero_le _) (Kernel.blk_index (j := _) rfl item)
      have head : s₁.at inum din₁ (.index 0) = _ := head_at area
      rw [zero] at head
      exact first head
  have blk : (s₁.view inum d).blk hand = (s₁.view inum din₁).blk hand := by
    rw [← view_edit s₁ inum din₁ d]
    exact blk_edit area₁ addrs
  have kept : ∀ i < 208, s₁.disk i = s.disk i := fun i inside =>
    filled.wrote.ext.dinodes i inside
  refine wp_of_run (winode_run filled.build.sectors area) ⟨⟨⟨blocks_putInode area blocks, ?_,
    filled.build.low, filled.build.high, fun b zero => ?_, fun i inside n => ?_, fun b data => ?_⟩,
    fun i inside other => ?_, ?_, ?_, ?_, ?_, filled.freeinode⟩, takes⟩
  · exact sectors_putInode area filled.build.sectors
  · exact fresh_putInode area filled.build.low filled.build.fresh b zero
  · rw [block_putInode area blocks, blk, disk_putInode area]
    by_cases here : i = inum
    · subst here
      rw [update_self, ← new, width]
      exact items n
    · have apart := filled.wrote.ext.apart i (.item n) (by rw [icache_view]; exact here)
      rw [apart, blk_take, update_of_ne here, kept i inside]
      exact settled.exact_blocks i inside n
  · rw [block_putInode area blocks, blk]
    have before := dataBlock_putInode area data
    rcases filled.wrote.ext.marks b before with old | ⟨q, here⟩
    · have nonzero : b ≠ 0 := by
        have := sb.datastart_gt
        have := data.low
        omega
      obtain ⟨i, q, here⟩ := settled.chained b ⟨data.low, data.high, old⟩
      rw [← blk_take inum] at here
      exact ⟨i, q, by rw [filled.wrote.ext.keeps i q (here ▸ nonzero), here]⟩
    · exact ⟨_, q, here⟩
  · rw [disk_putInode area, update_of_ne other, kept i inside]
  · rw [disk_putInode area, update_self, ← new, inode]
  · rw [disk_putInode area, update_self, ← new, inode]
  · rw [disk_putInode area, update_self, ← new, size]
    exact width
  · have bytes := filled.wrote.bytes
    rw [bytes_take, icache_view] at bytes
    rw [content_putInode area blocks, ← view_edit s₁ inum din₁ d, bytes_edit area₁ addrs, size]
    exact bytes

/-! ## What an inode holds -/

/-- Inode `i` is a file or directory that holds `bytes`. -/
structure Keeps (s : Image) (i : Nat) (type : Int16) (bytes : List UInt8) : Prop where
  type : (s.disk i).type = type
  nlink : (s.disk i).nlink = 1
  size : (s.disk i).size.toNat = bytes.length
  bytes : (s.content i).slice 0 bytes.length = bytes
  /-- Nothing is left behind the end. -/
  rest : ∀ o, (s.disk i).size.toNat ≤ o → s.content i o = 0

section Keeps

variable {i : Nat} {type : Int16} {bytes data : List UInt8}

theorem Keeps.append (keeps : Keeps s i type bytes) (appended : Appended i data s s') :
    Keeps s' i type (bytes ++ data) := by
  refine ⟨appended.type.trans keeps.type, appended.nlink.trans keeps.nlink, ?_, ?_,
    fun o past => ?_⟩
  · rw [appended.size, keeps.size, List.length_append]
  · rw [appended.content, overwrite, update_self, keeps.size, List.length_append,
      ← Bytes.slice_append, Bytes.slice_copy_below _ _ (by omega), keeps.bytes, Nat.zero_add,
      Bytes.slice_copy, Bytes.slice_ofList]
  · rw [appended.size] at past
    rw [appended.content, overwrite_apply, if_neg (by omega), keeps.rest o (by omega)]

theorem Keeps.other {j : Nat} (keeps : Keeps s i type bytes) (appended : Appended j data s s')
    (area : i < 208) (other : i ≠ j) : Keeps s' i type bytes := by
  have disk := appended.others i area other
  have content : s'.content i = s.content i := by
    rw [appended.content, overwrite, update_of_ne other]
  refine ⟨by rw [disk, keeps.type], by rw [disk, keeps.nlink], by rw [disk, keeps.size], ?_, ?_⟩
  · rw [content, keeps.bytes]
  · rw [content, disk]
    exact keeps.rest

end Keeps

/-- The most blocks that appending `n` bytes to an empty inode takes, in pieces of
any size. -/
def fileCost (n : Nat) : Nat :=
  n * (n / bsize / perIndex + 2)

/-- Everything but inode `i` is as it was. -/
structure Apart (i : Nat) (s s' : Image) : Prop where
  settled : Settled s'
  freeinode : s'.freeinode = s.freeinode
  disk : ∀ j < 208, j ≠ i → s'.disk j = s.disk j
  keeps : ∀ j < 208, j ≠ i → ∀ type bytes, Keeps s j type bytes → Keeps s' j type bytes

theorem Apart.trans {i : Nat} {s'' : Image} (first : Apart i s s') (second : Apart i s' s'') :
    Apart i s s'' :=
  ⟨second.settled, second.freeinode.trans first.freeinode,
    fun j area other => (second.disk j area other).trans (first.disk j area other),
    fun j area other type bytes keeps =>
      second.keeps j area other type bytes (first.keeps j area other type bytes keeps)⟩

theorem Appended.apart {i : Nat} {data : List UInt8} (appended : Appended i data s s') :
    Apart i s s' :=
  ⟨appended.settled, appended.freeinode, appended.others, fun _ area other _ _ keeps =>
    keeps.other appended area other⟩

theorem iappends_spec {i : Nat} (total : Nat) {type : Int16} {bytes : List UInt8}
    {pieces : List (List UInt8)} (settled : Settled s) (area : i < 208) (typed : type ≠ 0)
    (keeps : Keeps s i type bytes) (fits : bytes.length + pieces.flatten.length ≤ total) :
    wp (iappends i pieces) (fun _ s' => Apart i s s' ∧ Keeps s' i type (bytes ++ pieces.flatten) ∧
      Takes (pieces.flatten.length * (total / bsize / perIndex + 2)) s s')
      (Short (pieces.flatten.length * (total / bsize / perIndex + 2)) s) s := by
  induction pieces generalizing s bytes with
  | nil =>
    refine ⟨⟨settled, rfl, fun _ _ _ => rfl, fun _ _ _ _ _ => id⟩, ?_,
      (Takes.refl s).mono (Nat.zero_le _)⟩
    rwa [List.flatten_nil, List.append_nil]
  | cons piece pieces ih =>
    rw [List.flatten_cons, List.length_append] at fits ⊢
    have level : (bytes.length + piece.length) / bsize / perIndex ≤ total / bsize / perIndex :=
      Nat.div_le_div_right (Nat.div_le_div_right (by omega))
    have cost : piece.length * ((bytes.length + piece.length) / bsize / perIndex + 2) ≤
        piece.length * (total / bsize / perIndex + 2) := Nat.mul_le_mul_left _ (by omega)
    rw [Nat.add_mul]
    unfold iappends
    rw [wp_bind]
    have spec := iappend_spec piece settled area (by rw [keeps.type]; exact typed)
    rw [keeps.size] at spec
    refine wp_mono spec ?_ fun e short => ?_
    · rintro _ s₁ ⟨appended, takes⟩
      have kept := keeps.append appended
      refine wp_mono (ih appended.settled kept (by rw [List.length_append]; omega)) ?_
        fun e short => ?_
      · rintro _ s₂ ⟨apart, keeps₂, takes₂⟩
        rw [List.append_assoc] at keeps₂
        exact ⟨appended.apart.trans apart, keeps₂, (takes.trans takes₂).mono (by omega)⟩
      · have := takes.short short
        unfold Short at *
        omega
    · unfold Short at *
      omega

end BasicOS.Mkfs
