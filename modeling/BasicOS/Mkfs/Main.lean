/-
# BasicOS.Mkfs.Main — the image mkfs leaves

By induction over the command line, `mkfs` adds to the root directory one entry
for each input file and stores its bytes in the next inode, as long as the inode
fits in the inode blocks (`addFiles_spec`).  `Finished img fs` collects what the
image holds at the end; `mkfs_finished` says that every completed run leaves such
an image, and `mkfs_completes` that small inputs do complete.
-/
import BasicOS.Mkfs.Build

namespace BasicOS.Mkfs

open Lib Function
open Lib.Chain (Pos addr idx Placed Fresh OnPath)
open Lib.Prog

set_option autoImplicit false

/-- The entries of the root directory. -/
def rootBytes (fs : List InputFile) : List UInt8 :=
  direntBytes 1 [46] ++ direntBytes 1 [46, 46] ++
    (fs.zipIdx 2).flatMap fun e => direntBytes e.2 e.1.stored

@[simp] theorem length_direntBytes (inum : Nat) (name : List UInt8) :
    (direntBytes inum name).length = 16 :=
  Bytes.length_slice _ _ _

theorem length_rootBytes (fs : List InputFile) :
    (rootBytes fs).length = 16 * (fs.length + 2) := by
  have entries : ∀ n, ((fs.zipIdx n).flatMap fun e => direntBytes e.2 e.1.stored).length =
      16 * fs.length := by
    intro n
    induction fs generalizing n with
    | nil => rfl
    | cons f fs ih =>
      rw [List.zipIdx_cons, List.flatMap_cons, List.length_append, ih, length_direntBytes,
        List.length_cons]
      omega
  rw [rootBytes, List.length_append, List.length_append, entries, length_direntBytes,
    length_direntBytes]
  omega

theorem rootBytes_append (fs : List InputFile) (f : InputFile) :
    rootBytes (fs ++ [f]) = rootBytes fs ++ direntBytes (fs.length + 2) f.stored := by
  simp [rootBytes, List.zipIdx_append, Nat.add_comm]

/-- What the image holds when the input files `fs` have been added. -/
structure Built (s : Image) (fs : List InputFile) : Prop where
  settled : Settled s
  next : s.freeinode = fs.length + 2
  unused : ∀ i < 208, i = 0 ∨ s.freeinode ≤ i → s.disk i = Dinode.zero
  root : Keeps s 1 tDir (rootBytes fs)
  files : ∀ j (inside : j < fs.length), Keeps s (j + 2) tFile fs[j].content

variable {s s' : Image} {inum : Nat} {d : Dinode}

/-! ## Writing an inode that keeps its blocks -/

section Reput

variable (blocks : Blocks sb s.marked s.disk) (area : inum < 208)
  (addrs : d.addrs = (s.disk inum).addrs) (free : d.type = 0 → d.addrs 0 = 0)
  (headed : d.size ≠ 0 → d.addrs 0 ≠ 0)

include area addrs

theorem view_blk_same : (s.view inum d).blk hand = s.block := by
  rw [← view_edit s inum (s.disk inum) d, ← blk_take inum]
  refine blk_edit ?_ ?_
  · rw [icache_view]
    exact area
  · rw [icache_view, addrs]

theorem view_bytes_same : (s.view inum d).bytes hand = s.content := by
  rw [← view_edit s inum (s.disk inum) d, ← bytes_take inum]
  refine bytes_edit ?_ ?_
  · rw [icache_view]
    exact area
  · rw [icache_view, addrs]

include blocks free headed

theorem reput : Blocks sb (s.putInode inum d).marked (s.putInode inum d).disk ∧
    (s.putInode inum d).block = s.block ∧ (s.putInode inum d).content = s.content := by
  have work : Blocks sb s.marked (update s.disk inum d) := blocks.fields addrs free headed
  refine ⟨blocks_putInode area work, ?_, ?_⟩
  · rw [block_putInode area work, view_blk_same area addrs]
  · rw [content_putInode area work, view_bytes_same area addrs]

end Reput

/-! ## A new inode -/

structure Made (i : Nat) (type : Int16) (s s' : Image) : Prop where
  settled : Settled s'
  freeinode : s'.freeinode = s.freeinode + 1
  freeblock : s'.freeblock = s.freeblock
  disk : ∀ j < 208, j ≠ i → s'.disk j = s.disk j
  keeps : ∀ j < 208, j ≠ i → ∀ type bytes, Keeps s j type bytes → Keeps s' j type bytes
  new : Keeps s' i type []

theorem ialloc_spec {type : Int16} (settled : Settled s) (area : s.freeinode < 208)
    (unused : s.disk s.freeinode = Dinode.zero) :
    wp (ialloc type) (fun i s' => i = s.freeinode ∧ Made i type s s') (fun _ => False) s := by
  unfold ialloc
  simp only [wp_bind, wp_get, wp_set]
  generalize counted : { s with freeinode := s.freeinode + 1 } = s₁
  have marked : s₁.marked = s.marked := by rw [← counted]; rfl
  have disk : s₁.disk = s.disk := by
    funext i
    rw [Image.disk, marked]
    rfl
  have sectors : s₁.sectors = fssize := by rw [← counted]; exact settled.sectors
  have freeblock : s₁.freeblock = s.freeblock := by rw [← counted]
  have sector : s₁.sector = s.sector := by rw [← counted]
  generalize new : { Dinode.zero with type := type, nlink := 1 } = d
  have addrs : d.addrs = (s₁.disk s.freeinode).addrs := by
    rw [disk, unused, ← new]
  have size : d.size = 0 := by rw [← new]; rfl
  obtain ⟨blocks, block, content⟩ := reput (s := s₁) (d := d)
    (by rw [marked, disk]; exact settled.blocks) area addrs
    (fun _ => by rw [addrs, disk, unused]; rfl) fun big => absurd size big
  have block₁ : s₁.block = s.block := by
    funext i q
    rw [Image.block, marked, disk]
    rfl
  have content₁ : s₁.content = s.content := by
    funext i
    rw [Image.content, marked, disk]
    rfl
  have disk' := disk_putInode (s := s₁) (d := d) area
  have others : ∀ j < 208, j ≠ s.freeinode → (s₁.putInode s.freeinode d).disk j = s.disk j := by
    intro j _ other
    rw [disk', update_of_ne other, disk]
  have fresh := fresh_putInode (s := s₁) (d := d) area (by rw [freeblock]; exact settled.low)
    (by unfold Image.Untouched; rw [freeblock, sector]; exact settled.fresh)
  refine wp_of_run (winode_run sectors area) ?_
  rw [wp_pure]
  refine ⟨rfl, ⟨blocks, sectors_putInode area sectors, ?_, ?_, fresh, fun i inside n => ?_,
    fun b data => ?_⟩, ?_, ?_,
    others, fun j inside other type bytes keeps => ?_, ?_⟩
  · show nmeta ≤ s₁.freeblock
    rw [freeblock]
    exact settled.low
  · show s₁.freeblock ≤ fssize
    rw [freeblock]
    exact settled.high
  · rw [block, block₁]
    by_cases here : i = s.freeinode
    · subst here
      rw [disk', update_self, size]
      have none_left := settled.exact_blocks _ inside n
      rw [unused] at none_left
      exact none_left
    · rw [others i inside here]
      exact settled.exact_blocks i inside n
  · rw [block, block₁]
    exact settled.chained b (marked ▸ dataBlock_putInode area data)
  · show s₁.freeinode = _
    rw [← counted]
  · exact freeblock
  · have same := others j inside other
    refine ⟨by rw [same, keeps.type], by rw [same, keeps.nlink], by rw [same, keeps.size], ?_, ?_⟩
    · rw [content, content₁, keeps.bytes]
    · rw [content, content₁, same]
      exact keeps.rest
  · refine ⟨?_, ?_, ?_, rfl, fun o _ => ?_⟩
    · rw [disk', update_self, ← new]
    · rw [disk', update_self, ← new]
    · rw [disk', update_self, size]
      rfl
    · -- it has no blocks
      have none_left : s.block s.freeinode (.item (o / bsize)) = 0 := by
        by_contra there
        have below := (settled.exact_blocks _ area _).mp there
        rw [unused] at below
        exact Nat.not_lt_zero _ below
      rw [content, content₁]
      exact if_pos none_left

/-! ## The command line -/

/-- An entry is appended to the root directory. -/
theorem iappend_root {bytes name : List UInt8} {n : Nat}
    (settled : Settled s) (root : Keeps s 1 tDir bytes) (small : bytes.length ≤ 16 * 208) :
    wp (iappend 1 (direntBytes n name)) (fun _ s' => Appended 1 (direntBytes n name) s s' ∧
      Takes 32 s s') (Short 32 s) s := by
  have spec := iappend_spec (direntBytes n name) settled (by decide : 1 < 208)
    (by rw [root.type]; decide)
  have level : (bytes.length + 16) / bsize / perIndex = 0 := by
    simp only [bsize, perIndex, nindirect]
    omega
  rwa [root.size, length_direntBytes, level] at spec

theorem addFile_spec {fs : List InputFile} {f : InputFile} (built : Built s fs)
    (room : fs.length < 206) :
    wp (addFile 1 f) (fun _ s' => Built s' (fs ++ [f]) ∧ Takes (32 + fileCost f.content.length) s s')
      (fun e => 47 ∈ f.name ∨ Short (32 + fileCost f.content.length) s e) s := by
  have next := built.next
  have area : s.freeinode < 208 := by omega
  unfold addFile
  refine wp_ite (fun slash => .inl slash) fun _ => ?_
  refine wp_seq_sure (ialloc_spec built.settled area (built.unused _ area (.inr (Nat.le_refl _)))) ?_
  rintro i s₁ ⟨rfl, made⟩
  have root₁ := made.keeps 1 (by decide) (by omega) _ _ built.root
  rw [wp_bind]
  refine wp_mono (iappend_root made.settled root₁ (by
    rw [length_rootBytes]
    omega)) ?_ fun e short => .inr ?_
  · rintro _ s₂ ⟨appended, takes₂⟩
    have new₂ := made.new.other appended area (by omega)
    have root₂ := root₁.append appended
    refine wp_mono (iappends_spec f.content.length appended.settled area (by decide)
      new₂ (by rw [InputFile.content, List.length_nil, Nat.zero_add])) ?_ fun e short => .inr ?_
    · rintro _ s₃ ⟨apart, keeps, takes₃⟩
      have takes : Takes (32 + fileCost f.content.length) s s₃ := by
        have both := takes₂.trans takes₃
        unfold Takes at *
        rw [made.freeblock] at both
        exact both
      refine ⟨⟨apart.settled, ?_, fun j inside which => ?_, ?_, fun j inside => ?_⟩, takes⟩
      · rw [apart.freeinode, appended.freeinode, made.freeinode, next, List.length_append]
        rfl
      · have after : j ≠ s.freeinode ∧ j ≠ 1 ∧ (j = 0 ∨ s.freeinode ≤ j) := by
          rw [apart.freeinode, appended.freeinode, made.freeinode] at which
          omega
        rw [apart.disk j inside after.1, appended.others j inside after.2.1,
          made.disk j inside after.1]
        exact built.unused j inside after.2.2
      · rw [rootBytes_append, ← next]
        exact apart.keeps 1 (by decide) (by omega) _ _ root₂
      · rw [List.length_append, List.length_singleton] at inside
        by_cases last : j = fs.length
        · subst last
          rw [List.getElem_append_right (Nat.le_refl _), ← next]
          simpa [InputFile.content] using keeps
        · have before : j < fs.length := by omega
          rw [List.getElem_append_left before]
          have old := made.keeps (j + 2) (by omega) (by omega) _ _ (built.files j before)
          exact apart.keeps (j + 2) (by omega) (by omega) _ _
            (old.other appended (by omega) (by omega))
    · have both := takes₂.short short
      unfold Short at *
      rw [made.freeblock] at both
      exact both
  · unfold Short at *
    rw [made.freeblock] at short
    omega

/-- The most blocks that adding the files takes. -/
def filesCost (fs : List InputFile) : Nat :=
  (fs.map fun f => 32 + fileCost f.content.length).sum

theorem addFiles_spec {fs rest : List InputFile} (built : Built s fs)
    (room : fs.length + rest.length ≤ 206) :
    wp (addFiles 1 rest) (fun _ s' => Built s' (fs ++ rest) ∧ Takes (filesCost rest) s s')
      (fun e => (∃ f ∈ rest, 47 ∈ f.name) ∨ Short (filesCost rest) s e) s := by
  induction rest generalizing s fs with
  | nil => exact ⟨by rwa [List.append_nil], Takes.refl s⟩
  | cons f rest ih =>
    have cost : filesCost (f :: rest) = 32 + fileCost f.content.length + filesCost rest := by
      simp [filesCost]
    rw [List.length_cons] at room
    unfold addFiles
    rw [wp_bind, cost]
    refine wp_mono (addFile_spec built (by omega)) ?_ ?_
    · rintro _ s₁ ⟨built₁, takes₁⟩
      refine wp_mono (ih built₁ (by rw [List.length_append, List.length_singleton]; omega))
        ?_ ?_
      · rintro _ s₂ ⟨built₂, takes₂⟩
        rw [List.append_assoc, List.singleton_append] at built₂
        exact ⟨built₂, takes₁.trans takes₂⟩
      · rintro e (⟨g, mem, slash⟩ | short)
        · exact .inl ⟨g, List.mem_cons_of_mem _ mem, slash⟩
        · exact .inr (takes₁.short short)
    · rintro e (slash | short)
      · exact .inl ⟨f, List.mem_cons_self, slash⟩
      · right
        unfold Short at *
        omega

/-! ## The start -/

theorem decode_superBytes : Superblock.decode (superBytes sb) = sb := by
  simp [Superblock.decode, superBytes, Bytes.get32_put32_ne]
  decide

theorem wzeroes_wp {n : Nat} {Q : Unit → Image → Prop} {E : Stop → Prop}
    (ok : Q () { blank with sectors := n }) : wp (wzeroes n) Q E blank :=
  wp_of_run (wzeroes_run n) ok

/-- The image with nothing but a superblock. -/
def start : Image :=
  { blank with sector := update blank.sector 1 (superBytes sb), sectors := fssize }

theorem start_disk {i : Nat} (area : i < 208) : start.disk i = Dinode.zero := by
  have block := iblock_area area
  have zero : start.marked (sb.iblock i) = fun _ => 0 := by
    rw [marked_sector (.inl block.2)]
    show update blank.sector 1 (superBytes sb) (sb.iblock i) = _
    rw [update_of_ne (by omega)]
    rfl
  rw [Image.disk, Superblock.dinode, zero]
  rfl

theorem start_settled : Settled start := by
  have empty : ∀ i q, start.block i q = 0 := by
    intro i q
    have head : sb.heads start.disk i = 0 := by
      unfold Superblock.heads
      split
      · rw [start_disk ‹_›]
        rfl
      · rfl
    rw [Image.block, Superblock.blockAt, head, Chain.addr_zero]
  refine ⟨⟨layout, ?_, fun b reserved => ?_, ⟨fun _ there => absurd (empty _ _) there,
    fun there => absurd (empty _ _) there⟩, fun i area j _ => ?_, fun i area _ => ?_,
    fun i area big => ?_⟩, rfl, Nat.le_refl _, by decide, fun b zero => ?_, fun i area n => ?_,
    fun b data => ?_⟩
  · rw [marked_sector (.inl (by decide))]
    exact decode_superBytes
  · rw [sb_datastart] at reserved
    rw [used_marked (Nat.lt_trans reserved (by decide))]
    exact decide_eq_true reserved
  · rw [start_disk area]
    rfl
  · rw [start_disk area]
    rfl
  · rw [start_disk area] at big
    exact absurd rfl big
  · have := nmeta_eq
    have : start.freeblock = nmeta := rfl
    show update blank.sector 1 (superBytes sb) b = _
    rw [update_of_ne (by omega)]
    rfl
  · rw [start_disk area, empty]
    simp [Dinode.zero]
  · -- nothing is taken yet
    obtain ⟨low, high, used⟩ := data
    rw [used_marked high, decide_eq_true_eq] at used
    exact absurd used (Nat.not_lt.mpr low)

theorem addRoot_spec :
    wp addRoot (fun root s' => root = 1 ∧ Built s' [] ∧ Takes 64 start s') (fun _ => False)
      start := by
  unfold addRoot
  refine wp_seq_sure (ialloc_spec start_settled (by decide) (start_disk (by decide))) ?_
  rintro i s₁ ⟨rfl, made⟩
  have new : Keeps s₁ 1 tDir [] := made.new
  rw [if_pos (by rfl), wp_bind]
  have budget : ∀ s : Image, ∀ e, Takes 32 start s → Short 32 s e → False := by
    intro s e takes short
    have : start.freeblock = 123 := rfl
    unfold Takes Short fssize at *
    omega
  have none_taken : Takes 0 start s₁ := ⟨Nat.le_of_eq made.freeblock.symm, Nat.le_of_eq made.freeblock⟩
  refine wp_mono (iappend_root made.settled new (Nat.zero_le _)) ?_
    fun e short => budget s₁ e (none_taken.mono (by decide)) short
  rintro _ s₂ ⟨first, takes₂⟩
  have takes : Takes 32 start s₂ := none_taken.trans takes₂
  rw [wp_bind]
  have dot := new.append first
  refine wp_mono (iappend_root first.settled dot (by simp)) ?_
    fun e short => budget s₂ e takes short
  rintro _ s₃ ⟨second, takes₃⟩
  refine ⟨rfl, ⟨second.settled, ?_, fun j inside which => ?_, ?_, fun j inside => ?_⟩,
    takes.trans takes₃⟩
  · rw [second.freeinode, first.freeinode, made.freeinode]
    rfl
  · have other : j ≠ 1 := by
      rw [second.freeinode, first.freeinode, made.freeinode] at which
      have : start.freeinode = 1 := rfl
      omega
    rw [second.others j inside other, first.others j inside other, made.disk j inside other]
    exact start_disk inside
  · have both := dot.append second
    have one : start.freeinode = 1 := rfl
    simpa [rootBytes, one] using both
  · cases inside

/-! ## The end -/

/-- The size of the root directory on the finished image. -/
def rootSize (n : Nat) : Nat :=
  (16 * (n + 2) / bsize + 1) * bsize

/-- What the image holds once the root directory's size has been rounded up. -/
structure Contents (s : Image) (fs : List InputFile) : Prop where
  blocks : Blocks sb s.marked s.disk
  unused : ∀ i < 208, i = 0 ∨ fs.length + 2 ≤ i → s.disk i = Dinode.zero
  rootType : (s.disk 1).type = tDir
  rootLink : (s.disk 1).nlink = 1
  rootSize : (s.disk 1).size.toNat = rootSize fs.length
  rootBytes : (s.content 1).slice 0 (16 * (fs.length + 2)) = rootBytes fs
  /-- The entries after those are free. -/
  rootRest : ∀ o, 16 * (fs.length + 2) ≤ o → s.content 1 o = 0
  /-- The root directory has the blocks of its entries, whatever its size says. -/
  rootBlocks : ∀ n, s.block 1 (.item n) ≠ 0 ↔ n * bsize < 16 * (fs.length + 2)
  files : ∀ j (inside : j < fs.length), Keeps s (j + 2) tFile fs[j].content
  otherBlocks : ∀ i < 208, i ≠ 1 → ∀ n,
    s.block i (.item n) ≠ 0 ↔ n * bsize < (s.disk i).size.toNat
  chained : ∀ b, sb.DataBlock s.marked b → ∃ i q, s.block i q = b

theorem Contents.congr {fs : List InputFile} (contents : Contents s fs)
    (marked : s'.marked = s.marked) : Contents s' fs := by
  have disk : s'.disk = s.disk := by
    funext i
    rw [Image.disk, marked]
    rfl
  have block : s'.block = s.block := by
    funext i q
    rw [Image.block, marked, disk]
    rfl
  have content : s'.content = s.content := by
    funext i
    rw [Image.content, marked, disk]
    rfl
  obtain ⟨blocks, unused, rootType, rootLink, rootSize, rootBytes, rootRest, rootBlocks, files,
    otherBlocks, chained⟩ := contents
  rw [← disk] at unused rootType rootLink rootSize
  rw [← marked, ← disk] at blocks
  rw [← content] at rootBytes rootRest
  rw [← block] at rootBlocks otherBlocks chained
  rw [← marked] at chained
  rw [← disk] at otherBlocks
  refine ⟨blocks, unused, rootType, rootLink, rootSize, rootBytes, rootRest, rootBlocks,
    fun j inside => ?_, otherBlocks, chained⟩
  have keeps := files j inside
  exact ⟨by rw [disk, keeps.type], by rw [disk, keeps.nlink], by rw [disk, keeps.size],
    by rw [content, keeps.bytes], by rw [content, disk]; exact keeps.rest⟩

/-- The image `mkfs` leaves. -/
structure Finished (img : Image) (fs : List InputFile) : Prop extends Contents img fs where
  /-- The free map is on the image. -/
  sector : img.sector = img.marked
  /-- The log is empty. -/
  header : img.marked 2 = fun _ => 0
  /-- The bits of the blocks in use fit in one block of the free map. -/
  room : img.freeblock < bpb

theorem fixRoot_spec {fs : List InputFile} (built : Built s fs) (few : fs.length ≤ 206) :
    wp (fixRoot 1) (fun _ s' => Contents s' fs ∧ s'.freeblock = s.freeblock ∧
      ∀ b, s'.Untouched b → s'.sector b = fun _ => 0) (fun _ => False) s := by
  have settled := built.settled
  have root := built.root
  have size := root.size
  rw [length_rootBytes] at size
  unfold fixRoot
  rw [wp_bind]
  refine wp_of_run (rinode_run settled.sectors (by decide)) ?_
  generalize new : { s.disk 1 with
    size := ((s.disk 1).size / UInt32.ofNat bsize + 1) * UInt32.ofNat bsize } = d
  have addrs : d.addrs = (s.disk 1).addrs := by rw [← new]
  have head : d.addrs 0 ≠ 0 := by
    rw [addrs]
    refine settled.blocks.headed 1 (by decide) fun zero => ?_
    rw [zero] at size
    have : (0 : UInt32).toNat = 0 := rfl
    omega
  have rounded : d.size.toNat = rootSize fs.length := by
    rw [← new]
    have block : (UInt32.ofNat bsize).toNat = 512 := rfl
    have one : (1 : UInt32).toNat = 1 := rfl
    simp only [rootSize, UInt32.toNat_mul, UInt32.toNat_add, UInt32.toNat_div, size, block, one,
      bsize]
    omega
  have typed : d.type = tDir := by rw [← new, root.type]
  obtain ⟨blocks, block, content⟩ := reput (s := s) (d := d) settled.blocks
    (by decide : 1 < 208) addrs (fun free => by rw [typed] at free; cases free) fun _ => head
  have disk := disk_putInode (s := s) (d := d) (by decide : 1 < 208)
  have others : ∀ j, j ≠ 1 → (s.putInode 1 d).disk j = s.disk j := by
    intro j other
    rw [disk, update_of_ne other]
  refine wp_of_run (winode_run settled.sectors (by decide)) ⟨⟨blocks,
    fun i inside which => ?_, ?_, ?_, ?_, ?_, ?_, fun n => ?_, fun j inside => ?_,
    fun i inside other n => ?_, fun b data => ?_⟩, rfl,
    fresh_putInode (by decide) settled.low settled.fresh⟩
  · rw [others i (by omega)]
    exact built.unused i inside (by rw [built.next]; exact which)
  · rw [disk, update_self, typed]
  · rw [disk, update_self, ← new, root.nlink]
  · rw [disk, update_self, rounded]
  · rw [content, ← length_rootBytes, root.bytes]
  · rw [content, ← size]
    exact root.rest
  · rw [block, ← size]
    exact settled.exact_blocks 1 (by decide) n
  · have keeps := built.files j inside
    have same := others (j + 2) (by omega)
    refine ⟨by rw [same, keeps.type], by rw [same, keeps.nlink], by rw [same, keeps.size], ?_, ?_⟩
    · rw [content, keeps.bytes]
    · rw [content, same]
      exact keeps.rest
  · rw [block, others i other]
    exact settled.exact_blocks i inside n
  · rw [block]
    exact settled.chained b (dataBlock_putInode (by decide) data)

theorem balloc_spec {fs : List InputFile} (contents : Contents s fs)
    (fresh : ∀ b, s.Untouched b → s.sector b = fun _ => 0) :
    wp (balloc s.freeblock) (fun _ img => Finished img fs) (fun _ => 4096 ≤ s.freeblock) s := by
  unfold balloc
  refine wp_ite (fun small => ?_) fun large => Nat.not_lt.mp large
  unfold wsect
  rw [wp_modify]
  generalize written : { s with
    sector := update s.sector sb.bmapstart (bitmap s.freeblock)
    sectors := max s.sectors (sb.bmapstart + 1) } = img
  have marked : img.marked = s.marked := by
    funext b
    rw [← written]
    unfold Image.marked
    split
    · rfl
    · refine update_of_ne ?_ _ _
      have : sb.bmapstart < sb.datastart := by decide
      omega
  have sector : img.sector = s.marked := by
    funext b
    rw [← written]
    show update s.sector sb.bmapstart (bitmap s.freeblock) b = _
    by_cases here : b = sb.bmapstart
    · subst here
      rw [update_self, Image.marked, if_pos (by decide), freeMap, Nat.sub_self]
      congr 1
      simp only [bpb, bsize] at *
      omega
    · rw [update_of_ne here, Image.marked]
      split
      · -- the other blocks of the free map are zero: all that is in use is in the first
        rename_i area
        have empty : min (s.freeblock - bpb * (b - sb.bmapstart)) bpb = 0 := by
          simp only [bpb, bsize] at *
          omega
        rw [freeMap, empty, fresh b (.inr (.inl area))]
        rfl
      · rfl
  refine ⟨contents.congr marked, by rw [sector, marked], ?_, ?_⟩
  · rw [marked, marked_sector (.inl (by decide))]
    exact fresh 2 (.inl rfl)
  · rw [← written]
    exact small

/-- The whole program. -/
theorem main_spec {fs : List InputFile} (few : fs.length ≤ 206) :
    wp (main fs) (fun _ img => Finished img fs)
      (fun _ => (∃ f ∈ fs, 47 ∈ f.name) ∨ 4096 ≤ nmeta + 64 + filesCost fs) blank := by
  unfold main
  rw [wp_bind]
  refine wzeroes_wp ?_
  have begun : wsect 1 (superBytes sb) { blank with sectors := fssize } = .ok ((), start) := by
    rfl
  rw [wp_bind]
  refine wp_of_run begun ?_
  refine wp_seq_sure addRoot_spec ?_
  rintro _ s₁ ⟨rfl, built₁, takes₁⟩
  have first : start.freeblock = nmeta := rfl
  rw [wp_bind]
  refine wp_mono (addFiles_spec built₁ (by rw [List.length_nil]; omega)) ?_ ?_
  · rintro _ s₂ ⟨built₂, takes₂⟩
    rw [List.nil_append] at built₂
    refine wp_seq_sure (fixRoot_spec built₂ few) ?_
    rintro _ s₃ ⟨contents, freeblock, fresh⟩
    simp only [wp_bind, wp_get]
    refine wp_mono (balloc_spec contents fresh) (fun _ _ done => done) fun e full => .inr ?_
    unfold Takes at *
    omega
  · rintro e (slash | short)
    · exact .inl slash
    · right
      have both := takes₁.short short
      unfold Short at both
      have : (4096 : Nat) < fssize := by decide
      omega

theorem leaves_some {r : Except Stop (Unit × Image)} {img : Image} (done : leaves r = some img) :
    r = .ok ((), img) := by
  match r, done with
  | .ok (_, _), rfl => rfl

theorem leaves_none {r : Except Stop (Unit × Image)} (stopped : leaves r = none) :
    ∃ e, r = .error e := by
  match r, stopped with
  | .error e, _ => exact ⟨e, rfl⟩

/-- Every completed run of `mkfs` leaves a finished image. -/
theorem mkfs_finished {fs : List InputFile} {img : Image} (done : mkfs fs = some img)
    (few : fs.length ≤ 206) : Finished img fs :=
  (wp_iff.mp (main_spec few)).1 _ _ (leaves_some done)

/-- Small inputs without slashes in their names complete. -/
theorem mkfs_completes {fs : List InputFile} (few : fs.length ≤ 206)
    (names : ∀ f ∈ fs, 47 ∉ f.name) (small : nmeta + 64 + filesCost fs < 4096) :
    ∃ img, mkfs fs = some img := by
  cases result : mkfs fs with
  | some img => exact ⟨img, rfl⟩
  | none =>
    obtain ⟨e, run⟩ := leaves_none result
    rcases (wp_iff.mp (main_spec few)).2 e run with ⟨f, mem, slash⟩ | large
    · exact absurd slash (names f mem)
    · omega

end BasicOS.Mkfs
