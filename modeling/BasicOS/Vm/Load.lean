/-
# BasicOS.Vm.Load — what exec loads

`Loaded K d sz img m` is the state between two program headers: the address space
is well formed, exactly the pages of `sz` are mapped, and their bytes are those of
`img`, which is zero above.  `loadSegments_spec` carries it over all headers for
every file and every amount of free memory; no panic is left on the way.

`imageByte` says what the image should be: the byte of the last segment that
covers an address, and zero where none does.
-/
import BasicOS.Vm.Exec
import BasicOS.Vm.Grow
import Mathlib.Data.List.Induction

namespace BasicOS.Vm

open Function Lib
open Lib.Prog

set_option autoImplicit false

variable {K : Link} {m m' : Mem} {d v : Nat} {h : Option Nat} {e : UInt32}

/-! ## User bytes -/

/-- The byte at a user address. -/
def Mem.ubyte (m : Mem) (d a : Nat) : Option UInt8 :=
  (m.upage d (a / pgsize)).map fun page => page.2 (a % pgsize)

theorem ubyte_congr {a : Nat} (same : m'.upage d (a / pgsize) = m.upage d (a / pgsize)) :
    m'.ubyte d a = m.ubyte d a := by
  unfold Mem.ubyte
  rw [same]

theorem upage_of_leaf (has : m.leaf d v = some e) : m.upage d v = some (e, m.page (pteAddr e)) := by
  unfold Mem.upage
  rw [has]
  rfl

/-- Bytes of one user page are written. -/
theorem write_user (o n : Nat) (src : Bytes) (space : Space K m d h) (user : v < 2 ^ 19)
    (has : m.leaf d v = some e) :
    Space K (m.write (pteAddr e) o src n) d h ∧
      Changes m (own m d h) (m.write (pteAddr e) o src n) (own (m.write (pteAddr e) o src n) d h) ∧
      (∀ w < 2 ^ 20, (m.write (pteAddr e) o src n).leaf d w = m.leaf d w) ∧
      (∀ w < 2 ^ 19, w ≠ v → (m.write (pteAddr e) o src n).upage d w = m.upage d w) ∧
      (m.write (pteAddr e) o src n).upage d v = some (e, (m.page (pteAddr e)).copy o src n) := by
  have apart := space.page_apart user has
  have same : ∀ g, g ≠ pteAddr e → (m.write (pteAddr e) o src n).page g = m.page g :=
    fun g other => Mem.page_write_ne other
  have leaf : ∀ w < 2 ^ 20, (m.write (pteAddr e) o src n).leaf d w = m.leaf d w :=
    fun w inside => leaf_of_apart apart same inside
  have here := own_leaf (h := h) user has
  have changes : Changes m (own m d h) (m.write (pteAddr e) o src n)
      (own (m.write (pteAddr e) o src n) d h) := by
    rw [own_of_apart apart same]
    exact ⟨space.held.refl, fun g out => same g fun eq => out (.inr ⟨_, eq ▸ here⟩)⟩
  refine ⟨⟨changes.trade.held, changes.managed space.managed, fun w e' low high got => ?_⟩, changes,
    leaf, fun w below other => ?_, ?_⟩
  · rw [leaf w high] at got
    exact space.kernel w e' low high got
  · refine Mem.upage_congr (leaf w (by omega)) fun e' got => same _ fun eq => other ?_
    exact space.page_unique below user got has eq
  · rw [upage_of_leaf ((leaf v (by omega)).trans has), Mem.page_write_self]

/-! ## readi -/

theorem File.readi_le {ip : File} {off n c : Nat} (read : ip.readi off n = some c) (width : off < 2 ^ 32)
    (small : n ≤ pgsize) : c ≤ n ∧ (c = n → off + n ≤ ip.size) := by
  have bound := ip.width
  simp only [pgsize] at small
  unfold File.readi at read
  split at read
  · cases read
  · split at read
    · obtain rfl := Option.some.inj read
      omega
    · obtain rfl := Option.some.inj read
      omega

/-! ## loaduvm -/

/-- The bytes from `lo` to `hi` are those of the file, where address `addr` has the
byte at `offset`; the others are as before. -/
def Filled (m : Mem) (d : Nat) (ip : File) (addr offset lo hi : Nat) (m' : Mem) : Prop :=
  ∀ a < kernbase, m'.ubyte d a =
    if lo ≤ a ∧ a < hi then some (ip.bytes (offset + (a - addr))) else m.ubyte d a

theorem Filled.trans {m'' : Mem} {ip : File} {addr offset lo mid lo' hi : Nat}
    (first : Filled m d ip addr offset lo mid m') (second : Filled m' d ip addr offset lo' hi m'')
    (together : ∀ a, (lo ≤ a ∧ a < mid) ∨ (lo' ≤ a ∧ a < hi) ↔ lo ≤ a ∧ a < hi) :
    Filled m d ip addr offset lo hi m'' := by
  intro a below
  rw [second a below, first a below]
  by_cases late : lo' ≤ a ∧ a < hi
  · rw [if_pos late, if_pos ((together a).mp (.inr late))]
  · rw [if_neg late]
    by_cases early : lo ≤ a ∧ a < mid
    · rw [if_pos early, if_pos ((together a).mp (.inl early))]
    · rw [if_neg early, if_neg fun range => ((together a).mpr range).elim early late]

/-- The directory and the tables are as before. -/
structure Touched (K : Link) (d : Nat) (m m' : Mem) : Prop where
  space : Space K m' d none
  changes : Changes m (own m d none) m' (own m' d none)
  leaf : ∀ w < 2 ^ 20, m'.leaf d w = m.leaf d w

theorem Touched.refl (space : Space K m d none) : Touched K d m m :=
  ⟨space, .refl space.held, fun _ _ => rfl⟩

theorem Touched.trans {m'' : Mem} (first : Touched K d m m') (second : Touched K d m' m'') :
    Touched K d m m'' :=
  ⟨second.space, first.changes.trans second.changes,
    fun w inside => (second.leaf w inside).trans (first.leaf w inside)⟩

theorem filled_page (ip : File) (offset : Nat) {addr o n : Nat} (space : Space K m d none) (user : v < 2 ^ 19)
    (has : m.leaf d v = some e) (aligned : addr = o * pgsize) (after : o ≤ v) (fits : n ≤ pgsize) :
    Filled m d ip addr offset (v * pgsize) (v * pgsize + n)
      (m.write (pteAddr e) 0 (ip.bytes.drop (offset + (v - o) * pgsize)) n) := by
  obtain ⟨-, -, -, others, here⟩ :=
    write_user 0 n (ip.bytes.drop (offset + (v - o) * pgsize)) space user has
  intro a below
  by_cases page : a / pgsize = v
  · unfold Mem.ubyte
    rw [page, here, upage_of_leaf has]
    simp only [Option.map_some]
    by_cases inside : v * pgsize ≤ a ∧ a < v * pgsize + n
    · rw [if_pos inside, Bytes.copy_inside (Nat.zero_le _) (by simp only [pgsize] at *; omega)]
      unfold Bytes.drop
      congr 2
      simp only [pgsize] at *
      omega
    · rw [if_neg inside, Bytes.copy_outside (by simp only [pgsize] at *; omega)]
  · rw [if_neg (by simp only [pgsize] at *; omega)]
    exact ubyte_congr (others _ (by simp only [pgsize, kernbase] at *; omega) page)

theorem loaduvmLoop_spec (ip : File) {addr offset sz fuel o : Nat} (i : Nat) (space : Space K m d none)
    (aligned : addr = o * pgsize) (top : addr + sz ≤ kernbase)
    (mapped : ∀ w, o ≤ w → w * pgsize < addr + sz → m.leaf d w ≠ none)
    (width : i * pgsize < sz → offset + i * pgsize < 2 ^ 32) (enough : pages sz - i < fuel) :
    wp (loaduvmLoop d addr ip offset sz fuel (i * pgsize)) (fun ok m' => Touched K d m m' ∧
      (ok = true → Filled m d ip addr offset (addr + i * pgsize) (addr + sz) m')) (fun _ => False) m := by
  induction fuel generalizing m i with
  | zero => omega
  | succ fuel ih =>
    unfold loaduvmLoop
    refine wp_ite (fun more => ?_) fun done => ?_
    · have user : o + i < 2 ^ 19 := by
        simp only [pgsize, kernbase] at *
        omega
      have address : (addr + i * pgsize) % 2 ^ 32 = (o + i) * pgsize := by
        simp only [pgsize, kernbase] at *
        omega
      have reached : (o + i) * pgsize < addr + sz := by
        rw [aligned, Nat.add_mul]
        exact Nat.add_lt_add_left more _
      have present := mapped (o + i) (Nat.le_add_right o i) reached
      obtain ⟨e, has⟩ := Option.ne_none_iff_exists'.mp present
      obtain ⟨t, table, word, -⟩ := Mem.leaf_eq_some has
      rw [address, wp_bind]
      refine wp_of_run (walkpgdir_there (t := t) ?_ false) ?_
      · rw [pdx_page (by omega), table]
      dsimp only
      rw [wp_bind, wp_get, ptx_page, word, Nat.mod_eq_of_lt (width more)]
      generalize count : (if sz - i * pgsize < pgsize then sz - i * pgsize else pgsize) = n
      have small : n ≤ pgsize := by
        split at count <;> omega
      cases read : ip.readi (offset + i * pgsize) n with
      | none => exact ⟨.refl space, fun ok => by cases ok⟩
      | some c =>
        obtain ⟨le, full⟩ := File.readi_le read (width more) small
        have filled := filled_page ip offset space user has aligned
          (Nat.le_add_right o i) (Nat.le_trans le small)
        rw [Nat.add_sub_cancel_left, show (o + i) * pgsize = addr + i * pgsize by
          rw [aligned, Nat.add_mul]] at filled
        obtain ⟨space', changes', leaf', -, -⟩ :=
          write_user 0 c (ip.bytes.drop (offset + i * pgsize)) space user has
        have touched : Touched K d m _ := ⟨space', changes', leaf'⟩
        dsimp only
        rw [wp_bind, wp_modify]
        refine wp_ite (fun short => ⟨touched, fun ok => by cases ok⟩) fun all => ?_
        obtain rfl : c = n := not_not.mp all
        have file := full rfl
        have next : (i * pgsize + pgsize) % 2 ^ 32 = (i + 1) * pgsize :=
          next_page (by omega) rfl
        rw [next]
        refine wp_post (ih (i + 1) space' (fun w low reached => ?_) (fun more' => ?_) ?_)
          fun ok m'' later => ⟨touched.trans later.1, fun done => filled.trans (later.2 done) ?_⟩
        · rw [leaf' w (by simp only [pgsize, kernbase] at *; omega)]
          exact mapped w low reached
        · have := ip.width
          simp only [pgsize] at *
          split at count <;> omega
        · simp only [pages, pgsize] at *
          omega
        · intro a
          simp only [pgsize] at *
          split at count <;> omega
    · refine ⟨.refl space, fun _ a below => ?_⟩
      rw [if_neg (by omega)]

theorem loaduvm_spec {ip : File} {addr offset sz : Nat} (space : Space K m d none)
    (aligned : addr % pgsize = 0) (top : addr + sz ≤ kernbase) (width : offset < 2 ^ 32)
    (mapped : ∀ w, w * pgsize < addr + sz → m.leaf d w ≠ none) :
    wp (loaduvm d addr ip offset sz) (fun ok m' => Touched K d m m' ∧
      (ok = true → Filled m d ip addr offset addr (addr + sz) m')) (fun _ => False) m := by
  have whole : addr = addr / pgsize * pgsize := by
    rw [Nat.div_mul_cancel (Nat.dvd_of_mod_eq_zero aligned)]
  have bound : pages sz ≤ 2 ^ 19 := pages_le (by omega)
  have start : 0 * pgsize = 0 := Nat.zero_mul _
  have enough : pages sz - 0 < 2 ^ 20 + 1 := by omega
  have narrow : 0 * pgsize < sz → offset + 0 * pgsize < 2 ^ 32 := by
    intro _
    rw [start, Nat.add_zero]
    exact width
  have loop := loaduvmLoop_spec ip 0 space whole top (fun w _ => mapped w) narrow enough
  unfold loaduvm
  rw [if_neg (not_not.mpr aligned)]
  rwa [start, Nat.add_zero] at loop

/-! ## The image -/

/-- The bytes of the file that a header loads, over an image. -/
def Proghdr.place (ip : File) (img : Bytes) (ph : Proghdr) : Bytes :=
  img.copy ph.vaddr (ip.bytes.drop ph.off) ph.filesz

structure Loaded (K : Link) (d sz : Nat) (img : Bytes) (m : Mem) : Prop where
  space : Space K m d none
  exact : Exact m d sz
  below : sz < kernbase
  bytes : ∀ a < pages sz * pgsize, m.ubyte d a = some (img a)
  zero : ∀ a, pages sz * pgsize ≤ a → img a = 0

section Image

variable {sz newsz : Nat} {img : Bytes}

theorem Loaded.grown (loaded : Loaded K d sz img m) (less : sz ≤ newsz) (below : newsz < kernbase)
    (grown : Grown K d (pages sz) (pages newsz) m m') : Loaded K d newsz img m' := by
  have bound := pages_le (Nat.le_of_lt below)
  have order : pages sz ≤ pages newsz := by
    simp only [pages, pgsize]
    omega
  refine ⟨grown.space, loaded.exact.grown less grown, below, fun a inside => ?_, fun a above => ?_⟩
  · by_cases old : a < pages sz * pgsize
    · rw [← loaded.bytes a old]
      exact ubyte_congr (grown.kept _ (by simp only [pgsize] at *; omega)
        (.inl (by simp only [pgsize] at *; omega)))
    · obtain ⟨e, has, -⟩ := grown.fresh (a / pgsize) (by simp only [pgsize] at *; omega)
        (by simp only [pgsize] at *; omega)
      unfold Mem.ubyte
      rw [has, loaded.zero a (by omega)]
      rfl
  · exact loaded.zero a (Nat.le_trans (Nat.mul_le_mul_right _ order) above)

theorem Loaded.alloc (loaded : Loaded K d sz img m) :
    wp (allocuvm K d sz newsz) (fun r m' => Space K m' d none ∧
      Changes m (own m d none) m' (own m' d none) ∧
      (r ≠ 0 → r = max sz newsz ∧ Loaded K d r img m' ∧
        ∀ v, pages sz ≤ v → v < pages r → ∃ e, m'.leaf d v = some e ∧ User e)) (fun _ => False) m := by
  by_cases high : newsz ≥ kernbase
  · exact wp_of_run (allocuvm_high high) ⟨loaded.space, .refl loaded.space.held, by simp⟩
  have below : newsz < kernbase := by omega
  by_cases smaller : newsz < sz
  · exact wp_of_run (allocuvm_less below smaller) ⟨loaded.space, .refl loaded.space.held, fun _ =>
      ⟨(Nat.max_eq_left (Nat.le_of_lt smaller)).symm, loaded, fun v low high => absurd low (by omega)⟩⟩
  have bound := pages_le (Nat.le_of_lt below)
  refine wp_post (allocuvm_spec loaded.space (Nat.le_of_not_lt smaller) below fun w low high =>
    loaded.exact.empty (by omega) low) fun r m' done => ?_
  rcases done with ⟨rfl, grown⟩ | ⟨rfl, same⟩
  · refine ⟨grown.space, grown.changes, fun _ => ⟨(Nat.max_eq_right (Nat.le_of_not_lt smaller)).symm,
      loaded.grown (Nat.le_of_not_lt smaller) below grown, fun v low high => ?_⟩⟩
    obtain ⟨e, has, user⟩ := grown.fresh v low high
    exact ⟨e, Mem.leaf_of_upage_some has, user⟩
  · exact ⟨same.space, same.changes, by simp⟩

/-- The bytes of one header are in place. -/
theorem Loaded.filled {ip : File} {ph : Proghdr} (loaded : Loaded K d sz img m)
    (touched : Touched K d m m') (fits : ph.vaddr + ph.filesz ≤ sz)
    (filled : Filled m d ip ph.vaddr ph.off ph.vaddr (ph.vaddr + ph.filesz) m') :
    Loaded K d sz (ph.place ip img) m' := by
  have below := loaded.below
  have top : sz ≤ pages sz * pgsize := by
    simp only [pages, pgsize]
    omega
  have end_le : pages sz * pgsize ≤ kernbase :=
    Nat.mul_le_mul_right pgsize (pages_le (Nat.le_of_lt below))
  refine ⟨touched.space, fun v user => ?_, below, fun a inside => ?_, fun a above => ?_⟩
  · rw [touched.leaf v (by omega)]
    exact loaded.exact v user
  · rw [filled a (by omega)]
    unfold Proghdr.place
    by_cases covered : ph.vaddr ≤ a ∧ a < ph.vaddr + ph.filesz
    · rw [if_pos covered, Bytes.copy_inside covered.1 covered.2]
      rfl
    · rw [if_neg covered, Bytes.copy_outside (by omega), loaded.bytes a inside]
  · unfold Proghdr.place
    rw [Bytes.copy_outside (by omega), loaded.zero a above]

theorem loadSegment_spec (ip : File) {ph : Proghdr} (loaded : Loaded K d sz img m)
    (vaddr : ph.vaddr < 2 ^ 32) (memsz : ph.memsz < 2 ^ 32) (off : ph.off < 2 ^ 32) :
    wp (loadSegment K d ip ph sz) (fun r m' => Space K m' d none ∧
      Changes m (own m d none) m' (own m' d none) ∧
      ∀ sz', r = some sz' → Loaded K d sz' (ph.place ip img) m') (fun _ => False) m := by
  have bad : Space K m d none ∧ Changes m (own m d none) m (own m d none) ∧
      ∀ sz', none = some sz' → Loaded K d sz' (ph.place ip img) m :=
    ⟨loaded.space, .refl loaded.space.held, fun _ no => nomatch no⟩
  unfold loadSegment
  refine wp_ite (fun _ => bad) fun large => wp_ite (fun _ => bad) fun nowrap => ?_
  have sum : (ph.vaddr + ph.memsz) % 2 ^ 32 = ph.vaddr + ph.memsz := by omega
  rw [wp_bind, sum]
  refine wp_post loaded.alloc fun r m₁ alloc => ?_
  obtain ⟨space₁, changes₁, grown⟩ := alloc
  refine wp_ite (fun _ => ⟨space₁, changes₁, fun _ no => nomatch no⟩) fun some_pages =>
    wp_ite (fun _ => ⟨space₁, changes₁, fun _ no => nomatch no⟩) fun aligned => ?_
  obtain ⟨size, loaded₁, -⟩ := grown some_pages
  have fits : ph.vaddr + ph.filesz ≤ r := by omega
  have below := loaded₁.below
  refine wp_seq (loaduvm_spec space₁ (not_not.mp aligned) (by omega) off fun w reached => ?_)
    fun ok m₂ load => ?_
  · have user : w < 2 ^ 19 := by
      simp only [pgsize, kernbase] at *
      omega
    rw [← Option.isSome_iff_ne_none, loaded₁.exact w user]
    exact lt_pages.mp (by omega)
  · obtain ⟨touched, filled⟩ := load
    cases ok with
    | true =>
      refine ⟨touched.space, changes₁.trans touched.changes, fun sz' done => ?_⟩
      obtain rfl := Option.some.inj done
      exact loaded₁.filled touched fits (filled rfl)
    | false => exact ⟨touched.space, changes₁.trans touched.changes, fun _ no => nomatch no⟩

/-- The program headers that `exec` reads: `n` of them, from offset `off` on. -/
def headers (ip : File) : Nat → Nat → List Proghdr
  | 0, _ => []
  | n + 1, off => Proghdr.decode (ip.bytes.drop off) :: headers ip n ((off + proghdrSize) % 2 ^ 32)

/-- Those that are loaded. -/
def segments (ip : File) (n off : Nat) : List Proghdr :=
  (headers ip n off).filter fun ph => ph.type = elfProgLoad

theorem segments_succ (ip : File) (n off : Nat) : segments ip (n + 1) off =
    if (Proghdr.decode (ip.bytes.drop off)).type = elfProgLoad
    then Proghdr.decode (ip.bytes.drop off) :: segments ip n ((off + proghdrSize) % 2 ^ 32)
    else segments ip n ((off + proghdrSize) % 2 ^ 32) := by
  simp only [segments, headers, List.filter_cons, decide_eq_true_eq]

theorem loadSegments_spec (ip : File) (n off : Nat) (loaded : Loaded K d sz img m) :
    wp (loadSegments K d ip n off sz) (fun r m' => Space K m' d none ∧
      Changes m (own m d none) m' (own m' d none) ∧ ∀ sz', r = some sz' →
        Loaded K d sz' ((segments ip n off).foldl (fun img ph => ph.place ip img) img) m')
      (fun _ => False) m := by
  induction n generalizing m off sz img with
  | zero =>
    refine ⟨loaded.space, .refl loaded.space.held, fun sz' done => ?_⟩
    obtain rfl := Option.some.inj done
    exact loaded
  | succ n ih =>
    unfold loadSegments
    refine wp_ite (fun _ => ⟨loaded.space, .refl loaded.space.held, fun _ no => nomatch no⟩)
      fun _ => ?_
    rw [segments_succ]
    generalize decoded : Proghdr.decode (ip.bytes.drop off) = ph
    refine wp_ite (fun skipped => ?_) fun load => ?_
    · rw [if_neg skipped]
      exact ih _ loaded
    · rw [if_pos (not_not.mp load), wp_bind]
      have widths : ph.vaddr < 2 ^ 32 ∧ ph.memsz < 2 ^ 32 ∧ ph.off < 2 ^ 32 := by
        subst decoded
        exact ⟨UInt32.toNat_lt _, UInt32.toNat_lt _, UInt32.toNat_lt _⟩
      refine wp_post (loadSegment_spec ip loaded widths.1 widths.2.1 widths.2.2)
        fun r m₁ done => ?_
      obtain ⟨space₁, changes₁, loaded₁⟩ := done
      cases r with
      | none => exact ⟨space₁, changes₁, fun _ no => nomatch no⟩
      | some sz₁ =>
        refine wp_post (ih _ (loaded₁ sz₁ rfl)) fun r m₂ rest => ?_
        exact ⟨rest.1, changes₁.trans rest.2.1, rest.2.2⟩

/-- The address is among those of the file's bytes in the segment. -/
def Proghdr.Covers (ph : Proghdr) (a : Nat) : Prop :=
  ph.vaddr ≤ a ∧ a < ph.vaddr + ph.filesz

instance (ph : Proghdr) (a : Nat) : Decidable (ph.Covers a) :=
  inferInstanceAs (Decidable (_ ∧ _))

/-- The byte that the last segment to cover the address has for it, or zero. -/
def imageByte (ip : File) (segs : List Proghdr) (a : Nat) : UInt8 :=
  match segs.reverse.find? fun ph => ph.Covers a with
  | some ph => ip.bytes (ph.off + (a - ph.vaddr))
  | none => 0

theorem imageByte_snoc (ip : File) (segs : List Proghdr) (ph : Proghdr) :
    imageByte ip (segs ++ [ph]) = ph.place ip (imageByte ip segs) := by
  funext a
  unfold imageByte
  rw [List.reverse_append, List.reverse_singleton, List.singleton_append, List.find?_cons]
  unfold Proghdr.place
  by_cases covers : ph.Covers a
  · rw [Bytes.copy_inside covers.1 covers.2]
    simp [covers, Bytes.drop]
  · have outside : a < ph.vaddr ∨ ph.vaddr + ph.filesz ≤ a := by
      unfold Proghdr.Covers at covers
      omega
    rw [Bytes.copy_outside outside]
    simp [covers]

/-- Loading the segments one after the other gives that image. -/
theorem foldl_place (ip : File) (segs : List Proghdr) :
    segs.foldl (fun img ph => ph.place ip img) (fun _ => 0) = imageByte ip segs := by
  induction segs using List.reverseRecOn with
  | nil => rfl
  | append_singleton segs ph ih =>
    rw [List.foldl_append, ih, imageByte_snoc]
    rfl

end Image

end BasicOS.Vm
