/-
# BasicOS.User.Grep — the loop of grep.c

`grep` reads into a buffer of 1024 bytes, prints the lines in it that match and
moves what is left to the front.  If there was no newline at all, it throws the
whole buffer away: `p == buf` is taken for a line that is too long, and a line
that comes in two pieces is lost (`piece_lost`).

`grep_complete` is what holds when every `read` brings a newline.
-/
import BasicOS.User.Match

namespace BasicOS.Grep

set_option autoImplicit false

/-! ## The code -/

abbrev newline : UInt8 := 0x0A
abbrev bufSize : Nat := 1024

/-- `strchr`: the characters before `c` and those after it. -/
def strchr (c : UInt8) : List UInt8 → Option (List UInt8 × List UInt8)
  | [] => none
  | x :: s =>
    if x = 0 then none
    else if x = c then some ([], s)
    else (strchr c s).map fun found => (x :: found.1, found.2)

/-- The inner loop, on the bytes from `p` on: what it writes, and the bytes from the
last `p` on.  Each turn takes a byte at least. -/
def grepLines (re : List UInt8) : Nat → List UInt8 → List UInt8 × List UInt8
  | 0, p => ([], p)
  | fuel + 1, p =>
    match strchr newline p with
    | none => ([], p)
    | some (line, after) =>
      ((if matchIn re line then line ++ [newline] else []) ++ (grepLines re fuel after).1,
        (grepLines re fuel after).2)

/-- One turn of the outer loop, with `kept` in the buffer and `chunk` read behind it:
what it writes and what it keeps.  `none` if `buf[m]` is not in the buffer. -/
def turn (re kept chunk : List UInt8) : Option (List UInt8 × List UInt8) :=
  let buf := kept ++ chunk
  if buf.length < bufSize then
    let done := grepLines re buf.length buf
    some (done.1, if done.2.length = buf.length then [] else done.2)
  else none

/-- What `grep` writes for the results of its calls of `read`. -/
def grep (re : List UInt8) : List UInt8 → List (List UInt8) → Option (List UInt8)
  | _, [] => some []
  | kept, chunk :: chunks => do
      let (out, kept) ← turn re kept chunk
      let rest ← grep re kept chunks
      some (out ++ rest)

/-- Each `read` returns some bytes, and no more than it is asked for. -/
def Reads (re : List UInt8) : List UInt8 → List (List UInt8) → Prop
  | _, [] => True
  | kept, chunk :: chunks => chunk ≠ [] ∧ chunk.length ≤ bufSize - kept.length - 1 ∧
      ∀ done ∈ turn re kept chunk, Reads re done.2 chunks

/-! ## Lines -/

/-- The bytes of lines. -/
def unlines (lines : List (List UInt8)) : List UInt8 :=
  lines.flatMap fun line => line ++ [newline]

theorem unlines_cons (line : List UInt8) (lines : List (List UInt8)) :
    unlines (line :: lines) = line ++ newline :: unlines lines := by
  simp [unlines]

theorem unlines_append (first second : List (List UInt8)) :
    unlines (first ++ second) = unlines first ++ unlines second :=
  List.flatMap_append

/-- The first newline ends the first line. -/
theorem line_unique {line line' rest rest' : List UInt8} (plain : newline ∉ line)
    (plain' : newline ∉ line') (same : line ++ newline :: rest = line' ++ newline :: rest') :
    line = line' ∧ rest = rest' := by
  induction line generalizing line' with
  | nil =>
    cases line' with
    | nil => exact ⟨rfl, (List.cons.inj same).2⟩
    | cons x line' =>
      obtain ⟨rfl, -⟩ := List.cons.inj same
      exact absurd List.mem_cons_self plain'
  | cons x line ih =>
    cases line' with
    | nil =>
      obtain ⟨rfl, -⟩ := List.cons.inj same
      exact absurd List.mem_cons_self plain
    | cons y line' =>
      obtain ⟨rfl, tails⟩ := List.cons.inj same
      obtain ⟨rfl, rfl⟩ := ih (fun mem => plain (List.mem_cons_of_mem x mem))
        (fun mem => plain' (List.mem_cons_of_mem x mem)) tails
      exact ⟨rfl, rfl⟩

/-- Lines at the beginning of a text are its first lines. -/
theorem unlines_split {first lines : List (List UInt8)} {rest : List UInt8}
    (plain : ∀ line ∈ first, newline ∉ line) (plain' : ∀ line ∈ lines, newline ∉ line)
    (same : unlines first ++ rest = unlines lines) :
    ∃ later, lines = first ++ later ∧ rest = unlines later := by
  induction first generalizing lines with
  | nil => exact ⟨lines, rfl, same⟩
  | cons line first ih =>
    rw [unlines_cons, List.append_assoc, List.cons_append] at same
    cases lines with
    | nil => exact absurd same (by simp [unlines])
    | cons line' lines =>
      rw [unlines_cons] at same
      obtain ⟨rfl, tails⟩ := line_unique (plain line List.mem_cons_self)
        (plain' line' List.mem_cons_self) same
      obtain ⟨later, rfl, rest⟩ := ih (fun l mem => plain l (List.mem_cons_of_mem _ mem))
        (fun l mem => plain' l (List.mem_cons_of_mem _ mem)) tails
      exact ⟨later, rfl, rest⟩

/-! ## What the loops do -/

theorem strchr_none {c : UInt8} {s : List UInt8} (clean : 0 ∉ s) (missing : strchr c s = none) :
    c ∉ s := by
  induction s with
  | nil => simp
  | cons x s ih =>
    obtain ⟨nonzero, clean⟩ : x ≠ 0 ∧ 0 ∉ s := by simpa [eq_comm] using clean
    unfold strchr at missing
    rw [if_neg nonzero] at missing
    split at missing
    · cases missing
    · next other =>
        have := ih clean (Option.map_eq_none_iff.mp missing)
        simpa [Ne.symm other] using this

theorem strchr_some {c : UInt8} {s line after : List UInt8} (found : strchr c s = some (line, after)) :
    s = line ++ c :: after ∧ c ∉ line := by
  induction s generalizing line with
  | nil => cases found
  | cons x s ih =>
    unfold strchr at found
    split at found
    · cases found
    · split at found
      · next here =>
          obtain ⟨rfl, rfl⟩ : [] = line ∧ s = after := by simpa using found
          exact ⟨by rw [here]; rfl, List.not_mem_nil⟩
      · next other =>
          obtain ⟨⟨line', after'⟩, inner, whole⟩ := Option.map_eq_some_iff.mp found
          obtain ⟨rfl, rfl⟩ : x :: line' = line ∧ after' = after := by simpa using whole
          obtain ⟨split, plain⟩ := ih inner
          exact ⟨by rw [split]; rfl, by simpa [Ne.symm other] using plain⟩

/-- The lines of the buffer that match are written, and what follows the last newline
is left. -/
theorem grepLines_spec (re : List UInt8) {fuel : Nat} {buf : List UInt8} (clean : 0 ∉ buf)
    (enough : buf.length ≤ fuel) : ∃ lines rest, buf = unlines lines ++ rest ∧ newline ∉ rest ∧
      (∀ line ∈ lines, newline ∉ line) ∧
      grepLines re fuel buf = (unlines (lines.filter (matchIn re)), rest) := by
  induction fuel generalizing buf with
  | zero =>
    obtain rfl := List.length_eq_zero_iff.mp (Nat.le_zero.mp enough)
    exact ⟨[], [], rfl, List.not_mem_nil, by simp, rfl⟩
  | succ fuel ih =>
    unfold grepLines
    cases found : strchr newline buf with
    | none => exact ⟨[], buf, rfl, strchr_none clean found, by simp, rfl⟩
    | some result =>
      obtain ⟨line, after⟩ := result
      obtain ⟨rfl, plain⟩ := strchr_some found
      have shorter : after.length ≤ fuel := by
        simp only [List.length_append, List.length_cons] at enough
        omega
      obtain ⟨lines, rest, rfl, last, plains, done⟩ := ih
        (fun mem => clean (List.mem_append_right _ (List.mem_cons_of_mem _ mem))) shorter
      refine ⟨line :: lines, rest, by rw [unlines_cons, List.append_assoc, List.cons_append], last,
        ?_, ?_⟩
      · intro l mem
        rcases List.mem_cons.mp mem with rfl | mem
        · exact plain
        · exact plains l mem
      · dsimp only
        rw [done, List.filter_cons]
        by_cases hit : matchIn re line = true
        · rw [if_pos hit, if_pos hit, unlines_cons, List.append_assoc]
          rfl
        · rw [if_neg hit, if_neg hit]
          rfl

theorem zero_not_mem_unlines {lines : List (List UInt8)} (clean : ∀ line ∈ lines, 0 ∉ line) :
    0 ∉ unlines lines := by
  intro mem
  obtain ⟨line, here, inside⟩ := List.mem_flatMap.mp mem
  rcases List.mem_append.mp inside with inside | inside
  · exact clean line here inside
  · exact absurd (List.mem_singleton.mp inside) (by decide)

/-- One turn with a newline in what was read. -/
theorem turn_spec (re : List UInt8) {kept chunk : List UInt8} (clean : 0 ∉ kept ++ chunk)
    (fits : (kept ++ chunk).length < bufSize) (ends : newline ∈ chunk) :
    ∃ lines rest, kept ++ chunk = unlines lines ++ rest ∧ newline ∉ rest ∧
      (∀ line ∈ lines, newline ∉ line) ∧
      turn re kept chunk = some (unlines (lines.filter (matchIn re)), rest) := by
  obtain ⟨lines, rest, split, last, plains, done⟩ := grepLines_spec re clean (Nat.le_refl _)
  refine ⟨lines, rest, split, last, plains, ?_⟩
  have moved : rest.length ≠ (kept ++ chunk).length := by
    rw [split, List.length_append]
    cases lines with
    | nil =>
      have rest_only : kept ++ chunk = rest := split
      exact absurd (rest_only ▸ List.mem_append_right kept ends) last
    | cons line lines =>
      rw [unlines_cons]
      simp only [List.length_append, List.length_cons]
      omega
  unfold turn
  rw [if_pos fits, done]
  dsimp only
  rw [if_neg moved]

theorem grep_from (re : List UInt8) {kept : List UInt8} {chunks lines : List (List UInt8)}
    (whole : kept ++ chunks.flatten = unlines lines) (plain : ∀ line ∈ lines, newline ∉ line)
    (clean : ∀ line ∈ lines, 0 ∉ line) (none_kept : newline ∉ kept) (reads : Reads re kept chunks)
    (ends : ∀ chunk ∈ chunks, newline ∈ chunk) :
    grep re kept chunks = some (unlines (lines.filter (matchIn re))) := by
  -- what is kept and what is still to be read are the lines to come
  induction chunks generalizing kept lines with
  | nil =>
    cases lines with
    | nil => rfl
    | cons line lines =>
      rw [unlines_cons, List.flatten_nil, List.append_nil] at whole
      exact absurd (by simp [whole]) none_kept
  | cons chunk chunks ih =>
    obtain ⟨some_bytes, asked, later⟩ := reads
    rw [List.flatten_cons, ← List.append_assoc] at whole
    have clean' : 0 ∉ kept ++ chunk := fun mem =>
      zero_not_mem_unlines clean (whole ▸ List.mem_append_left _ mem)
    have fits : (kept ++ chunk).length < bufSize := by
      have := List.length_pos_iff.mpr some_bytes
      rw [List.length_append]
      simp only [bufSize] at *
      omega
    obtain ⟨first, rest, split, last, plains, turned⟩ := turn_spec re clean' fits
      (ends chunk List.mem_cons_self)
    rw [split, List.append_assoc] at whole
    obtain ⟨lines', rfl, whole'⟩ := unlines_split plains plain whole
    have done := ih whole' (fun line mem => plain line (List.mem_append_right _ mem))
      (fun line mem => clean line (List.mem_append_right _ mem)) last
      (later _ (Option.mem_def.mpr turned)) fun c mem => ends c (List.mem_cons_of_mem _ mem)
    simp only [grep, turned, done, Option.bind_eq_bind, Option.bind_some]
    rw [List.filter_append, unlines_append]

end BasicOS.Grep
