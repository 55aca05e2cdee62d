/-
# BasicOS.Fs.Path — path names, as in fs.c

`skipelem` takes the next element off a path and copies it into a buffer of
fourteen bytes; the bytes after its zero are whatever the buffer held before.
`namex` follows a path one element at a time: it locks the directory, looks the
element up, gives the directory back and goes on with the inode found.

A path is a string without its zero byte.  The kernel sees the list of its elements, the
parts between its slashes cut to fourteen bytes (`elements`): two paths with the same
elements are the same to `namex` (`namex_congr`), so slashes never matter beyond the first.
-/
import Mathlib.Data.List.Basic
import Mathlib.Data.List.TakeWhile
import BasicOS.Fs.Dir

namespace BasicOS

open Lib Function

set_option autoImplicit false

/-- The character `/`. -/
abbrev slash : UInt8 := 47

/-- What `skipelem` leaves in `name`. -/
def copyElem (elem : List UInt8) (name : Bytes) : Bytes :=
  if dirsiz ≤ elem.length then name.copy 0 (Bytes.ofList elem) dirsiz
  else update (name.copy 0 (Bytes.ofList elem) elem.length) elem.length 0

/-- Copy the next path element into `name`; returns the rest of the path, without
leading slashes, or nothing if there is no element. -/
def skipelem (path : List UInt8) (name : Bytes) : Option (List UInt8 × Bytes) :=
  match path.dropWhile (· == slash) with
  | [] => none
  | c :: s =>
    some (((c :: s).dropWhile (· != slash)).dropWhile (· == slash),
      copyElem ((c :: s).takeWhile (· != slash)) name)

/-- An element is not empty, so the path gets shorter. -/
theorem skipelem_shorter {path rest : List UInt8} {name name' : Bytes}
    (next : skipelem path name = some (rest, name')) : rest.length < path.length := by
  unfold skipelem at next
  have start := (List.dropWhile_suffix (l := path) (· == slash)).length_le
  split at next
  · cases next
  · next c s found =>
      have other : (c == slash) = false := by
        have head := List.head_dropWhile_not (l := path) (· == slash) (by simp [found])
        simpa [found] using head
      simp only [Option.some.injEq, Prod.mk.injEq] at next
      obtain ⟨rfl, -⟩ := next
      have skips : (c :: s).dropWhile (· != slash) = s.dropWhile (· != slash) := by
        simp [bne, other]
      rw [skips]
      have first := (List.dropWhile_suffix (l := s) (· != slash)).length_le
      have second :=
        (List.dropWhile_suffix (l := s.dropWhile (· != slash)) (· == slash)).length_le
      rw [found, List.length_cons] at start
      omega

/-- The loop of `namex`, holding a reference to `ip`. -/
def namexLoop (nameiparent : Bool) (ip : IPtr) (path : List UInt8) (name : Bytes) :
    Fs (Option (IPtr × Bytes)) :=
  match _ : skipelem path name with
  | none =>
    if nameiparent then do
      iput ip
      return none
    else return some (ip, name)
  | some (rest, name) => do
      ilock ip
      let k ← get
      if (k.icache ip).dinode.type ≠ tDir then
        iunlockput ip
        return none
      else if nameiparent ∧ rest = [] then
        -- stop one level early
        iunlock ip
        return some (ip, name)
      else
        let found ← dirlookup ip name
        match found with
        | none =>
          iunlockput ip
          return none
        | some (next, _) =>
          iunlockput ip
          namexLoop nameiparent next rest name
  termination_by path.length
  decreasing_by exact skipelem_shorter ‹_›

theorem namexLoop_ended {path : List UInt8} {name : Bytes} (ended : skipelem path name = none)
    (nameiparent : Bool) (ip : IPtr) :
    namexLoop nameiparent ip path name =
      if nameiparent then do
        iput ip
        return none
      else return some (ip, name) := by
  rw [namexLoop]
  split
  · rfl
  · next found => rw [ended] at found; cases found

theorem namexLoop_next {path rest : List UInt8} {name name' : Bytes}
    (next : skipelem path name = some (rest, name')) (nameiparent : Bool) (ip : IPtr) :
    namexLoop nameiparent ip path name = (do
      ilock ip
      let k ← get
      if (k.icache ip).dinode.type ≠ tDir then
        iunlockput ip
        return none
      else if nameiparent ∧ rest = [] then
        iunlock ip
        return some (ip, name')
      else
        let found ← dirlookup ip name'
        match found with
        | none =>
          iunlockput ip
          return none
        | some (q, _) =>
          iunlockput ip
          namexLoop nameiparent q rest name') := by
  rw [namexLoop]
  split
  · next none_left => rw [none_left] at next; cases next
  · next found =>
      rw [found] at next
      cases next
      rfl

/-- Look up the inode of a path, or of its parent with the last element.  `cwd` is
the caller's directory, and `name` what the buffer holds before. -/
def namex (cwd : IPtr) (path : List UInt8) (nameiparent : Bool) (name : Bytes) :
    Fs (Option (IPtr × Bytes)) := do
  let ip ← if path.head? = some slash then iget rootino else idup cwd
  namexLoop nameiparent ip path name

def namei (cwd : IPtr) (path : List UInt8) (name : Bytes) : Fs (Option IPtr) := do
  let found ← namex cwd path false name
  return found.map Prod.fst

def nameiparent (cwd : IPtr) (path : List UInt8) (name : Bytes) : Fs (Option (IPtr × Bytes)) :=
  namex cwd path true name

/-! ## The elements of a path -/

/-- The parts of the path between slashes, cut to what a directory entry holds. -/
def elements (path : List UInt8) : List (List UInt8) :=
  ((path.splitOn slash).filter (· ≠ [])).map (List.take dirsiz)

theorem elements_nil : elements [] = [] := rfl

theorem elements_append (pre rest : List UInt8) :
    elements (pre ++ slash :: rest) = elements pre ++ elements rest := by
  simp [elements, List.splitOn_append_cons_self]

theorem elements_slash (path : List UInt8) : elements (slash :: path) = elements path :=
  elements_append [] path

theorem elements_dropWhile (path : List UInt8) :
    elements (path.dropWhile (· == slash)) = elements path := by
  induction path with
  | nil => rfl
  | cons c path ih =>
    by_cases first : c = slash
    · subst first
      rw [elements_slash, ← ih]
      rfl
    · rw [List.dropWhile_cons_of_neg (by simpa using first)]

theorem elements_word {word : List UInt8} (some_byte : word ≠ []) (free : slash ∉ word) :
    elements word = [word.take dirsiz] := by
  simp [elements, List.splitOn_eq_singleton free, some_byte]

/-- The first element of a path that starts with one. -/
theorem elements_takeWhile {c : UInt8} (other : c ≠ slash) (s : List UInt8) :
    elements (c :: s) = ((c :: s).takeWhile (· != slash)).take dirsiz ::
      elements ((c :: s).dropWhile (· != slash)) := by
  have some_byte : (c :: s).takeWhile (· != slash) ≠ [] := by
    rw [List.takeWhile_cons_of_pos (by simpa using other)]
    exact List.cons_ne_nil _ _
  have free : slash ∉ (c :: s).takeWhile (· != slash) := fun mem => by
    simpa using List.mem_takeWhile_imp mem
  have first := elements_word some_byte free
  have whole := List.takeWhile_append_dropWhile (p := (· != slash)) (l := c :: s)
  cases left : (c :: s).dropWhile (· != slash) with
  | nil =>
    rw [left, List.append_nil] at whole
    rw [whole] at first ⊢
    exact first
  | cons d rest =>
    obtain rfl : d = slash := by
      have head := List.head_dropWhile_not (l := c :: s) (· != slash) (by simp [left])
      simpa [left] using head
    rw [left] at whole
    have all := elements_append ((c :: s).takeWhile (· != slash)) rest
    rw [whole, first] at all
    rw [elements_slash]
    exact all

theorem copyElem_take (elem : List UInt8) (name : Bytes) :
    copyElem (elem.take dirsiz) name = copyElem elem name := by
  unfold copyElem
  by_cases long : dirsiz ≤ elem.length
  · rw [if_pos long, if_pos (by simp [long])]
    funext j
    unfold Bytes.copy Bytes.ofList
    by_cases inside : j < dirsiz
    · simp [inside]
    · simp [inside]
  · rw [List.take_of_length_le (by omega)]

/-- Behind the slashes comes an element. -/
theorem ne_slash_of_dropWhile {path s : List UInt8} {c : UInt8}
    (left : path.dropWhile (· == slash) = c :: s) : c ≠ slash := by
  have head := List.head_dropWhile_not (l := path) (· == slash) (by simp [left])
  simpa [left] using head

theorem skipelem_none {path : List UInt8} (ended : elements path = []) (name : Bytes) :
    skipelem path name = none := by
  unfold skipelem
  rw [← elements_dropWhile] at ended
  cases left : path.dropWhile (· == slash) with
  | nil => rfl
  | cons c s =>
    rw [left, elements_takeWhile (ne_slash_of_dropWhile left)] at ended
    cases ended

/-- `skipelem` takes the first element off. -/
theorem skipelem_some {path : List UInt8} {elem : List UInt8} {elems : List (List UInt8)}
    (more : elements path = elem :: elems) (name : Bytes) :
    ∃ rest, skipelem path name = some (rest, copyElem elem name) ∧ elements rest = elems ∧
      (rest = [] ↔ elems = []) := by
  unfold skipelem
  rw [← elements_dropWhile] at more
  cases left : path.dropWhile (· == slash) with
  | nil =>
    rw [left, elements_nil] at more
    cases more
  | cons c s =>
    rw [left, elements_takeWhile (ne_slash_of_dropWhile left)] at more
    obtain ⟨rfl, rest⟩ := List.cons.inj more
    refine ⟨_, by rw [copyElem_take], by rw [elements_dropWhile]; exact rest, ?_⟩
    rw [← elements_dropWhile] at rest
    constructor
    · intro ended
      rw [ended] at rest
      exact rest.symm
    · intro ended
      rw [ended] at rest
      cases next : ((c :: s).dropWhile (· != slash)).dropWhile (· == slash) with
      | nil => rfl
      | cons d s' =>
        rw [next, elements_takeWhile (ne_slash_of_dropWhile next)] at rest
        cases rest

theorem elements_short {path elem : List UInt8} (mem : elem ∈ elements path) :
    elem.length ≤ dirsiz := by
  obtain ⟨word, -, rfl⟩ := List.mem_map.mp mem
  exact List.length_take_le _ _

theorem subset_of_mem_splitOn {path word : List UInt8} (mem : word ∈ path.splitOn slash) :
    word ⊆ path := by
  induction path generalizing word with
  | nil =>
    obtain rfl : word = [] := by simpa using mem
    exact List.Subset.refl _
  | cons c path ih =>
    rw [List.splitOn, List.splitOnP_cons_eq_if_modifyHead] at mem
    split at mem
    · rcases List.mem_cons.mp mem with rfl | later
      · exact List.nil_subset _
      · exact List.subset_cons_of_subset _ (ih later)
    · rcases split : path.splitOn slash with _ | ⟨first, others⟩
      · rw [List.splitOn] at split
        rw [split] at mem
        cases mem
      · rw [List.splitOn] at split
        rw [split] at mem
        rcases List.mem_cons.mp mem with rfl | later
        · exact List.cons_subset_cons _ (ih (by rw [List.splitOn, split]; exact List.mem_cons_self))
        · exact List.subset_cons_of_subset _
            (ih (by rw [List.splitOn, split]; exact List.mem_cons_of_mem _ later))

theorem elements_nonzero {path elem : List UInt8} (nonzero : 0 ∉ path)
    (mem : elem ∈ elements path) : 0 ∉ elem := by
  obtain ⟨word, inside, rfl⟩ := List.mem_map.mp mem
  exact fun zero =>
    nonzero (subset_of_mem_splitOn (List.mem_filter.mp inside).1 (List.mem_of_mem_take zero))

/-! ## Slashes -/

/-- The loop of `namex` sees the elements of the path only. -/
theorem namexLoop_congr {path path' : List UInt8} (same : elements path' = elements path)
    (nameiparent : Bool) (p : IPtr) (name : Bytes) :
    namexLoop nameiparent p path' name = namexLoop nameiparent p path name := by
  induction elems : elements path generalizing path path' p name with
  | nil =>
    rw [namexLoop_ended (skipelem_none elems name),
      namexLoop_ended (skipelem_none (same.trans elems) name)]
  | cons elem elems ih =>
    obtain ⟨rest, next, tail, last⟩ := skipelem_some elems name
    obtain ⟨rest', next', tail', last'⟩ := skipelem_some (same.trans elems) name
    have loops : ∀ q, namexLoop nameiparent q rest' (copyElem elem name) =
        namexLoop nameiparent q rest (copyElem elem name) := fun q =>
      ih (tail'.trans tail.symm) q _ tail
    rw [namexLoop_next next, namexLoop_next next']
    simp only [loops, last, last']

theorem namex_congr {path path' : List UInt8} (same : elements path' = elements path)
    (rooted : path'.head? = some slash ↔ path.head? = some slash) (cwd : IPtr)
    (nameiparent : Bool) (name : Bytes) :
    namex cwd path' nameiparent name = namex cwd path nameiparent name := by
  unfold namex
  simp only [namexLoop_congr same, rooted]

/-- A slash after a slash. -/
theorem namex_slashes (cwd : IPtr) (pre rest : List UInt8) (nameiparent : Bool) (name : Bytes) :
    namex cwd (pre ++ slash :: slash :: rest) nameiparent name =
      namex cwd (pre ++ slash :: rest) nameiparent name := by
  refine namex_congr ?_ ?_ cwd nameiparent name
  · rw [elements_append, elements_slash, elements_append]
  · cases pre <;> simp

/-- A slash at the end. -/
theorem namex_trailing (cwd : IPtr) {path : List UInt8} (some_byte : path ≠ []) (nameiparent : Bool)
    (name : Bytes) :
    namex cwd (path ++ [slash]) nameiparent name = namex cwd path nameiparent name := by
  refine namex_congr ?_ ?_ cwd nameiparent name
  · rw [elements_append, elements_nil, List.append_nil]
  · rw [List.head?_append_of_ne_nil _ some_byte]

end BasicOS
