/-
# BasicOS.Sys.Refs — the reference counts of open files

A file's `ref` is the number of descriptors that point to it.  Inside a call it
may be ahead of that number, or behind: `Exact … due` says by how much for each
file, and every primitive of file.c moves `due` by one.  A call is balanced when
it begins and ends with nothing due.

What the file system does below never matters here: `fs` changes the kernel and
nothing else.
-/
import BasicOS.Lib.Tally
import BasicOS.Lib.Run
import BasicOS.Sys.Basic

namespace BasicOS.Sys

open Lib Function
open Lib.Prog

set_option autoImplicit false

variable {α : Type}

/-! ## Specifications of the primitives -/

theorem wp_fs (m : Fs α) (Q : α → State → Prop) (E : Halt → Prop) (s : State) :
    wp (fs m) Q E s ↔ wp m (fun a k => Q a { s with k }) (fun e => E (.fs e)) s.k := by
  unfold wp fs
  cases m s.k with
  | ok r => rfl
  | error e => rfl

theorem filealloc_spec (s : State) :
    wp filealloc
      (fun f s' => match f with
        | none => s' = s ∧ ∀ f, (s.file f).ref ≠ 0
        | some f => (s.file f).ref = 0 ∧ s' = s.setFile f { s.file f with ref := 1 })
      (fun _ => False) s := by
  unfold filealloc
  rw [wp_bind, wp_get]
  split
  case h_1 none_free =>
    refine ⟨rfl, fun f => ?_⟩
    simpa using List.find?_eq_none.mp none_free f (List.mem_finRange f)
  case h_2 f found =>
    have free := List.find?_some found
    exact ⟨by simpa using free, rfl⟩

theorem filedup_spec {s : State} {f : FPtr} (counted : 0 < (s.file f).ref) :
    wp (filedup f)
      (fun _ s' => s' = s.setFile f { s.file f with ref := (s.file f).ref + 1 })
      (fun _ => False) s := by
  unfold filedup
  rw [wp_bind, wp_get, if_neg (by omega)]
  rfl

theorem fdalloc_spec (cur : Slot) (f : FPtr) (s : State) :
    wp (fdalloc cur f)
      (fun fd s' => match fd with
        | none => s' = s ∧ ∀ fd, s.ofile cur fd ≠ none
        | some fd => s.ofile cur fd = none ∧ s' = s.setFd cur fd (some f))
      (fun _ => False) s := by
  unfold fdalloc
  rw [wp_bind, wp_get]
  split
  case h_1 none_free =>
    refine ⟨rfl, fun fd => ?_⟩
    simpa using List.find?_eq_none.mp none_free fd (List.mem_finRange fd)
  case h_2 fd found =>
    have free := List.find?_some found
    exact ⟨by simpa using free, rfl⟩

theorem argfd_spec (cur : Slot) (fd : Option Fd) (s : State) :
    wp (argfd cur fd)
      (fun r s' => s' = s ∧ ∀ fd f, r = some (fd, f) → s.ofile cur fd = some f)
      (fun _ => False) s := by
  unfold argfd
  rw [wp_bind, wp_get]
  refine ⟨rfl, ?_⟩
  intro fd' f found
  simp only [Option.bind_eq_some_iff, Option.map_eq_some_iff, Prod.mk.injEq] at found
  obtain ⟨fd, -, g, held, rfl, rfl⟩ := found
  exact held

theorem closePipe_spec (id : Nat) (w : Bool) (s : State) :
    wp (closePipe id w)
      (fun _ s' => s' = { s.setPipe id ((s.pipe id).close w) with
        freed := if pipeclose w (s.pipe id) = none then id :: s.freed else s.freed })
      (fun _ => False) s := by
  unfold closePipe
  rw [wp_bind, wp_get]
  cases closed : pipeclose w (s.pipe id) with
  | none => rfl
  | some p =>
    have same : p = (s.pipe id).close w := by
      simp only [pipeclose, Option.ite_none_left_eq_some, Option.some.injEq] at closed
      exact closed.2.symm
    subst same
    rfl

/-! ## Pipes and their ends -/

/-- The end of a pipe that a file is: the pipe, and is it the write end? -/
def File.pipeEnd (x : File) : Option (Nat × Bool) :=
  if 0 < x.ref ∧ x.type = .pipe then some (x.pipe, x.writable) else none

/-- The pipes in use and the files that are their ends. -/
structure Plumbing (ends : FPtr → Option (Nat × Bool)) (pipe : Nat → Pipe) (made : Nat)
    (freed : List Nat) : Prop where
  single : ∀ {f g e}, ends f = some e → ends g = some e → f = g
  isOpen : ∀ id w, (pipe id).isOpen w = true ↔ ∃ f, ends f = some (id, w)
  before : ∀ {f id w}, ends f = some (id, w) → id < made
  freed : ∀ id, freed.count id =
    if id < made ∧ (pipe id).readopen = false ∧ (pipe id).writeopen = false then 1 else 0

section

variable {ends : FPtr → Option (Nat × Bool)} {pipe : Nat → Pipe} {made : Nat} {freed : List Nat}

/-- Reading and writing keep the ends. -/
theorem Plumbing.transfer (plumbed : Plumbing ends pipe made freed) (id : Nat) {p : Pipe}
    (same : ∀ w, p.isOpen w = (pipe id).isOpen w) :
    Plumbing ends (update pipe id p) made freed := by
  have all : ∀ id' w, (update pipe id p id').isOpen w = (pipe id').isOpen w := by
    intro id' w
    by_cases this : id' = id
    · subst this
      rw [update_self]
      exact same w
    · rw [update_of_ne this]
  refine ⟨plumbed.single, ?_, plumbed.before, ?_⟩
  · intro id' w
    rw [all]
    exact plumbed.isOpen id' w
  · intro id'
    simpa only [Pipe.closed_iff, all] using plumbed.freed id'

/-- A new pipe with its two ends. -/
theorem Plumbing.make (plumbed : Plumbing ends pipe made freed) {f0 f1 : FPtr} (page : Nat → UInt8)
    (apart : f0 ≠ f1) (fresh0 : ends f0 = none) (fresh1 : ends f1 = none) :
    Plumbing (update (update ends f0 (some (made, false))) f1 (some (made, true)))
      (update pipe made (Pipe.alloc page)) (made + 1) freed := by
  have ends_iff : ∀ f e,
      update (update ends f0 (some (made, false))) f1 (some (made, true)) f = some e ↔
        ends f = some e ∨ (f = f0 ∧ e = (made, false)) ∨ (f = f1 ∧ e = (made, true)) := by
    intro f e
    rcases eq_or_ne f f1 with rfl | other1
    · simp [fresh1, apart.symm, eq_comm]
    · rcases eq_or_ne f f0 with rfl | other0
      · simp [other1, fresh0, eq_comm]
      · simp [other1, other0]
  have old : ∀ {f e}, ends f = some e → e.1 ≠ made := fun {f e} held =>
    Nat.ne_of_lt (plumbed.before (show ends f = some (e.1, e.2) from held))
  refine ⟨?_, ?_, ?_, ?_⟩
  · intro f g e atF atG
    rcases (ends_iff f e).mp atF with heldF | ⟨rfl, rfl⟩ | ⟨rfl, rfl⟩ <;>
      rcases (ends_iff g _).mp atG with heldG | ⟨rfl, eqG⟩ | ⟨rfl, eqG⟩
    · exact plumbed.single heldF heldG
    · exact absurd (congrArg Prod.fst eqG) (old heldF)
    · exact absurd (congrArg Prod.fst eqG) (old heldF)
    · exact absurd rfl (old heldG)
    · rfl
    · simp at eqG
    · exact absurd rfl (old heldG)
    · simp at eqG
    · rfl
  · intro id w
    simp only [ends_iff, Prod.mk.injEq]
    rcases eq_or_ne id made with rfl | other
    · rw [update_self, Pipe.isOpen_alloc]
      refine ⟨fun _ => ?_, fun _ => rfl⟩
      cases w with
      | false => exact ⟨f0, .inr (.inl ⟨rfl, rfl, rfl⟩)⟩
      | true => exact ⟨f1, .inr (.inr ⟨rfl, rfl, rfl⟩)⟩
    · rw [update_of_ne other, plumbed.isOpen]
      simp [other]
  · intro f id w held
    rcases (ends_iff f _).mp held with held | ⟨-, eq⟩ | ⟨-, eq⟩
    · exact Nat.lt_succ_of_lt (plumbed.before held)
    · cases eq
      omega
    · cases eq
      omega
  · intro id
    rcases Nat.lt_trichotomy id made with lt | rfl | gt
    · rw [update_of_ne (Nat.ne_of_lt lt), plumbed.freed]
      simp [lt, Nat.lt_succ_of_lt lt]
    · rw [plumbed.freed]
      simp [Pipe.alloc]
    · rw [plumbed.freed]
      simp [Nat.not_lt_of_gt gt, Nat.not_lt.mpr (Nat.succ_le_of_lt gt)]

/-- Closing an end; the page goes with the second one. -/
theorem Plumbing.close (plumbed : Plumbing ends pipe made freed) {f : FPtr} {id : Nat} {v : Bool}
    (held : ends f = some (id, v)) :
    Plumbing (update ends f none) (update pipe id ((pipe id).close v)) made
      (if pipeclose v (pipe id) = none then id :: freed else freed) := by
  have ends_iff : ∀ g e, update ends f none g = some e ↔ ends g = some e ∧ e ≠ (id, v) := by
    intro g e
    rcases eq_or_ne g f with rfl | other
    · simp only [update_self, reduceCtorEq, held, Option.some.injEq, false_iff, not_and, not_not]
      exact Eq.symm
    · rw [update_of_ne other]
      refine ⟨fun heldG => ⟨heldG, ?_⟩, fun both => both.1⟩
      rintro rfl
      exact other (plumbed.single heldG held)
  have isOpen_iff : ∀ id' w, (update pipe id ((pipe id).close v) id').isOpen w =
      if (id', w) = (id, v) then false else (pipe id').isOpen w := by
    intro id' w
    rcases eq_or_ne id' id with rfl | other
    · simp [Pipe.isOpen_close]
    · simp [other]
  refine ⟨?_, ?_, ?_, ?_⟩
  · intro g h e atG atH
    exact plumbed.single ((ends_iff g e).mp atG).1 ((ends_iff h e).mp atH).1
  · intro id' w
    rw [isOpen_iff]
    simp only [ends_iff]
    split
    case isTrue eq => simp [eq]
    case isFalse ne =>
      rw [plumbed.isOpen]
      simp [ne]
  · intro g id' w atG
    exact plumbed.before ((ends_iff g _).mp atG).1
  · intro id'
    have wasOpen : (pipe id).isOpen v = true := (plumbed.isOpen id v).mpr ⟨f, held⟩
    have notFreed : freed.count id = 0 := by
      rw [plumbed.freed, if_neg]
      rw [Pipe.closed_iff]
      rintro ⟨-, all⟩
      rw [all] at wasOpen
      cases wasOpen
    rcases eq_or_ne id' id with rfl | other
    · simp only [update_self, plumbed.before held, true_and, pipeclose]
      split
      · simp [notFreed]
      · simp [notFreed]
    · rw [update_of_ne other, ← plumbed.freed]
      split
      · rw [List.count_cons_of_ne other.symm]
      · rfl

end

/-! ## Balance -/

/-- Between the steps of a call: `due f` is what the count of `f` is ahead of the
number of its descriptors, `live` the slots that may have descriptors. -/
structure Exact (cwd : Slot → Option IPtr) (live : Slot → Prop) (due : FPtr → Int) (s : State) :
    Prop where
  refs : ∀ f, ((s.file f).ref : Int) = tally (uncurry s.ofile) f + due f
  unused : ∀ f, (s.file f).ref = 0 → (s.file f).type = .none
  sided : ∀ f, (s.file f).type = .pipe → (s.file f).readable = !(s.file f).writable
  plumbed : Plumbing (fun f => (s.file f).pipeEnd) s.pipe s.made s.freed
  dirs : s.cwd = cwd
  idle : ∀ p fd, s.ofile p fd ≠ none → live p

/-- The panics of file.c that must not be reached. -/
def Halt.Uncounted (e : Halt) : Prop :=
  e = .panic "filedup" ∨ e = .panic "fileclose"

variable {cwd : Slot → Option IPtr} {live : Slot → Prop} {due : FPtr → Int} {s : State}

theorem wp_fs_any {m : Fs α} {Q : α → State → Prop} (any : ∀ a k, Q a { s with k }) :
    wp (fs m) Q (fun e => ¬e.Uncounted) s := by
  rw [wp_fs, wp_iff]
  refine ⟨fun a k _ => any a k, fun e _ => ?_⟩
  rintro (no | no) <;> cases no

theorem wp_fs_then {β : Type} {m : Fs α} {f : α → Act β} {Q : β → State → Prop}
    (any : ∀ a k, wp (f a) Q (fun e => ¬e.Uncounted) { s with k }) :
    wp (fs m >>= f) Q (fun e => ¬e.Uncounted) s := by
  rw [wp_bind]
  exact wp_fs_any any

namespace Exact

theorem kernel (h : Exact cwd live due s) (k : Kernel) : Exact cwd live due { s with k } :=
  ⟨h.refs, h.unused, h.sided, h.plumbed, h.dirs, h.idle⟩

theorem ref_pos (h : Exact cwd live due s) {f : FPtr} (ahead : 0 < due f) : 0 < (s.file f).ref := by
  have := h.refs f
  omega

theorem ref_pos_of_fd (h : Exact cwd live 0 s) {p : Slot} {fd : Fd} {f : FPtr}
    (held : s.ofile p fd = some f) : 0 < (s.file f).ref := by
  have counted := h.refs f
  have pos : 0 < tally (uncurry s.ofile) f := tally_pos (i := (p, fd)) held
  simp only [Pi.zero_apply, add_zero] at counted
  omega

theorem ends_setFile (s : State) (f : FPtr) (x : File) :
    (fun g => ((s.setFile f x).file g).pipeEnd) =
      update (fun g => (s.file g).pipeEnd) f x.pipeEnd := by
  apply funext
  intro g
  exact apply_update (fun _ y => File.pipeEnd y) s.file f x g

/-- A change to a file that is not about pipes. -/
theorem setFile (h : Exact cwd live due s) {f : FPtr} {x : File} {due' : FPtr → Int}
    (same : x.pipeEnd = (s.file f).pipeEnd) (unused : x.ref = 0 → x.type = .none)
    (sided : x.type = .pipe → x.readable = !x.writable)
    (moved : ∀ g, due' g = due g + if g = f then (x.ref : Int) - (s.file f).ref else 0) :
    Exact cwd live due' (s.setFile f x) := by
  refine ⟨?_, ?_, ?_, ?_, h.dirs, h.idle⟩
  · intro g
    have counted := h.refs g
    rw [moved]
    rcases eq_or_ne g f with rfl | other
    · simp only [State.setFile, update_self, if_true]
      omega
    · simp only [State.setFile, update_of_ne other, if_neg other]
      omega
  · intro g
    rcases eq_or_ne g f with rfl | other
    · simpa [State.setFile] using unused
    · simpa [State.setFile, other] using h.unused g
  · intro g
    rcases eq_or_ne g f with rfl | other
    · simpa [State.setFile] using sided
    · simpa [State.setFile, other] using h.sided g
  · rw [ends_setFile, same, update_eq_self f]
    exact h.plumbed

/-- Another descriptor, or none, in the place of what the place holds. -/
theorem setFd (h : Exact cwd live due s) {p : Slot} (alive : live p) (fd : Fd) (o : Option FPtr) :
    Exact cwd live (due + credit (s.ofile p fd) - credit o) (s.setFd p fd o) := by
  refine ⟨?_, h.unused, h.sided, h.plumbed, h.dirs, ?_⟩
  · intro f
    have counted := h.refs f
    have moved := tally_update (uncurry s.ofile) (p, fd) o f
    simp only [State.setFd, uncurry_update, moved, Pi.add_apply, Pi.sub_apply]
    simp only [uncurry_apply_pair]
    omega
  · intro q fd' held
    rcases eq_or_ne q p with rfl | other
    · exact alive
    · apply h.idle q fd'
      simpa [State.setFd, other] using held

theorem setPipe (h : Exact cwd live due s) (id : Nat) {p : Pipe}
    (same : ∀ w, p.isOpen w = (s.pipe id).isOpen w) : Exact cwd live due (s.setPipe id p) :=
  ⟨h.refs, h.unused, h.sided, h.plumbed.transfer id same, h.dirs, h.idle⟩

end Exact

/-! ## file.c -/

theorem pipeEnd_of_type {x : File} (other : x.type ≠ .pipe) : x.pipeEnd = none := by
  simp [File.pipeEnd, other]

section

variable (h : Exact cwd live due s)

include h

theorem filealloc_exact :
    wp filealloc
      (fun f s' => match f with
        | none => Exact cwd live due s'
        | some f => Exact cwd live (due + credit (some f)) s' ∧ (s'.file f).type = .none ∧
            (s.file f).ref = 0 ∧ ∀ g, g ≠ f → s'.file g = s.file g)
      (fun e => ¬e.Uncounted) s := by
  apply wp_mono (filealloc_spec s)
  · rintro (_ | f) s'
    · rintro ⟨rfl, -⟩
      exact h
    · rintro ⟨free, rfl⟩
      have none := h.unused f free
      refine ⟨?_, by simpa [State.setFile] using none, free, ?_⟩
      · apply h.setFile
        · simp [File.pipeEnd, none]
        · simp
        · simp [none]
        · intro g
          by_cases same : g = f
          · simp [same, free]
          · simp [same, credit, Ne.symm same]
      · intro g other
        simp [State.setFile, other]
  · exact fun _ no => no.elim

theorem filedup_exact {f : FPtr} (counted : 0 < (s.file f).ref) :
    wp (filedup f)
      (fun _ s' => Exact cwd live (due + credit (some f)) s' ∧ s'.ofile = s.ofile)
      (fun e => ¬e.Uncounted) s := by
  apply wp_mono (filedup_spec counted)
  · rintro _ s' rfl
    refine ⟨?_, rfl⟩
    apply h.setFile
    · simp [File.pipeEnd, counted]
    · simp
    · exact h.sided f
    · intro g
      by_cases same : g = f
      · simp [same]
      · simp [same, credit, Ne.symm same]
  · exact fun _ no => no.elim

/-- The last reference to an end of a pipe: the end is closed with it. -/
theorem Exact.closeEnd {f : FPtr} (last : (s.file f).ref = 1)
    (isPipe : (s.file f).type = .pipe) {id : Nat} {w : Bool} (which : (s.file f).pipe = id)
    (side : (s.file f).writable = w) :
    Exact cwd live (due - credit (some f))
      { (s.setFile f { s.file f with ref := 0, type := .none }).setPipe id ((s.pipe id).close w) with
        freed := if pipeclose w (s.pipe id) = none then id :: s.freed else s.freed } := by
  have wasEnd : (s.file f).pipeEnd = some (id, w) := by
    simp [File.pipeEnd, last, isPipe, which, side]
  refine ⟨?_, ?_, ?_, ?_, h.dirs, h.idle⟩
  · intro g
    have counted := h.refs g
    rcases eq_or_ne g f with rfl | other
    · simp only [State.setPipe, State.setFile, update_self, Pi.sub_apply, credit_some_self]
      omega
    · have elsewhere : credit (some f) g = 0 := by simp [credit, Ne.symm other]
      simp only [State.setPipe, State.setFile, update_of_ne other, Pi.sub_apply, elsewhere]
      omega
  · intro g
    rcases eq_or_ne g f with rfl | other
    · simp [State.setPipe, State.setFile]
    · simpa [State.setPipe, State.setFile, other] using h.unused g
  · intro g
    rcases eq_or_ne g f with rfl | other
    · simp [State.setPipe, State.setFile]
    · simpa [State.setPipe, State.setFile, other] using h.sided g
  · have ends := Exact.ends_setFile s f { s.file f with ref := 0, type := .none }
    have gone : ({ s.file f with ref := 0, type := .none } : File).pipeEnd = none := rfl
    rw [gone] at ends
    have closed := h.plumbed.close wasEnd
    rw [← ends] at closed
    exact closed

theorem closeLast_exact {f : FPtr} (last : (s.file f).ref = 1) :
    wp (closeLast (s.file f))
      (fun _ s' => Exact cwd live (due - credit (some f)) s' ∧ s'.ofile = s.ofile)
      (fun e => ¬e.Uncounted) (s.setFile f { s.file f with ref := 0, type := .none }) := by
  have plain : (s.file f).type ≠ .pipe →
      Exact cwd live (due - credit (some f))
        (s.setFile f { s.file f with ref := 0, type := .none }) := by
    intro other
    apply h.setFile
    · rw [pipeEnd_of_type other]
      simp [File.pipeEnd]
    · simp
    · simp
    · intro g
      by_cases same : g = f
      · simp [same, last]
        omega
      · simp [same, credit, Ne.symm same]
  unfold closeLast
  split
  case h_1 isPipe =>
    apply wp_mono (closePipe_spec _ _ _)
    · rintro _ s' rfl
      exact ⟨h.closeEnd last isPipe rfl rfl, rfl⟩
    · exact fun _ no => no.elim
  case h_2 isInode =>
    have after := plain (by simp [isInode])
    apply wp_fs_then
    intro _ k
    apply wp_fs_then
    intro _ k
    apply wp_fs_any
    intro _ k
    exact ⟨after.kernel k, rfl⟩
  case h_3 isNone =>
    exact ⟨plain (by simp [isNone]), rfl⟩

theorem fileclose_exact {f : FPtr} (counted : 0 < (s.file f).ref) :
    wp (fileclose f)
      (fun _ s' => Exact cwd live (due - credit (some f)) s' ∧ s'.ofile = s.ofile)
      (fun e => ¬e.Uncounted) s := by
  unfold fileclose
  rw [wp_bind, wp_get]
  simp only
  rw [if_neg (by omega)]
  split
  case isTrue more =>
    refine ⟨?_, rfl⟩
    apply h.setFile
    · simp [File.pipeEnd, more, counted]
    · intro zero
      simp only at zero
      omega
    · exact h.sided f
    · intro g
      by_cases same : g = f
      · simp only [same, Pi.sub_apply, credit_some_self, if_true]
        omega
      · simp [same, credit, Ne.symm same]
  case isFalse last =>
    rw [wp_bind, wp_set]
    exact closeLast_exact h (by omega)

/-! ## Reading and writing -/

theorem Exact.setOff (f : FPtr) (off : UInt32) :
    Exact cwd live due (s.setFile f { s.file f with off }) := by
  apply h.setFile
  · rfl
  · exact h.unused f
  · exact h.sided f
  · simp

theorem readInode_exact (f : FPtr) (n : UInt32)
    (console : Option UInt32) :
    wp (readInode f n console) (fun _ s' => Exact cwd live due s')
      (fun e => ¬e.Uncounted) s := by
  unfold readInode
  rw [wp_bind, wp_get]
  apply wp_fs_then
  intro _ k
  apply wp_fs_then
  intro r k
  rw [wp_bind, wp_modify]
  apply wp_fs_then
  intro _ k
  exact ((h.kernel _).setOff f _).kernel k

theorem fileread_exact (f : FPtr) (n : UInt32) (killed : Bool)
    (console : Option UInt32) :
    wp (fileread f n killed console) (fun _ s' => Exact cwd live due s')
      (fun e => ¬e.Uncounted) s := by
  unfold fileread
  rw [wp_bind, wp_get]
  split
  · exact h
  split
  · exact h.setPipe _ (Pipe.isOpen_piperead _ _ _)
  · rw [wp_bind]
    exact readInode_exact h f n console
  · rw [wp_throw]
    rintro (no | no) <;> simp at no

theorem writeChunk_exact (f : FPtr) (src : Bytes) (n : Nat) :
    wp (writeChunk f src n) (fun _ s' => Exact cwd live due s')
      (fun e => ¬e.Uncounted) s := by
  unfold writeChunk
  apply wp_fs_then
  intro _ k
  rw [wp_bind, wp_get]
  apply wp_fs_then
  intro _ k
  apply wp_fs_then
  intro r k
  rw [wp_bind, wp_modify]
  apply wp_fs_then
  intro _ k
  apply wp_fs_then
  intro _ k
  exact ((h.kernel _).setOff f _).kernel k

theorem writeChunks_exact (f : FPtr) (src : Bytes) (n : Nat) :
    wp (writeChunks f src n) (fun _ s' => Exact cwd live due s')
      (fun e => ¬e.Uncounted) s := by
  induction n using Nat.strong_induction_on generalizing s src with
  | _ n ih =>
    unfold writeChunks
    split
    case isTrue => exact h
    case isFalse some =>
      apply wp_seq (writeChunk_exact h f src _)
      intro wrote s' after
      split
      · exact ih _ (by simp only [chunk, maxopblocks]; omega) after _
      · exact after

theorem filewrite_exact (f : FPtr) (bytes : List UInt8)
    (killed : Bool) :
    wp (filewrite f bytes killed) (fun _ s' => Exact cwd live due s')
      (fun e => ¬e.Uncounted) s := by
  unfold filewrite
  rw [wp_bind, wp_get]
  split
  · exact h
  split
  · exact h.setPipe _ (Pipe.isOpen_pipewrite _ _ _)
  · rw [wp_bind]
    exact writeChunks_exact h f _ _
  · rw [wp_throw]
    rintro (no | no) <;> simp at no

theorem filestat_exact (f : FPtr) :
    wp (filestat f) (fun _ s' => Exact cwd live due s') (fun e => ¬e.Uncounted) s := by
  unfold filestat
  rw [wp_bind, wp_get]
  split
  · apply wp_fs_then
    intro _ k
    apply wp_fs_then
    intro _ k
    exact h.kernel k
  · exact h

/-! ## Descriptors -/

theorem fdalloc_exact {cur : Slot} (alive : live cur) (f : FPtr) :
    wp (fdalloc cur f)
      (fun fd s' => match fd with
        | none => s' = s
        | some fd => Exact cwd live (due - credit (some f)) s' ∧ s'.ofile cur fd = some f ∧
            s'.file = s.file)
      (fun e => ¬e.Uncounted) s := by
  apply wp_mono (fdalloc_spec cur f s)
  · rintro (_ | fd) s'
    · exact And.left
    · rintro ⟨free, rfl⟩
      have after := h.setFd alive fd (some f)
      rw [free, credit_none, add_zero] at after
      exact ⟨after, by simp [State.setFd], rfl⟩
  · exact fun _ no => no.elim

end

/-- A call on a descriptor, when it has a file and when it has none. -/
theorem wp_argfd {Q : α → State → Prop} {E : Halt → Prop} {cur : Slot} {fd : Option Fd}
    {m : Option (Fd × FPtr) → Act α} (none' : wp (m none) Q E s)
    (some' : ∀ fd f, s.ofile cur fd = some f → wp (m (some (fd, f))) Q E s) :
    wp (argfd cur fd >>= m) Q E s := by
  rw [wp_bind]
  apply wp_mono (argfd_spec cur fd s)
  · rintro (_ | ⟨fd, f⟩) s' ⟨rfl, held⟩
    · exact none'
    · exact some' fd f (held fd f rfl)
  · exact fun _ no => no.elim

theorem sysDup_exact (h : Exact cwd live 0 s) {cur : Slot} (alive : live cur) (fd : Option Fd) :
    wp (sysDup cur fd) (fun _ s' => Exact cwd live 0 s') (fun e => ¬e.Uncounted) s := by
  apply wp_argfd
  · exact h
  · intro fd f held
    have counted := h.ref_pos_of_fd held
    apply wp_seq (fdalloc_exact h alive f)
    rintro (_ | new) s'
    · rintro rfl
      exact h
    · rintro ⟨after, -, sameFiles⟩
      rw [← sameFiles] at counted
      apply wp_seq (filedup_exact after counted)
      rintro _ s'' ⟨balanced, -⟩
      simpa using balanced

theorem sysClose_exact (h : Exact cwd live 0 s) {cur : Slot} (alive : live cur) (fd : Option Fd) :
    wp (sysClose cur fd) (fun _ s' => Exact cwd live 0 s') (fun e => ¬e.Uncounted) s := by
  apply wp_argfd
  · exact h
  · intro fd f held
    have counted := h.ref_pos_of_fd held
    have taken := h.setFd alive fd none
    rw [held, credit_none, sub_zero, zero_add] at taken
    rw [wp_bind, wp_modify]
    apply wp_seq (fileclose_exact taken counted)
    rintro _ s' ⟨balanced, -⟩
    simpa using balanced

/-! ## Pipes -/

/-- The two files of a new pipe. -/
theorem Exact.makePipe (h : Exact cwd live due s) {f0 f1 : FPtr} (page : Nat → UInt8)
    (apart : f0 ≠ f1) (fresh0 : (s.file f0).type = .none) (fresh1 : (s.file f1).type = .none)
    (counted0 : 0 < (s.file f0).ref) (counted1 : 0 < (s.file f1).ref) :
    Exact cwd live due
      ((({ s.setPipe s.made (Pipe.alloc page) with made := s.made + 1 }).setFile f0
        { s.file f0 with type := .pipe, readable := true, writable := false, pipe := s.made }).setFile
          f1 { s.file f1 with type := .pipe, readable := false, writable := true, pipe := s.made }) := by
  refine ⟨?_, ?_, ?_, ?_, h.dirs, h.idle⟩
  · intro g
    have counted := h.refs g
    rcases eq_or_ne g f1 with rfl | other1
    · simpa only [State.setFile, State.setPipe, update_self] using counted
    · rcases eq_or_ne g f0 with rfl | other0
      · simpa only [State.setFile, State.setPipe, update_of_ne other1, update_self] using counted
      · simpa only [State.setFile, State.setPipe, update_of_ne other1, update_of_ne other0] using
          counted
  · intro g
    rcases eq_or_ne g f1 with rfl | other1
    · simp [State.setFile, State.setPipe]
      omega
    · rcases eq_or_ne g f0 with rfl | other0
      · simp [State.setFile, State.setPipe, other1]
        omega
      · simpa [State.setFile, State.setPipe, other1, other0] using h.unused g
  · intro g
    rcases eq_or_ne g f1 with rfl | other1
    · simp [State.setFile, State.setPipe]
    · rcases eq_or_ne g f0 with rfl | other0
      · simp [State.setFile, State.setPipe, other1]
      · simpa [State.setFile, State.setPipe, other1, other0] using h.sided g
  · rw [Exact.ends_setFile, Exact.ends_setFile]
    have made := h.plumbed.make page apart (pipeEnd_of_type (by simp [fresh0]))
      (pipeEnd_of_type (by simp [fresh1]))
    have end0 : ({ s.file f0 with
        type := .pipe, readable := true, writable := false, pipe := s.made } : File).pipeEnd =
        some (s.made, false) := by
      simp [File.pipeEnd, counted0]
    have end1 : ({ s.file f1 with
        type := .pipe, readable := false, writable := true, pipe := s.made } : File).pipeEnd =
        some (s.made, true) := by
      simp [File.pipeEnd, counted1]
    rw [end0, end1]
    exact made

/-- The ends of a pipe without descriptors are closed one after the other. -/
theorem closeBoth_exact {rf wf : FPtr} {r : α} {Q : α → State → Prop}
    (h : Exact cwd live (credit (some rf) + credit (some wf)) s)
    (then' : ∀ s', Exact cwd live 0 s' → Q r s') :
    wp (do fileclose rf; fileclose wf; return r) Q (fun e => ¬e.Uncounted) s := by
  have counted : 0 < (s.file rf).ref := h.ref_pos (by
    have := credit_nonneg (some wf) rf
    simp only [Pi.add_apply, credit_some_self]
    omega)
  apply wp_seq (fileclose_exact h counted)
  rintro _ t ⟨left, -⟩
  rw [add_sub_cancel_left] at left
  apply wp_seq (fileclose_exact left (left.ref_pos (by simp)))
  rintro _ t' ⟨balanced, -⟩
  exact then' t' (by simpa using balanced)

theorem pipealloc_exact (h : Exact cwd live 0 s) (page : Option (Nat → UInt8)) :
    wp (pipealloc page)
      (fun r s' => match r with
        | none => Exact cwd live 0 s'
        | some (rf, wf) => Exact cwd live (credit (some rf) + credit (some wf)) s')
      (fun e => ¬e.Uncounted) s := by
  unfold pipealloc
  apply wp_seq (filealloc_exact h)
  rintro (_ | f0) s0
  · exact id
  rintro ⟨one, fresh0, free0, -⟩
  have counted0 : 0 < (s0.file f0).ref := one.ref_pos (by simp)
  simp only
  apply wp_seq (filealloc_exact one)
  rintro (_ | f1) s1
  · intro same
    apply wp_seq (fileclose_exact same (same.ref_pos (by simp)))
    rintro _ s2 ⟨balanced, -⟩
    simpa using balanced
  rintro ⟨two, fresh1, free1, others⟩
  have apart : f0 ≠ f1 := by
    rintro rfl
    omega
  have counted1 : 0 < (s1.file f1).ref := two.ref_pos (by
    have := credit_nonneg (some f0) f1
    simp only [Pi.add_apply, Pi.zero_apply, credit_some_self]
    omega)
  rw [← others f0 apart] at fresh0 counted0
  rw [zero_add] at two
  cases page with
  | none =>
    simp only
    exact closeBoth_exact two fun _ => id
  | some page =>
    have made := two.makePipe page apart fresh0 fresh1 counted0 counted1
    simp only
    rw [wp_bind, wp_modify]
    simpa [State.setFile, State.setPipe, Ne.symm apart] using made

theorem sysPipe_exact (h : Exact cwd live 0 s) {cur : Slot} (alive : live cur)
    (page : Option (Nat → UInt8)) :
    wp (sysPipe cur page) (fun _ s' => Exact cwd live 0 s') (fun e => ¬e.Uncounted) s := by
  unfold sysPipe
  apply wp_seq (pipealloc_exact h page)
  rintro (_ | ⟨rf, wf⟩) s1
  · exact id
  intro both
  simp only at both ⊢
  apply wp_seq (fdalloc_exact both alive rf)
  rintro (_ | fd0) s2
  · rintro rfl
    exact closeBoth_exact both fun _ => id
  rintro ⟨left, placed, -⟩
  rw [add_sub_cancel_left] at left
  simp only
  apply wp_seq (fdalloc_exact left alive wf)
  rintro (_ | fd1) s3
  · rintro rfl
    have taken := left.setFd alive fd0 none
    rw [placed, credit_none, sub_zero, add_comm] at taken
    simp only
    rw [wp_bind, wp_modify]
    exact closeBoth_exact taken fun _ => id
  · rintro ⟨balanced, -, -⟩
    simpa using balanced

/-! ## open, chdir, fork and exit -/

theorem openFile_exact (h : Exact cwd live 0 s) {cur : Slot} (alive : live cur) (ip : IPtr)
    (omode : UInt32) :
    wp (openFile cur ip omode) (fun _ s' => Exact cwd live 0 s')
      (fun e => ¬e.Uncounted) s := by
  unfold openFile
  apply wp_seq (filealloc_exact h)
  rintro (_ | f) s1
  · intro same
    simp only [closeOpt]
    rw [wp_bind, wp_pure, wp_bind, wp_pure]
    apply wp_fs_then
    intro _ k
    apply wp_fs_then
    intro _ k
    exact same.kernel k
  rintro ⟨one, fresh, -, -⟩
  rw [zero_add] at one
  simp only
  apply wp_seq (fdalloc_exact one alive f)
  rintro (_ | fd) s2
  · rintro rfl
    simp only [closeOpt]
    apply wp_seq (fileclose_exact one (one.ref_pos (by simp)))
    rintro _ s3 ⟨balanced, -⟩
    rw [sub_self] at balanced
    apply wp_fs_then
    intro _ k
    apply wp_fs_then
    intro _ k
    exact balanced.kernel k
  · rintro ⟨balanced, -, sameFiles⟩
    rw [sub_self] at balanced
    have counted : 0 < (s2.file f).ref := by
      rw [sameFiles]
      exact one.ref_pos (by simp)
    simp only
    apply wp_fs_then
    intro _ k
    apply wp_fs_then
    intro _ k
    rw [wp_bind, wp_modify]
    apply (balanced.kernel k).setFile
    · rw [pipeEnd_of_type (by simp), pipeEnd_of_type (by simp [sameFiles, fresh])]
    · intro zero
      simp only at zero
      omega
    · simp
    · simp

theorem sysOpen_exact (h : Exact cwd live 0 s) {cur : Slot} (alive : live cur) (dir : IPtr)
    (path : Option (List UInt8)) (omode : UInt32) (name : Bytes) :
    wp (sysOpen cur dir path omode name) (fun _ s' => Exact cwd live 0 s')
      (fun e => ¬e.Uncounted) s := by
  cases path with
  | none => exact h
  | some path =>
    unfold sysOpen
    apply wp_fs_then
    intro _ k
    apply wp_fs_then
    rintro (_ | ip) k
    · simp only
      apply wp_fs_then
      intro _ k
      exact h.kernel k
    · exact openFile_exact (h.kernel k) alive ip omode

theorem sysMake_exact (h : Exact cwd live due s) (dir : IPtr) (path : Option (List UInt8))
    (type major minor : Int16) (name : Bytes) :
    wp (sysMake dir path type major minor name) (fun _ s' => Exact cwd live due s')
      (fun e => ¬e.Uncounted) s := by
  have fails : ∀ t : State, Exact cwd live due t → wp (do fs endOp; return (-1 : Int) : Act Int)
      (fun _ s' => Exact cwd live due s') (fun e => ¬e.Uncounted) t := by
    intro t balanced
    apply wp_fs_then
    intro _ k
    exact balanced.kernel k
  unfold sysMake
  apply wp_fs_then
  intro _ k
  cases path with
  | none =>
    rw [wp_bind, wp_pure]
    exact fails _ (h.kernel k)
  | some path =>
    simp only
    apply wp_fs_then
    rintro (_ | ip) k
    · exact fails _ (h.kernel k)
    · simp only
      apply wp_fs_then
      intro _ k
      apply wp_fs_then
      intro _ k
      exact h.kernel k

/-- The slots that may have descriptors are those of running processes. -/
def State.Balanced (s : State) : Prop :=
  Exact s.cwd (fun p => s.cwd p ≠ none) 0 s

theorem Exact.balanced {s' : State} (h : Exact s.cwd (fun p => s.cwd p ≠ none) 0 s') :
    s'.Balanced := by
  unfold State.Balanced
  rw [h.dirs]
  exact h

/-- Other directories, and other running processes. -/
theorem Exact.setCwd (h : Exact cwd live 0 s) {dirs : Slot → Option IPtr}
    (running : ∀ p fd, s.ofile p fd ≠ none → dirs p ≠ none) :
    State.Balanced { s with cwd := dirs } :=
  ⟨h.refs, h.unused, h.sided, h.plumbed, rfl, running⟩

theorem sysChdir_exact (h : s.Balanced) {cur : Slot} (dir : IPtr)
    (path : Option (List UInt8)) (name : Bytes) :
    wp (sysChdir cur dir path name) (fun _ s' => s'.Balanced) (fun e => ¬e.Uncounted) s := by
  have fails : ∀ t : State, Exact s.cwd (fun p => s.cwd p ≠ none) 0 t →
      wp (do fs endOp; return (-1 : Int) : Act Int) (fun _ s' => s'.Balanced)
        (fun e => ¬e.Uncounted) t := by
    intro t balanced
    apply wp_fs_then
    intro _ k
    exact (balanced.kernel k).balanced
  unfold sysChdir
  apply wp_fs_then
  intro _ k
  cases path with
  | none =>
    rw [wp_bind, wp_pure]
    exact fails _ (h.kernel k)
  | some path =>
    simp only
    apply wp_fs_then
    rintro (_ | ip) k
    · exact fails _ (h.kernel k)
    simp only
    apply wp_fs_then
    intro _ k
    rw [wp_bind, wp_get]
    apply wp_ite
    · intro _
      apply wp_fs_then
      intro _ k
      exact fails _ (h.kernel k)
    · intro _
      apply wp_fs_then
      intro _ k
      apply wp_fs_then
      intro _ k
      apply wp_fs_then
      intro _ k
      rw [wp_bind, wp_modify]
      have last := h.kernel k
      apply last.setCwd
      intro p fd held
      rcases eq_or_ne p cur with rfl | other
      · simp
      · rw [update_of_ne other]
        have running := last.idle p fd held
        rwa [← last.dirs] at running

theorem dupFiles_exact {cur np : Slot} (alive : live np) (fds : List Fd)
    (distinct : fds.Nodup) (h : Exact cwd live 0 s) (fresh : ∀ fd ∈ fds, s.ofile np fd = none) :
    wp (dupFiles cur np fds) (fun _ s' => Exact cwd live 0 s') (fun e => ¬e.Uncounted) s := by
  induction fds generalizing s with
  | nil => exact h
  | cons fd fds ih =>
    obtain ⟨notMem, distinct⟩ := List.nodup_cons.mp distinct
    unfold dupFiles
    rw [wp_bind, wp_get]
    cases held : s.ofile cur fd with
    | none => exact ih distinct h fun fd' mem => fresh fd' (List.mem_cons_of_mem _ mem)
    | some f =>
      simp only
      apply wp_seq (filedup_exact h (h.ref_pos_of_fd held))
      rintro _ s' ⟨ahead, sameFds⟩
      rw [wp_bind, wp_modify]
      have free : s'.ofile np fd = none := by
        rw [sameFds]
        exact fresh fd List.mem_cons_self
      have placed := ahead.setFd alive fd (some f)
      rw [free, credit_none, add_zero, zero_add, sub_self] at placed
      apply ih distinct placed
      intro fd' mem
      have other : fd' ≠ fd := fun same => notMem (same ▸ mem)
      simp only [State.setFd, update_self, update_of_ne other, sameFds]
      exact fresh fd' (List.mem_cons_of_mem _ mem)

theorem spawn_exact (h : s.Balanced) (cur : Slot) (dir : IPtr) (np : Option Slot) (free : ∀ slot ∈ np, s.cwd slot = none) :
    wp (spawn cur dir np) (fun _ s' => s'.Balanced) (fun e => ¬e.Uncounted) s := by
  cases np with
  | none => exact h
  | some np =>
    have vacant := free np rfl
    have fresh : ∀ fd, s.ofile np fd = none := by
      intro fd
      by_contra held
      exact h.idle np fd held vacant
    have wider : Exact s.cwd (fun p => s.cwd p ≠ none ∨ p = np) 0 s :=
      { h with idle := fun p fd held => .inl (h.idle p fd held) }
    unfold spawn
    apply wp_seq (dupFiles_exact (.inr rfl) _ (List.nodup_finRange _) wider
      fun fd _ => fresh fd)
    intro _ s1 after
    apply wp_fs_then
    intro child k
    rw [wp_bind, wp_modify]
    apply (after.kernel k).setCwd
    intro p fd held
    rcases after.idle p fd held with was | rfl
    · rcases eq_or_ne p np with rfl | other
      · simp
      · rw [update_of_ne other]
        rwa [← after.dirs] at was
    · simp

theorem closeFiles_exact {cur : Slot} (alive : live cur) (fds : List Fd)
    (h : Exact cwd live 0 s) :
    wp (closeFiles cur fds)
      (fun _ s' => Exact cwd live 0 s' ∧
        ∀ fd, fd ∈ fds ∨ s.ofile cur fd = none → s'.ofile cur fd = none)
      (fun e => ¬e.Uncounted) s := by
  induction fds generalizing s with
  | nil => exact ⟨h, fun fd => by simp⟩
  | cons fd fds ih =>
    unfold closeFiles
    rw [wp_bind, wp_get]
    cases held : s.ofile cur fd with
    | none =>
      apply wp_post (ih h)
      rintro _ s' ⟨after, closed⟩
      refine ⟨after, ?_⟩
      intro fd' which
      apply closed
      rcases which with mem | already
      · rcases List.mem_cons.mp mem with rfl | mem
        · exact .inr held
        · exact .inl mem
      · exact .inr already
    | some f =>
      simp only
      apply wp_seq (fileclose_exact h (h.ref_pos_of_fd held))
      rintro _ s1 ⟨behind, sameFds⟩
      rw [wp_bind, wp_modify]
      have cleared := behind.setFd alive fd none
      rw [sameFds, held, credit_none, sub_zero, sub_add_cancel] at cleared
      apply wp_post (ih cleared)
      rintro _ s' ⟨after, closed⟩
      refine ⟨after, ?_⟩
      intro fd' which
      apply closed
      rcases eq_or_ne fd' fd with rfl | other
      · exact .inr (by simp [State.setFd])
      · rcases which with mem | already
        · exact .inl ((List.mem_cons.mp mem).resolve_left other)
        · exact .inr (by simpa [State.setFd, other, sameFds] using already)

theorem leave_exact (h : s.Balanced) {cur : Slot} {dir : IPtr} (running : s.cwd cur = some dir) :
    wp (leave cur dir) (fun _ s' => s'.Balanced) (fun e => ¬e.Uncounted) s := by
  unfold leave
  split
  · rw [wp_throw]
    rintro (no | no) <;> simp at no
  · apply wp_seq (closeFiles_exact (by simp [running]) _ h)
    rintro _ s1 ⟨after, closed⟩
    apply wp_fs_then
    intro _ k
    apply wp_fs_then
    intro _ k
    apply wp_fs_then
    intro _ k
    apply (after.kernel k).setCwd
    intro p fd held
    rcases eq_or_ne p cur with rfl | other
    · exact absurd (closed fd (.inl (List.mem_finRange fd))) held
    · rw [update_of_ne other]
      have was := after.idle p fd held
      rwa [← after.dirs] at was

/-! ## Every call -/

theorem run_exact (h : s.Balanced) {cur : Slot} {dir : IPtr} (running : s.cwd cur = some dir)
    (c : Call) (legal : c.Legal s) :
    wp (c.run cur dir) (fun _ s' => s'.Balanced) (fun e => ¬e.Uncounted) s := by
  have alive : s.cwd cur ≠ none := by simp [running]
  -- most of the calls are one function, and its result
  have ends : ∀ {β γ : Type} {m : Act β} {f : β → γ} {Q : State → Prop},
      wp m (fun _ s' => Q s') (fun e => ¬e.Uncounted) s →
      wp (m >>= fun b => pure (f b)) (fun _ s' => Q s') (fun e => ¬e.Uncounted) s :=
    fun spec => wp_seq spec fun _ _ => id
  have same : ∀ {β : Type} {m : Act β},
      wp m (fun _ s' => Exact s.cwd (fun p => s.cwd p ≠ none) 0 s') (fun e => ¬e.Uncounted) s →
      wp m (fun _ s' => s'.Balanced) (fun e => ¬e.Uncounted) s := fun spec =>
    wp_post spec fun _ _ after => after.balanced
  cases c with
  | «open» path omode name =>
    exact ends (same (sysOpen_exact h alive dir path omode name))
  | close fd =>
    exact ends (same (sysClose_exact h alive fd))
  | dup fd =>
    exact ends (same (sysDup_exact h alive fd))
  | pipe page =>
    exact ends (same (sysPipe_exact h alive page))
  | read fd n killed console =>
    apply wp_argfd
    · exact h
    intro fd f _
    exact same (fileread_exact h f n killed console)
  | write fd bytes killed =>
    apply wp_argfd
    · exact h
    intro fd f _
    exact same (filewrite_exact h f bytes killed)
  | fstat fd =>
    apply wp_argfd
    · exact h
    intro fd f _
    exact ends (same (filestat_exact h f))
  | link old new name =>
    rcases old with _ | old
    · exact h
    rcases new with _ | new
    · exact h
    exact ends (wp_fs_any fun _ k => (h.kernel k).balanced)
  | unlink path name =>
    rcases path with _ | path
    · exact h
    exact ends (wp_fs_any fun _ k => (h.kernel k).balanced)
  | mkdir path name =>
    exact ends (same (sysMake_exact h dir path tDir 0 0 name))
  | mknod path major minor name =>
    exact ends (same (sysMake_exact h dir path tDev major minor name))
  | chdir path name =>
    exact ends (sysChdir_exact h dir path name)
  | exec path reads ok name =>
    rcases path with _ | path
    · exact h
    exact ends (wp_fs_any fun _ k => (h.kernel k).balanced)
  | fork np =>
    exact ends (spawn_exact h cur dir np legal)
  | threadCreate np =>
    exact ends (spawn_exact h cur dir np legal)
  | exit =>
    exact ends (leave_exact h running)
  | threadExit =>
    exact ends (leave_exact h running)

theorem step_cases {s s' : State} {e : Slot × Call} (stepped : step s e = some s') :
    ∃ dir r, s.cwd e.1 = some dir ∧ e.2.Legal s ∧ e.2.run e.1 dir s = .ok (r, s') := by
  unfold step at stepped
  split at stepped
  case h_1 => cases stepped
  case h_2 dir running =>
    split at stepped
    case isFalse => cases stepped
    case isTrue legal =>
      split at stepped
      case h_1 r s'' done =>
        cases stepped
        exact ⟨dir, r, running, legal, done⟩
      case h_2 => cases stepped

theorem step_balanced {s s' : State} {e : Slot × Call} (h : s.Balanced)
    (stepped : step s e = some s') : s'.Balanced := by
  obtain ⟨dir, r, running, legal, done⟩ := step_cases stepped
  exact (wp_iff.mp (run_exact h running e.2 legal)).1 r s' done

theorem start_balanced (k : Kernel) (root : IPtr) : (start k root).Balanced := by
  refine ⟨?_, ?_, ?_, ?_, rfl, ?_⟩
  · intro f
    simp [start, tally, uncurry]
  · intro f _
    rfl
  · intro f isPipe
    cases isPipe
  · refine ⟨?_, ?_, ?_, ?_⟩
    · intro f g e held
      simp [start, File.pipeEnd] at held
    · intro id w
      cases w <;> simp [start, File.pipeEnd, Pipe.isOpen]
    · intro f id w held
      simp [start, File.pipeEnd] at held
    · intro id
      simp [start]
  · intro p fd held
    exact absurd rfl held

/-- In every state between calls, whatever the calls were: the count of a file is
the number of descriptors that point to it; an end of a pipe is open exactly while
there is a file for it, and the pipe's page is freed once, with the second end.  No
call of a running process stops with a panic about a count. -/
theorem file_refs_exact (k : Kernel) (root : IPtr) (calls : List (Slot × Call)) (s : State)
    (reached : run step (start k root) calls = some s) :
    (∀ f, (s.file f).ref = tally (uncurry s.ofile) f) ∧
    (∀ id, id < s.made →
      ((s.pipe id).readopen = true ↔ ∃ f, 0 < (s.file f).ref ∧ (s.file f).type = .pipe ∧
        (s.file f).pipe = id ∧ (s.file f).readable = true) ∧
      ((s.pipe id).writeopen = true ↔ ∃ f, 0 < (s.file f).ref ∧ (s.file f).type = .pipe ∧
        (s.file f).pipe = id ∧ (s.file f).writable = true) ∧
      s.freed.count id =
        if (s.pipe id).readopen = false ∧ (s.pipe id).writeopen = false then 1 else 0) ∧
    ∀ cur dir (c : Call) e, s.cwd cur = some dir → c.Legal s → c.run cur dir s = .error e →
      e ≠ .panic "filedup" ∧ e ≠ .panic "fileclose" := by
  have h : s.Balanced :=
    run_invariant step (fun _ _ _ before stepped => step_balanced before stepped)
      (start_balanced k root) reached
  have side : ∀ id w, (s.pipe id).isOpen w = true ↔ ∃ f, 0 < (s.file f).ref ∧
      (s.file f).type = .pipe ∧ (s.file f).pipe = id ∧ (s.file f).writable = w := by
    intro id w
    rw [h.plumbed.isOpen]
    simp [File.pipeEnd, and_assoc]
  refine ⟨?_, ?_, ?_⟩
  · intro f
    have counted := h.refs f
    simp only [Pi.zero_apply, add_zero] at counted
    exact_mod_cast counted
  · intro id made
    refine ⟨?_, side id true, ?_⟩
    · rw [show (s.pipe id).readopen = (s.pipe id).isOpen false from rfl, side]
      refine exists_congr fun f => ?_
      refine and_congr_right fun _ => and_congr_right fun isPipe => and_congr_right fun _ => ?_
      rw [h.sided f isPipe]
      simp
    · rw [h.plumbed.freed id]
      simp [made]
  · intro cur dir c e running legal stopped
    have calm := Prog.wp_error (run_exact h running c legal) stopped
    exact not_or.mp calm

/-- A pipe whose ends two processes share, with one end closed by both. -/
theorem forked_pipe_refs :
    ∃ s, run step (start (boot fun _ _ => 0) 0)
        [(0, .pipe (some fun _ => 0)), (0, .fork (some 1)), (0, .close (some 0)),
          (1, .close (some 0)), (1, .dup (some 1))] = some s ∧
      (s.file 1).ref = 3 ∧ tally (uncurry s.ofile) 1 = 3 ∧ (s.pipe 0).readopen = false ∧
      s.freed.count 0 = 0 := by
  obtain ⟨s, reached, counted, closed, kept⟩ :
      ∃ s, run step (start (boot fun _ _ => 0) 0)
          [(0, .pipe (some fun _ => 0)), (0, .fork (some 1)), (0, .close (some 0)),
            (1, .close (some 0)), (1, .dup (some 1))] = some s ∧
        (s.file 1).ref = 3 ∧ (s.pipe 0).readopen = false ∧ s.freed.count 0 = 0 :=
    ⟨_, rfl, rfl, rfl, rfl⟩
  have agree := (file_refs_exact _ _ _ s reached).1 1
  exact ⟨s, reached, counted, agree.symm.trans counted, closed, kept⟩

end BasicOS.Sys
