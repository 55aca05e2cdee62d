/-
# BasicOS.Vm.NewImage — the whole of exec

`exec` builds the new address space beside the old one, out of free pages, and
frees the old one at the end.  `execImage_spec` puts the phases together: whichever
of them fails, `freevm` gives back what the earlier ones took, so that the process
and the set of free pages are as before.

The one way `exec` can stop is an argument that is longer than a page: the stack
pointer may then wrap, and `copyout` looks for an entry in a page table that is not
there.
-/
import BasicOS.Syscall.Args
import BasicOS.Vm.Stack

namespace BasicOS.Vm

open Function Lib
open Lib.Prog

set_option autoImplicit false

/-! ## sys_exec -/

/-- The bytes of a string that `fetchstr` has found. -/
def argString (u : Usys.Caller) (s : UInt32 × Nat) : List UInt8 :=
  (List.range s.2).map fun k => u.mem (s.1.toNat + k)

/-- The loop of `sys_exec` from `argv[i]` on, with room for `n` more. -/
def execArgsLoop (u : Usys.Caller) (uargv : UInt32) : Nat → Nat → Option (List (List UInt8))
  | 0, _ => none
  | n + 1, i => do
      let uarg ← u.fetchint (uargv + 4 * UInt32.ofNat i)
      if uarg = 0 then some []
      else do
        let s ← u.fetchstr uarg
        let rest ← execArgsLoop u uargv n (i + 1)
        some (argString u s :: rest)

/-- The argument strings of `sys_exec`; `none` if it returns -1 without a call of
`exec`. -/
def execArgs (u : Usys.Caller) (uargv : UInt32) : Option (List (List UInt8)) :=
  execArgsLoop u uargv maxarg 0

theorem execArgsLoop_short {u : Usys.Caller} {uargv : UInt32} {n i : Nat} {argv : List (List UInt8)}
    (accepted : execArgsLoop u uargv n i = some argv) : ∀ s ∈ argv, s.length < kernbase := by
  induction n generalizing i argv with
  | zero => cases accepted
  | succ n ih =>
    simp only [execArgsLoop, Option.bind_eq_bind, Option.bind_eq_some_iff] at accepted
    obtain ⟨uarg, -, accepted⟩ := accepted
    split at accepted
    · obtain rfl := Option.some.inj accepted
      simp
    · obtain ⟨s, found, accepted⟩ := Option.bind_eq_some_iff.mp accepted
      obtain ⟨rest, tail, whole⟩ := Option.bind_eq_some_iff.mp accepted
      obtain rfl := Option.some.inj whole
      intro t mem
      rcases List.mem_cons.mp mem with rfl | mem
      · have limit := u.sz_le
        unfold Usys.Caller.fetchstr at found
        split at found
        · cases found
        · obtain ⟨len, at_len, rfl⟩ := Option.map_eq_some_iff.mp found
          have less := List.mem_range.mp (List.mem_of_find?_eq_some at_len)
          simp only [argString, List.length_map, List.length_range, kernbase]
          omega
      · exact ih tail t mem

/-! ## exec -/

variable {K : Link} {m m' : Mem} {d d₀ : Nat} {p : Image} {ip : File} {path : List UInt8}
  {argv : List (List UInt8)}

/-- The segments that `exec` loads. -/
def File.segments (ip : File) : List Proghdr :=
  Vm.segments ip (Elfhdr.decode ip.bytes).phnum.toNat (Elfhdr.decode ip.bytes).phoff.toNat

/-- The process runs the new program. -/
structure Started (K : Link) (ip : File) (path : List UInt8) (argv : List (List UInt8)) (m : Mem)
    (d₀ : Nat) (p : Image) (d : Nat) (m' : Mem) : Prop where
  dir : p.pgdir = some d
  entry : p.eip = (Elfhdr.decode ip.bytes).entry.toNat
  name : p.name = (lastElem path path).take 15
  space : Space K m' d none
  changes : Changes m (own m d₀ none) m' (own m' d none)
  room : 2 * pgsize ≤ p.sz
  below : p.sz < kernbase
  exact : Exact m' d p.sz
  bytes : ∀ a < p.sz - pgsize, m'.ubyte d a = some (imageByte ip ip.segments a)
  args : ArgStack m' d p.sz p.esp argv

/-- The new directory is given back. -/
theorem execBad_spec (p : Image) {m₁ : Mem} (changes : Changes m nothing m₁ (own m₁ d none))
    (space : Space K m₁ d none) :
    wp (execBad K p d) (fun r m' => r = (-1, p) ∧ Changes m nothing m' nothing) (fun _ => False) m₁ := by
  unfold execBad
  exact wp_seq (freevm_spec space) fun _ m' freed => ⟨rfl, changes.trans freed⟩

/-- An address space is not touched by what is made of free pages. -/
theorem Space.beside {Q : Type} {o : Q → Option Nat} {h : Option Nat} (space : Space K m d h)
    (changes : Changes m nothing m' o) :
    Space K m' d h ∧ own m' d h = own m d h ∧ ∀ v < 2 ^ 19, m'.upage d v = m.upage d v :=
  space.bystander (fun _ _ has counted => space.held.taken has (accounted_none.mp counted))
    (fun f counted => space.managed f (.inl (accounted_none.mp counted))) changes

/-- What is made of free pages has no page in common with an address space. -/
theorem Space.beside_apart {s s' : Slot} {f : Nat} (old : Space K m d₀ none)
    (changes : Changes m nothing m' (own m' d none)) (has : own m' d none s = some f) :
    own m' d₀ none s' ≠ some f := by
  rw [(old.beside changes).2.1]
  exact fun has' => old.held.taken has' (accounted_none.mp ((changes.trade.same f).mp (.inr ⟨s, has⟩)))

/-- The old address space is freed and the new one is not touched. -/
theorem freevm_beside {m₁ : Mem} (old : Space K m d₀ none) (space : Space K m₁ d none)
    (changes : Changes m nothing m₁ (own m₁ d none)) :
    wp (freevm K (some d₀)) (fun _ m' => Space K m' d none ∧
      Changes m (own m d₀ none) m' (own m' d none) ∧ ∀ v < 2 ^ 19, m'.upage d v = m₁.upage d v)
      (fun _ => False) m₁ := by
  obtain ⟨old₁, places, -⟩ := old.beside changes
  have apart : ∀ s f, own m₁ d none s = some f → ¬ Accounted m₁.free (own m₁ d₀ none) f := by
    rintro s f has (mem | ⟨s', has'⟩)
    · exact space.held.taken has mem
    · exact old.beside_apart changes has has'
  refine wp_post (freevm_spec old₁) fun _ m' freed => ?_
  obtain ⟨space', same, pages⟩ := space.bystander apart old₁.managed freed
  have taken : ∀ f, (f ∈ m₁.free ∨ ∃ s, own m₁ d none s = some f) ↔ f ∈ m.free := fun f =>
    (changes.trade.same f).trans accounted_none
  have given : ∀ f, f ∈ m'.free ↔ f ∈ m₁.free ∨ ∃ s, own m d₀ none s = some f := fun f => by
    rw [← accounted_none, ← places]
    exact freed.trade.same f
  refine ⟨space', ⟨⟨space'.held, fun f => ?_⟩, fun f out => ?_⟩, pages⟩
  · unfold Accounted
    rw [same, given, ← taken, or_right_comm]
  · obtain ⟨not_free, not_old⟩ := not_or.mp out
    rw [freed.others f ?_, changes.others f fun counted => not_free (accounted_none.mp counted)]
    unfold Accounted
    rw [places, not_or]
    exact ⟨fun mem => not_free ((taken f).mp (.inl mem)), not_old⟩

theorem Loaded.nil (space : Space K m d none) (empty : ∀ w < 2 ^ 19, m.leaf d w = none) :
    Loaded K d 0 (fun _ => 0) m := by
  have no_pages : pages 0 = 0 := rfl
  refine ⟨space, fun v user => ?_, by decide, fun a less => ?_, fun _ _ => rfl⟩
  · rw [empty v user, no_pages]
    simp
  · rw [no_pages, Nat.zero_mul] at less
    exact absurd less (Nat.not_lt_zero a)

theorem execImage_spec (old : Space K m d₀ none) (dir : p.pgdir = some d₀)
    (short : ∀ s ∈ argv, s.length < kernbase) :
    wp (execImage K p path ip argv) (fun r m' => (r = (-1, p) ∧ Changes m nothing m' nothing) ∨
      (r.1 = 0 ∧ ∃ d, Started K ip path argv m d₀ r.2 d m'))
      (fun e => e = .null ∧ ∃ s ∈ argv, pgsize ≤ s.length) m := by
  have held : Held m.free nothing := held_none old.held.nodup
  have managed : Managed K m.free nothing := fun f counted =>
    old.managed f (.inl (accounted_none.mp counted))
  have bad : ∀ {d m₁}, Changes m nothing m₁ (own m₁ d none) → Space K m₁ d none →
      wp (execBad K p d) (fun r m' => (r = (-1, p) ∧ Changes m nothing m' nothing) ∨
        (r.1 = 0 ∧ ∃ d, Started K ip path argv m d₀ r.2 d m'))
        (fun e => e = .null ∧ ∃ s ∈ argv, pgsize ≤ s.length) m₁ := fun changes space =>
    wp_mono (execBad_spec p changes space) (fun _ _ failed => .inl failed) fun _ no => no.elim
  unfold execImage
  dsimp only
  refine wp_seq_sure (setupkvm_spec held managed) fun r m₁ kvm => ?_
  cases r with
  | none => exact .inl ⟨rfl, kvm⟩
  | some d =>
    obtain ⟨space₁, changes₁, empty⟩ := kvm
    dsimp only
    refine wp_seq_sure (loadSegments_spec ip _ _ (.nil space₁ empty)) fun r m₂ load => ?_
    obtain ⟨space₂, changes₂, loaded⟩ := load
    cases r with
    | none => exact bad (changes₁.trans changes₂) space₂
    | some sz =>
      have loaded : Loaded K d sz (imageByte ip ip.segments) m₂ := foldl_place ip ip.segments ▸ loaded sz rfl
      dsimp only
      refine wp_seq_sure (allocStack_spec loaded) fun r m₃ alloc => ?_
      obtain ⟨space₃, changes₃, fits⟩ := alloc
      have changes₃ := (changes₁.trans changes₂).trans changes₃
      cases r with
      | none => exact bad changes₃ space₃
      | some sz' =>
        obtain ⟨size, stacked⟩ := fits sz' rfl
        generalize pages sz + 2 = q at size stacked
        subst size
        dsimp only
        refine wp_seq (pushStack_spec stacked.fenced short) fun r m₄ pushed => ?_
        obtain ⟨touched, pushed⟩ := pushed
        have changes₄ := changes₃.trans touched.changes
        cases r with
        | none => exact bad changes₄ touched.space
        | some sp =>
          obtain ⟨args, below_stack⟩ := pushed sp rfl
          dsimp only
          rw [wp_bind, dir]
          refine wp_mono (freevm_beside old touched.space changes₄) (fun _ m₅ freed => ?_)
            fun _ no => no.elim
          obtain ⟨space₅, changes₅, same⟩ := freed
          have byte : ∀ a < kernbase, m₅.ubyte d a = m₄.ubyte d a := fun a inside =>
            ubyte_congr (same _ (by simp only [kernbase, pgsize] at *; omega))
          have top : q * pgsize < kernbase :=
            Nat.mul_lt_mul_of_pos_right stacked.below (by decide : 0 < pgsize)
          have last : q * pgsize - pgsize = (q - 1) * pgsize := by rw [Nat.sub_mul, Nat.one_mul]
          refine .inr ⟨rfl, d, rfl, rfl, rfl, space₅, changes₅, Nat.mul_le_mul_right _ stacked.two, top,
            fun v user => ?_, fun a less => ?_, args.congr (Nat.le_of_lt top) byte⟩
          · rw [Mem.leaf_of_upage (same v user), touched.leaf v (by omega)]
            exact stacked.exact v user
          · dsimp only at less
            rw [byte a (by omega), below_stack a (last ▸ less), stacked.bytes a (by omega)]

/-- Nothing has happened to the process, its memory or the free pages. -/
structure Kept (d : Nat) (p : Image) (m : Mem) (p' : Image) (m' : Mem) : Prop where
  process : p' = p
  nodup : m'.free.Nodup
  free : ∀ f, f ∈ m'.free ↔ f ∈ m.free
  pages : ∀ v < 2 ^ 19, m'.upage d v = m.upage d v

theorem Kept.of_changes (space : Space K m d none) (changes : Changes m nothing m' nothing) :
    Kept d p m p m' :=
  ⟨rfl, changes.trade.held.nodup, fun f => accounted_none.symm.trans ((changes.trade.same f).trans
    accounted_none), (space.beside changes).2.2⟩

theorem exec_spec (path : List UInt8) (file : Option File) (old : Space K m d₀ none) (dir : p.pgdir = some d₀)
    (short : ∀ s ∈ argv, s.length < kernbase) :
    wp (exec K p path file argv) (fun r m' => (r.1 = -1 ∧ Kept d₀ p m r.2 m') ∨
      (r.1 = 0 ∧ ∃ ip d, file = some ip ∧ Started K ip path argv m d₀ r.2 d m'))
      (fun e => e = .null ∧ ∃ s ∈ argv, pgsize ≤ s.length) m := by
  have refused : Kept d₀ p m p m := .of_changes old (.refl (held_none old.held.nodup))
  unfold exec
  cases file with
  | none => exact .inl ⟨rfl, refused⟩
  | some ip =>
    refine wp_ite (fun _ => .inl ⟨rfl, refused⟩) fun _ => ?_
    refine wp_ite (fun _ => .inl ⟨rfl, refused⟩) fun _ => ?_
    refine wp_post (execImage_spec old dir short) fun r m' done => ?_
    rcases done with ⟨rfl, changes⟩ | ⟨zero, d, started⟩
    · exact .inl ⟨rfl, .of_changes old changes⟩
    · exact .inr ⟨zero, ip, d, rfl, started⟩

/-- At 16 the array with the address 24 and the end; at 24 the string `x`. -/
def oneArg : Usys.Caller where
  sz := 26
  esp := 0
  mem := Bytes.ofList (List.replicate 16 0 ++ [24, 0, 0, 0, 0, 0, 0, 0, 0x78])
  below := by decide

/-- A program without segments. -/
def bareElf : File where
  bytes := Bytes.put32 (fun _ => 0) 0 elfMagic
  size := 52
  width := by decide

theorem oneArg_accepted : execArgs oneArg 16 = some [[0x78]] := by
  decide

end BasicOS.Vm
