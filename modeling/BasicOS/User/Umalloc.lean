/-
# BasicOS.User.Umalloc — the user-level allocator of umalloc.c

The memory of a process is words of four bytes.  A header is two of them, a pointer and
a size in units of eight bytes.  The free blocks are a ring through `base`, in the order
of their addresses, and `freep` is somewhere on it.

`sbrk` is `sys_sbrk` with `growproc`: its argument is an `int`, and for a negative one
the process shrinks or, where the sum wraps around, stays as it is.

The state also records the blocks that `malloc` has returned and `free` has not had
back, with the sizes that were asked for (`live`).  Between the calls the program writes
into those.
-/
import BasicOS.Lib.Path
import BasicOS.Lib.Run
import BasicOS.Param

namespace BasicOS.Umalloc

open Lib Function

set_option autoImplicit false

abbrev kernbase : Nat := 0x80000000

/-- Where a program has `base`, and its break when it starts. -/
structure Layout where
  base : Nat
  start : Nat
  base_pos : 0 < base
  base_below : base + 8 ≤ start
  aligned : start % 8 = 0
  below : start < kernbase

structure Heap where
  /-- The word at an address. -/
  mem : Nat → Nat
  /-- A null pointer is 0. -/
  freep : Nat
  /-- The size of the process. -/
  brk : Nat
  live : Nat → Option Nat

/-- `p->s.ptr`. -/
abbrev Heap.ptr (s : Heap) (p : Nat) : Nat :=
  s.mem p

/-- `p->s.size`. -/
def Heap.size (s : Heap) (p : Nat) : Nat :=
  s.mem (p + 4)

def Heap.setPtr (s : Heap) (p v : Nat) : Heap :=
  { s with mem := update s.mem p v }

def Heap.setSize (s : Heap) (p v : Nat) : Heap :=
  { s with mem := update s.mem (p + 4) v }

/-- `p + n`, for a pointer to headers. -/
def plus (p n : Nat) : Nat :=
  (p + 8 * n) % 2 ^ 32

/-- More than there can be headers. -/
abbrev limit : Nat := 2 ^ 32

/-- `sbrk(n)`, from the break and the argument: the new break, unless it fails.  `ok` says
whether the memory can be had, and whether the process may shrink, which a thread may
not.  The value that `sbrk` returns is the old break. -/
def sbrk (brk n : Nat) (ok : Bool) : Option Nat :=
  let newsz := (brk + n) % 2 ^ 32
  if n = 0 then some brk
  else if n < 2 ^ 31 then
    -- `allocuvm`
    if newsz ≥ kernbase then none
    else if newsz < brk then some brk
    else if ok then some newsz
    else none
  else
    -- `deallocuvm`
    let sz := if newsz ≥ brk then brk else newsz
    if sz = 0 ∨ ok = false then none else some sz

/-- Where the loop of `free` ends: `bp` goes between `p` and `p->s.ptr`. -/
def stops (s : Heap) (bp p : Nat) : Bool :=
  (bp > p && bp < s.ptr p) || (p ≥ s.ptr p && (bp > p || bp < s.ptr p))

/-- `free(ap)`. -/
def free (s : Heap) (ap : Nat) : Option Heap :=
  let bp := ap - 8
  (seek s.ptr (stops s bp) limit s.freep).map fun p =>
    let s :=
      if plus bp (s.size bp) = s.ptr p then
        let s := s.setSize bp ((s.size bp + s.size (s.ptr p)) % 2 ^ 32)
        s.setPtr bp (s.ptr (s.ptr p))
      else s.setPtr bp (s.ptr p)
    let s :=
      if plus p (s.size p) = bp then
        let s := s.setSize p ((s.size p + s.size bp) % 2 ^ 32)
        s.setPtr p (s.ptr bp)
      else s.setPtr p bp
    { s with freep := p }

/-- `morecore(nu)`; `some none` when it returns 0. -/
def morecore (s : Heap) (nu : Nat) (ok : Bool) : Option (Option Heap) :=
  let nu := if nu < 4096 then 4096 else nu
  match sbrk s.brk (nu * 8 % 2 ^ 32) ok with
  | none => some none
  | some brk =>
    let hp := s.brk
    (free ({ s with brk := brk }.setSize hp nu) (plus hp 1)).map some

/-- Take `nunits` from the block `p` behind `prevp`, from its end. -/
def take (s : Heap) (nunits prevp p : Nat) : Heap × Nat :=
  if s.size p = nunits then ({ s.setPtr prevp (s.ptr p) with freep := prevp }, plus p 1)
  else
    let s := s.setSize p (s.size p - nunits)
    let p := plus p (s.size p)
    ({ s.setSize p nunits with freep := prevp }, plus p 1)

/-- The loop of `malloc`. -/
def fit (nunits : Nat) (ok : Bool) : Nat → Heap → Nat → Nat → Option (Heap × Nat)
  | 0, _, _, _ => none
  | fuel + 1, s, prevp, p =>
    if s.size p ≥ nunits then some (take s nunits prevp p)
    else if p = s.freep then
      match morecore s nunits ok with
      | none => none
      | some none => some (s, 0)
      | some (some s) => fit nunits ok fuel s s.freep (s.ptr s.freep)
    else fit nunits ok fuel s p (s.ptr p)

/-- `(nbytes + sizeof(Header) - 1) / sizeof(Header) + 1`. -/
def units (nbytes : UInt32) : Nat :=
  ((nbytes + 8 - 1) / 8 + 1).toNat

/-- The ring of `base` alone, at the first call. -/
def Heap.begin (s : Heap) (L : Layout) : Heap :=
  { (s.setPtr L.base L.base).setSize L.base 0 with freep := L.base }

/-- `malloc(nbytes)`, and what it returns. -/
def malloc (L : Layout) (s : Heap) (nbytes : UInt32) (ok : Bool) : Option (Heap × Nat) :=
  let s := if s.freep = 0 then s.begin L else s
  fit (units nbytes) ok limit s s.freep (s.ptr s.freep)

inductive Event where
  | malloc (nbytes : UInt32) (ok : Bool)
  | free (ap : Nat)
  /-- The program writes a word of a block that it has. -/
  | store (ap i v : Nat)
  deriving DecidableEq, Repr

def step (L : Layout) (s : Heap) : Event → Option Heap
  | .malloc nbytes ok =>
    (malloc L s nbytes ok).map fun (s, ap) =>
      if ap = 0 then s else { s with live := update s.live ap (some nbytes.toNat) }
  | .free ap =>
    if (s.live ap).isSome then
      (free s ap).map fun s => { s with live := update s.live ap none }
    else none
  | .store ap i v =>
    match s.live ap with
    | none => none
    | some n => if 4 * i < n then some { s with mem := update s.mem (ap + 4 * i) v } else none

def init (L : Layout) (mem : Nat → Nat) : Heap where
  mem := mem
  freep := 0
  brk := L.start
  live _ := none

end BasicOS.Umalloc
