/-
# BasicOS.Vm.Paging — kalloc.c and vm.c

Physical memory is a page of bytes for every page number, and the allocator's
free pages.  A page directory and its page tables are such pages: an entry is the
little-endian word at four times its index, and writing a user page that is also
a page table would change the translation.

Addresses are numbers below `2 ^ 32` and their arithmetic is written with the
remainder where the C code can wrap.  A kernel address of physical memory is its
page number and an offset, so that `P2V` and `V2P` disappear.
-/
import BasicOS.Lib.Bytes
import BasicOS.Lib.Prog
import BasicOS.Param

namespace BasicOS.Vm

open Function Lib

set_option autoImplicit false

/-! ## mmu.h and memlayout.h -/

abbrev pgsize : Nat := 4096
abbrev npdentries : Nat := 1024
abbrev extmem : Nat := 0x100000
abbrev phystop : Nat := 0xE000000
abbrev devspace : Nat := 0xFE000000
def kernbase : Nat := 0x80000000
abbrev kernlink : Nat := kernbase + extmem

abbrev pteP : UInt32 := 0x001
abbrev pteW : UInt32 := 0x002
abbrev pteU : UInt32 := 0x004

/-- Page directory index. -/
def pdx (va : Nat) : Nat :=
  va / 2 ^ 22 % 1024

/-- Page table index. -/
def ptx (va : Nat) : Nat :=
  va / 2 ^ 12 % 1024

/-- The address with directory index `d`, table index `t` and offset `o`. -/
def pgaddr (d t o : Nat) : Nat :=
  (d * 2 ^ 22 + t * 2 ^ 12 + o) % 2 ^ 32

def pgroundup (sz : Nat) : Nat :=
  (sz + (pgsize - 1)) % 2 ^ 32 / pgsize * pgsize

def pgrounddown (a : Nat) : Nat :=
  a / pgsize * pgsize

/-- The page number in an entry. -/
def pteAddr (e : UInt32) : Nat :=
  (e >>> 12).toNat

def pteFlags (e : UInt32) : UInt32 :=
  e &&& 0xFFF

/-- `e & PTE_P`. -/
def Present (e : UInt32) : Prop :=
  e &&& pteP ≠ 0

instance (e : UInt32) : Decidable (Present e) :=
  inferInstanceAs (Decidable (_ ≠ _))

/-- `e & PTE_U`. -/
def User (e : UInt32) : Prop :=
  e &&& pteU ≠ 0

instance (e : UInt32) : Decidable (User e) :=
  inferInstanceAs (Decidable (_ ≠ _))

/-! ## The machine -/

/-- Where the linker put the kernel, in physical pages. -/
structure Link where
  /-- The page of `data`, which is page aligned. -/
  data : Nat
  /-- The first page that does not begin below `end`. -/
  top : Nat
  text : extmem / pgsize < data
  order : data < top
  fits : top ≤ phystop / pgsize

structure Mem where
  page : Nat → Bytes
  /-- `kmem.freelist`.  The links are in the free pages themselves; nothing reads
  a free page otherwise. -/
  free : List Nat

/-- The fields of a process that `growproc` and `exec` write. -/
structure Image where
  sz : Nat
  /-- `none` is the null pointer. -/
  pgdir : Option Nat
  /-- `tf->eip` and `tf->esp`. -/
  eip : Nat
  esp : Nat
  /-- The characters of the name. -/
  name : List UInt8
  deriving DecidableEq

/-- How a call can fail to return. -/
inductive Stop where
  | panic (message : Panic)
  /-- A null pointer is used. -/
  | null
  /-- An array is indexed outside its bounds. -/
  | overrun
  /-- A loop has been at as many pages as there are and goes on. -/
  | endless
  deriving DecidableEq, Repr

/-- Code that runs on the memory. -/
abbrev Call := Prog Mem Stop

namespace Mem

/-- The entry `i` of the directory or table in page `f`. -/
def word (m : Mem) (f i : Nat) : UInt32 :=
  (m.page f).get32 (4 * i)

def setWord (m : Mem) (f i : Nat) (e : UInt32) : Mem :=
  { m with page := update m.page f ((m.page f).put32 (4 * i) e) }

/-- `memset` of a page. -/
def fill (m : Mem) (f : Nat) (b : UInt8) : Mem :=
  { m with page := update m.page f fun _ => b }

/-- `memmove` of `n` bytes into a page. -/
def write (m : Mem) (f o : Nat) (src : Bytes) (n : Nat) : Mem :=
  { m with page := update m.page f ((m.page f).copy o src n) }

end Mem

/-! ## kalloc.c -/

def kfree (K : Link) (v : Nat) : Call Unit := do
  if v < K.top ∨ phystop / pgsize ≤ v then throw (.panic "kfree")
  else modify fun m => { m.fill v 1 with free := v :: m.free }

def kalloc : Call (Option Nat) := do
  let m ← get
  match m.free with
  | [] => return none
  | r :: next => do
      set { m with free := next }
      return some r

/-! ## vm.c -/

/-- The page table and the index of the entry for `va`. -/
def walkpgdir (pgdir va : Nat) (alloc : Bool) : Call (Option (Nat × Nat)) := do
  let pde := (← get).word pgdir (pdx va)
  if Present pde then return some (pteAddr pde, ptx va)
  else if alloc then
    match ← kalloc with
    | none => return none
    | some pgtab => do
        modify fun m => m.fill pgtab 0
        modify fun m => m.setWord pgdir (pdx va)
          (UInt32.ofNat (pgtab * pgsize) ||| pteP ||| pteW ||| pteU)
        return some (pgtab, ptx va)
  else return none

/-- Store an entry where there is none. -/
def setPte (pgtab i : Nat) (e : UInt32) : Call Unit := do
  if Present ((← get).word pgtab i) then throw (.panic "remap")
  else modify fun m => m.setWord pgtab i e

def mappagesLoop (pgdir last : Nat) (perm : UInt32) : Nat → Nat → Nat → Call Bool
  | 0, _, _ => throw .endless
  | fuel + 1, a, pa => do
      match ← walkpgdir pgdir a true with
      | none => return false
      | some (pgtab, i) => do
          setPte pgtab i (UInt32.ofNat pa ||| perm ||| pteP)
          if a = last then return true
          else mappagesLoop pgdir last perm fuel ((a + pgsize) % 2 ^ 32) ((pa + pgsize) % 2 ^ 32)

/-- `true` for the return value 0. -/
def mappages (pgdir va size pa : Nat) (perm : UInt32) : Call Bool :=
  mappagesLoop pgdir (pgrounddown ((va + size + 2 ^ 32 - 1) % 2 ^ 32)) perm (2 ^ 20) (pgrounddown va)
    pa

/-- Free the page of a present entry and clear the entry. -/
def freePte (K : Link) (pgtab i : Nat) : Call Unit := do
  let pte := (← get).word pgtab i
  if Present pte then do
    if pteAddr pte = 0 then throw (.panic "kfree")
    else do
      kfree K (pteAddr pte)
      modify fun m => m.setWord pgtab i 0
  else return ()

def deallocuvmLoop (K : Link) (pgdir oldsz : Nat) : Nat → Nat → Call Unit
  | 0, _ => throw .endless
  | fuel + 1, a => do
      if a < oldsz then do
        match ← walkpgdir pgdir a false with
        | none =>
          let a := (pgaddr (pdx a + 1) 0 0 + 2 ^ 32 - pgsize) % 2 ^ 32
          deallocuvmLoop K pgdir oldsz fuel ((a + pgsize) % 2 ^ 32)
        | some (pgtab, i) => do
            freePte K pgtab i
            deallocuvmLoop K pgdir oldsz fuel ((a + pgsize) % 2 ^ 32)
      else return ()

def deallocuvm (K : Link) (pgdir oldsz newsz : Nat) : Call Nat := do
  if newsz ≥ oldsz then return oldsz
  else do
    deallocuvmLoop K pgdir oldsz (2 ^ 20 + 1) (pgroundup newsz)
    return newsz

/-- Free the table of directory entry `i` if there is one. -/
def freePde (K : Link) (pgdir i : Nat) : Call Unit := do
  let pde := (← get).word pgdir i
  if Present pde then kfree K (pteAddr pde) else return ()

def freeTables (K : Link) (pgdir : Nat) : List Nat → Call Unit
  | [] => return ()
  | i :: rest => do
      freePde K pgdir i
      freeTables K pgdir rest

/-- `none` is the null pointer. -/
def freevm (K : Link) : Option Nat → Call Unit
  | none => throw (.panic "freevm: no pgdir")
  | some pgdir => do
      let _ ← deallocuvm K pgdir kernbase 0
      freeTables K pgdir (List.range npdentries)
      kfree K pgdir

structure Kmap where
  virt : Nat
  physStart : Nat
  physEnd : Nat
  perm : UInt32

/-- The mappings that every page table has. -/
def kmap (K : Link) : List Kmap :=
  [⟨kernbase, 0, extmem, pteW⟩,
   ⟨kernlink, extmem, K.data * pgsize, 0⟩,
   ⟨kernbase + K.data * pgsize, K.data * pgsize, phystop, pteW⟩,
   ⟨devspace, devspace, 0, pteW⟩]

def setupkvmLoop (K : Link) (pgdir : Nat) : List Kmap → Call (Option Nat)
  | [] => return some pgdir
  | k :: rest => do
      if ← mappages pgdir k.virt ((k.physEnd + 2 ^ 32 - k.physStart) % 2 ^ 32) k.physStart k.perm
      then setupkvmLoop K pgdir rest
      else do
        freevm K (some pgdir)
        return none

/-- `PHYSTOP` is not too high. -/
def setupkvm (K : Link) : Call (Option Nat) := do
  match ← kalloc with
  | none => return none
  | some pgdir => do
      modify fun m => m.fill pgdir 0
      setupkvmLoop K pgdir (kmap K)

def allocuvmLoop (K : Link) (pgdir oldsz newsz : Nat) : Nat → Nat → Call Nat
  | 0, _ => throw .endless
  | fuel + 1, a => do
      if a < newsz then do
        match ← kalloc with
        | none => do
            let _ ← deallocuvm K pgdir newsz oldsz
            return 0
        | some mem => do
            modify fun m => m.fill mem 0
            if ← mappages pgdir a pgsize (mem * pgsize) (pteW ||| pteU) then
              allocuvmLoop K pgdir oldsz newsz fuel ((a + pgsize) % 2 ^ 32)
            else do
              let _ ← deallocuvm K pgdir newsz oldsz
              kfree K mem
              return 0
      else return newsz

/-- The new size, or 0. -/
def allocuvm (K : Link) (pgdir oldsz newsz : Nat) : Call Nat := do
  if newsz ≥ kernbase then return 0
  else if newsz < oldsz then return oldsz
  else allocuvmLoop K pgdir oldsz newsz (2 ^ 20 + 1) (pgroundup oldsz)

def clearpteu (pgdir uva : Nat) : Call Unit := do
  match ← walkpgdir pgdir uva false with
  | none => throw (.panic "clearpteu")
  | some (pgtab, i) => modify fun m => m.setWord pgtab i (m.word pgtab i &&& ~~~pteU)

def copyuvmLoop (K : Link) (pgdir sz d : Nat) : Nat → Nat → Call (Option Nat)
  | 0, _ => throw .endless
  | fuel + 1, i => do
      if i < sz then do
        match ← walkpgdir pgdir i false with
        | none => throw (.panic "copyuvm: pte should exist")
        | some (pgtab, x) => do
            let pte := (← get).word pgtab x
            if ¬ Present pte then throw (.panic "copyuvm: page not present")
            else
              match ← kalloc with
              | none => do
                  freevm K (some d)
                  return none
              | some mem => do
                  modify fun m => m.write mem 0 (m.page (pteAddr pte)) pgsize
                  if ← mappages d i pgsize (mem * pgsize) (pteFlags pte) then
                    copyuvmLoop K pgdir sz d fuel ((i + pgsize) % 2 ^ 32)
                  else do
                    kfree K mem
                    freevm K (some d)
                    return none
      else return some d

def copyuvm (K : Link) (pgdir sz : Nat) : Call (Option Nat) := do
  match ← setupkvm K with
  | none => return none
  | some d => copyuvmLoop K pgdir sz d (2 ^ 20 + 1) 0

/-- The physical page of a user address.  The pointer that `walkpgdir` returns is
used without a test. -/
def uva2ka (pgdir uva : Nat) : Call (Option Nat) := do
  match ← walkpgdir pgdir uva false with
  | none => throw .null
  | some (pgtab, i) => do
      let pte := (← get).word pgtab i
      if ¬ Present pte then return none
      else if ¬ User pte then return none
      else return some (pteAddr pte)

/-- One page of the buffer in each round; `len ≤ fuel` in all of them. -/
def copyoutLoop (pgdir : Nat) : Nat → Nat → Bytes → Nat → Call Bool
  | 0, _, _, _ => return true
  | fuel + 1, va, buf, len => do
      if len > 0 then do
        let va0 := pgrounddown va
        match ← uva2ka pgdir va0 with
        | none => return false
        | some pa0 => do
            let n := min (pgsize - (va - va0)) len
            modify fun m => m.write pa0 (va - va0) buf n
            copyoutLoop pgdir fuel ((va0 + pgsize) % 2 ^ 32) (buf.drop n) (len - n)
      else return true

/-- `true` for the return value 0. -/
def copyout (pgdir va : Nat) (p : Bytes) (len : Nat) : Call Bool :=
  copyoutLoop pgdir len va p len

end BasicOS.Vm
