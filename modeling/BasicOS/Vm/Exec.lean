/-
# BasicOS.Vm.Exec — exec.c

The executable is its bytes; `readi` on a locked inode reads them with the tests
of `fs.c`.  A `goto bad` is the value `none` of the phase it is in, and `exec`
frees the new directory then.

What `exec` does to the inode and the log is not part of this model.
-/
import BasicOS.Vm.Paging

namespace BasicOS.Vm

open Function Lib

set_option autoImplicit false

/-! ## The file -/

/-- A regular file. -/
structure File where
  bytes : Bytes
  size : Nat
  width : size < 2 ^ 32

/-- How many bytes `readi` copies from offset `off`; `none` for -1. -/
def File.readi (ip : File) (off n : Nat) : Option Nat :=
  if off > ip.size ∨ (off + n) % 2 ^ 32 < off then none
  else if (off + n) % 2 ^ 32 > ip.size then some (ip.size - off)
  else some n

/-- The fields of a `struct elfhdr` that `exec` reads. -/
structure Elfhdr where
  magic : UInt32
  entry : UInt32
  phoff : UInt32
  phnum : UInt16

abbrev elfhdrSize : Nat := 52
abbrev elfMagic : UInt32 := 0x464C457F

def Elfhdr.decode (b : Bytes) : Elfhdr where
  magic := b.get32 0
  entry := b.get32 24
  phoff := b.get32 28
  phnum := b.get16 44

/-- The fields of a `struct proghdr` that `exec` reads. -/
structure Proghdr where
  type : Nat
  off : Nat
  vaddr : Nat
  filesz : Nat
  memsz : Nat

abbrev proghdrSize : Nat := 32
abbrev elfProgLoad : Nat := 1

def Proghdr.decode (b : Bytes) : Proghdr where
  type := (b.get32 0).toNat
  off := (b.get32 4).toNat
  vaddr := (b.get32 8).toNat
  filesz := (b.get32 16).toNat
  memsz := (b.get32 20).toNat

/-! ## Loading -/

def loaduvmLoop (pgdir addr : Nat) (ip : File) (offset sz : Nat) : Nat → Nat → Call Bool
  | 0, _ => throw .endless
  | fuel + 1, i => do
      if i < sz then do
        match ← walkpgdir pgdir ((addr + i) % 2 ^ 32) false with
        | none => throw (.panic "loaduvm: address should exist")
        | some (pgtab, x) => do
            let pa := pteAddr ((← get).word pgtab x)
            let n := if sz - i < pgsize then sz - i else pgsize
            let off := (offset + i) % 2 ^ 32
            match ip.readi off n with
            | none => return false
            | some c => do
                modify fun m => m.write pa 0 (ip.bytes.drop off) c
                if c ≠ n then return false
                else loaduvmLoop pgdir addr ip offset sz fuel ((i + pgsize) % 2 ^ 32)
      else return true

/-- `true` for the return value 0. -/
def loaduvm (pgdir addr : Nat) (ip : File) (offset sz : Nat) : Call Bool :=
  if addr % pgsize ≠ 0 then throw (.panic "loaduvm: addr must be page aligned")
  else loaduvmLoop pgdir addr ip offset sz (2 ^ 20 + 1) 0

/-- One program header of type `ELF_PROG_LOAD`, into an image of size `sz`: the new
size. -/
def loadSegment (K : Link) (pgdir : Nat) (ip : File) (ph : Proghdr) (sz : Nat) :
    Call (Option Nat) := do
  if ph.memsz < ph.filesz then return none
  else if (ph.vaddr + ph.memsz) % 2 ^ 32 < ph.vaddr then return none
  else do
    let sz ← allocuvm K pgdir sz ((ph.vaddr + ph.memsz) % 2 ^ 32)
    if sz = 0 then return none
    else if ph.vaddr % pgsize ≠ 0 then return none
    else if ← loaduvm pgdir ph.vaddr ip ph.off ph.filesz then return some sz
    else return none

/-- The program headers from offset `off` on, as many as the first argument says. -/
def loadSegments (K : Link) (pgdir : Nat) (ip : File) : Nat → Nat → Nat → Call (Option Nat)
  | 0, _, sz => return some sz
  | n + 1, off, sz => do
      if ip.readi off proghdrSize ≠ some proghdrSize then return none
      else do
        let ph := Proghdr.decode (ip.bytes.drop off)
        if ph.type ≠ elfProgLoad then
          loadSegments K pgdir ip n ((off + proghdrSize) % 2 ^ 32) sz
        else
          match ← loadSegment K pgdir ip ph sz with
          | none => return none
          | some sz => loadSegments K pgdir ip n ((off + proghdrSize) % 2 ^ 32) sz

/-- The guard page and the stack page above the program: the new size. -/
@[irreducible] def allocStack (K : Link) (pgdir sz : Nat) : Call (Option Nat) := do
  let sz := pgroundup sz
  let sz ← allocuvm K pgdir sz ((sz + 2 * pgsize) % 2 ^ 32)
  if sz = 0 then return none
  else do
    clearpteu pgdir ((sz + 2 ^ 32 - 2 * pgsize) % 2 ^ 32)
    return some sz

/-! ## The arguments -/

abbrev maxarg : Nat := 32

/-- `ustack[i] = e`, for an array of `3 + MAXARG + 1` words. -/
def setUstack (ustack : Nat → UInt32) (i : Nat) (e : UInt32) : Call (Nat → UInt32) :=
  if i < 3 + maxarg + 1 then return update ustack i e else throw .overrun

/-- The words of `ustack` as bytes. -/
def ustackBytes (ustack : Nat → UInt32) : Bytes :=
  fun o => Bytes.le32 (ustack (o / 4)) (o % 4)

/-- Push the strings: `sp`, `argc` and `ustack` afterwards. -/
def pushArgs (pgdir : Nat) : List (List UInt8) → Nat → Nat → (Nat → UInt32) →
    Call (Option (Nat × Nat × (Nat → UInt32)))
  | [], argc, sp, ustack => return some (sp, argc, ustack)
  | s :: rest, argc, sp, ustack => do
      if argc ≥ maxarg then return none
      else do
        let sp := (sp + 2 ^ 32 - (s.length + 1)) % 2 ^ 32 / 4 * 4
        if ← copyout pgdir sp (Bytes.ofList s) (s.length + 1) then do
          let ustack ← setUstack ustack (3 + argc) (UInt32.ofNat sp)
          pushArgs pgdir rest (argc + 1) sp ustack
        else return none

/-- The argument strings and `ustack` on the new stack: the new `sp`. -/
def pushStack (pgdir sz : Nat) (argv : List (List UInt8)) : Call (Option Nat) := do
  match ← pushArgs pgdir argv 0 sz fun _ => 0 with
  | none => return none
  | some (sp, argc, ustack) => do
      let ustack ← setUstack ustack (3 + argc) 0
      let ustack ← setUstack ustack 0 0xffffffff
      let ustack ← setUstack ustack 1 (UInt32.ofNat argc)
      let ustack ← setUstack ustack 2 (UInt32.ofNat (sp + 2 ^ 32 - (argc + 1) * 4))
      let sp := (sp + 2 ^ 32 - (3 + argc + 1) * 4) % 2 ^ 32
      if ← copyout pgdir sp (ustackBytes ustack) ((3 + argc + 1) * 4) then return some sp
      else return none

/-! ## exec -/

/-- `/`. -/
abbrev slash : UInt8 := 0x2F

/-- What follows the last slash of the path; `last` if there is none in `s`. -/
def lastElem : List UInt8 → List UInt8 → List UInt8
  | [], last => last
  | c :: s, last => lastElem s (if c = slash then s else last)

/-- `bad:` with a directory. -/
def execBad (K : Link) (p : Image) (pgdir : Nat) : Call (Int × Image) := do
  freevm K (some pgdir)
  return (-1, p)

/-- The code from `setupkvm` on.  The name has room for 15 characters. -/
def execImage (K : Link) (p : Image) (path : List UInt8) (ip : File) (argv : List (List UInt8)) :
    Call (Int × Image) := do
  let elf := Elfhdr.decode ip.bytes
  match ← setupkvm K with
  | none => return (-1, p)
  | some pgdir => do
      match ← loadSegments K pgdir ip elf.phnum.toNat elf.phoff.toNat 0 with
      | none => execBad K p pgdir
      | some sz => do
          match ← allocStack K pgdir sz with
          | none => execBad K p pgdir
          | some sz => do
              match ← pushStack pgdir sz argv with
              | none => execBad K p pgdir
              | some sp => do
                  freevm K p.pgdir
                  return (0, { sz := sz, pgdir := some pgdir, eip := elf.entry.toNat, esp := sp,
                               name := (lastElem path path).take 15 })

/-- `none` for a path that `namei` does not find. -/
def exec (K : Link) (p : Image) (path : List UInt8) (ip : Option File)
    (argv : List (List UInt8)) : Call (Int × Image) :=
  match ip with
  | none => return (-1, p)
  | some ip =>
    if ip.readi 0 elfhdrSize ≠ some elfhdrSize then return (-1, p)
    else if (Elfhdr.decode ip.bytes).magic ≠ elfMagic then return (-1, p)
    else execImage K p path ip argv

end BasicOS.Vm
