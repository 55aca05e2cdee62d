/-
# BasicOS.Dev.Console — the input side of console.c

The ring `input.buf` with its read, write and edit index, `consoleintr` for a batch of
characters, and `consoleread` from where it takes `cons.lock` to where it returns or
sleeps.  Readers and the interrupt handler are processes at a monitor (`Lib.Monitor`);
the processor that takes the interrupt is a process in no call.  The echo on the
screen and the lock of the console's inode are left out.

The state also records what readers were given, in the order of time: a byte each time
one is stored at `*dst`, and the end of input each time a control-D is used up.
-/
import BasicOS.Lib.Monitor

namespace BasicOS.Console

open Lib Function

set_option autoImplicit false

/-- `INPUT_BUF`. -/
def inputBuf : Nat := 128

/-- `'\\n'`. -/
abbrev newline : UInt8 := 10

/-- `C('D')`. -/
abbrev ctlD : UInt8 := 4

/-- What a reader is given. -/
inductive Item where
  | data (b : UInt8)
  | eof
  deriving DecidableEq, Repr

/-- `input`, and the record of what was read. -/
structure Input where
  buf : Nat → UInt8
  r : UInt32
  w : UInt32
  e : UInt32
  received : List Item

/-- What a character typed is for. -/
inductive Key where
  /-- `C('P')`: the process listing. -/
  | procdump
  /-- `C('U')`. -/
  | killLine
  /-- `C('H')` or delete. -/
  | backspace
  | other (c : UInt8)

/-- The cases of the `switch` in `consoleintr`. -/
def keyOf (c : UInt8) : Key :=
  if c = 16 then .procdump
  else if c = 21 then .killLine
  else if c = 8 ∨ c = 127 then .backspace
  else .other c

/-- `c = (c == '\\r') ? '\\n' : c`. -/
def cook (c : UInt8) : UInt8 :=
  if c = 13 then newline else c

namespace Input

/-- The loop of the kill character; it ends when `e` has come down to `w`. -/
def killLine : Nat → Input → Input
  | 0, i => i
  | k + 1, i =>
    if i.e ≠ i.w ∧ i.buf ((i.e - 1).toNat % inputBuf) ≠ newline then
      killLine k { i with e := i.e - 1 }
    else i

/-- `input.buf[input.e++ % INPUT_BUF] = c`. -/
def store (i : Input) (c : UInt8) : Input :=
  { i with buf := update i.buf (i.e.toNat % inputBuf) c, e := i.e + 1 }

/-- One character in `consoleintr`; the flag is for `wakeup(&input.r)`. -/
def type (i : Input) (c : UInt8) : Input × Bool :=
  match keyOf c with
  | .procdump => (i, false)
  | .killLine => (i.killLine (i.e - i.w).toNat, false)
  | .backspace => (if i.e ≠ i.w then { i with e := i.e - 1 } else i, false)
  | .other c =>
    if c ≠ 0 ∧ (i.e - i.r).toNat < inputBuf then
      let c := cook c
      let i := i.store c
      if c = newline ∨ c = ctlD ∨ i.e = i.r + UInt32.ofNat inputBuf then
        ({ i with w := i.e }, true)
      else (i, false)
    else (i, false)

end Input

/-- The call a process is in; a call that has returned has its result, and `none` is
-1. -/
inductive Task where
  | idle
  /-- `consoleread`, with `n` bytes to go after those it has got. -/
  | reading (n : Nat) (got : List UInt8)
  | returned (result : Option (List UInt8))
  deriving DecidableEq, Repr

inductive Act where
  /-- `consoleintr`, with the characters that `getc` returns. -/
  | consoleintr (chars : List UInt8)
  | consoleread (n : Nat)
  /-- The call that has begun goes on. -/
  | go
  | leave
  deriving DecidableEq, Repr

/-- `consoleintr`: the characters one after the other, with a wakeup for each that
moves `input.w`. -/
def consoleintr : List UInt8 → Input → Input × List Unit
  | [], i => (i, [])
  | c :: chars, i =>
    let now := i.type c
    let rest := consoleintr chars now.1
    (rest.1, if now.2 then () :: rest.2 else rest.2)

/-- `consoleread` under the lock, with `n` bytes to go. -/
def consoleread (killed : Bool) : Nat → List UInt8 → Input → Stretch Input Task Unit
  | 0, got, i => ⟨i, [], .returned (some got), none⟩
  | n + 1, got, i =>
    if i.r = i.w then
      if killed then ⟨i, [], .returned none, none⟩
      else ⟨i, [], .reading (n + 1) got, some ()⟩
    else
      let c := i.buf (i.r.toNat % inputBuf)
      let i := { i with r := i.r + 1 }
      if c = ctlD then
        -- saved for next time, if this read has got something
        if got ≠ [] then ⟨{ i with r := i.r - 1 }, [], .returned (some got), none⟩
        else ⟨{ i with received := i.received ++ [.eof] }, [], .returned (some got), none⟩
      else
        let i := { i with received := i.received ++ [.data c] }
        if c = newline then ⟨i, [], .returned (some (got ++ [c])), none⟩
        else consoleread killed n (got ++ [c]) i

/-- The steps without the lock: a call of `consoleread`, and its end. -/
def unlocked : Act → Task → Option Task
  | .consoleread n, .idle => some (.reading n [])
  | .leave, .returned _ => some .idle
  | _, _ => none

def monitor : Monitor Input Task Unit Act where
  body a killed task i :=
    match a, task with
    | .consoleintr chars, .idle =>
      let after := consoleintr chars i
      some ⟨after.1, after.2, .idle, none⟩
    | .go, .reading n got => some (consoleread killed n got i)
    | _, _ => none
  free a task i := (unlocked a task).map fun task => (task, i)

abbrev State (P : Type) := MState P Input Task Unit

abbrev Event (P : Type) := MEvent P Act

/-- The empty console; the ring's bytes are whatever they are. -/
def init {P : Type} (buf : Nat → UInt8) : State P :=
  MState.init { buf, r := 0, w := 0, e := 0, received := [] } .idle

end BasicOS.Console
