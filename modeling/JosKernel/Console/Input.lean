import JosKernel.Lib.Bytes
import Mathlib.Data.Vector.Basic
import Mathlib.Tactic.Common

/-!
# Console input

The interrupt routines of the keyboard and the serial port stash characters in a
circular buffer (`cons_intr`), and `cons_getc` takes them out.

## The model

* The buffer positions are 32-bit words.  An access of the buffer outside its
  bounds is `none`.
* A device procedure returns characters and then -1.  What it returns before the -1
  is the list of characters that one `cons_intr` is given; both procedures return
  values of a byte.
* A call of an interrupt routine or of `cons_getc` is an event; `cons_getc` polls
  both devices first.
-/

namespace JosKernel.Console

/-- `CONSBUFSIZE`. -/
def consBufSize : Nat := 512

/-- The console input buffer `cons`. -/
structure Cons where
  buf : Vector Byte consBufSize
  rpos : BitVec 32
  wpos : BitVec 32

/-- The empty buffer. -/
def Cons.init : Cons := { buf := Vector.replicate consBufSize 0, rpos := 0, wpos := 0 }

/-- The value of `pos++`, set to 0 at the end of the buffer. -/
def bump (pos : BitVec 32) : BitVec 32 :=
  if pos + 1 = BitVec.ofNat 32 consBufSize then 0 else pos + 1

/-- `cons.buf[cons.wpos++] = c`, and the reset of `cons.wpos`. -/
def Cons.stash (s : Cons) (c : Byte) : Option Cons :=
  if h : s.wpos.toNat < consBufSize then
    some { s with buf := s.buf.set s.wpos.toNat c h, wpos := bump s.wpos }
  else none

/-- `cons_intr(proc)`, where `proc` returns the given characters and then -1. -/
def consIntr (s : Cons) : List Byte → Option Cons
  | [] => some s
  | c :: cs =>
      if c = 0 then consIntr s cs
      else do
        let s ← s.stash c
        consIntr s cs

/-- `serial_intr()`. -/
def serialIntr (serialExists : Bool) (s : Cons) (cs : List Byte) : Option Cons :=
  if serialExists then consIntr s cs else some s

/-- `kbd_intr()`. -/
def kbdIntr (s : Cons) (cs : List Byte) : Option Cons := consIntr s cs

/-- `cons_getc()`, where the devices return the given characters: the buffer and the
result. -/
def consGetc (serialExists : Bool) (s : Cons) (serial kbd : List Byte) : Option (Cons × Byte) := do
  let s ← serialIntr serialExists s serial
  let s ← kbdIntr s kbd
  if s.rpos ≠ s.wpos then
    let c ← s.buf[s.rpos.toNat]?
    return ({ s with rpos := bump s.rpos }, c)
  else
    return (s, 0)

/-- The calls that use the buffer, with what the devices return to them. -/
inductive Event where
  | serialIntr (cs : List Byte)
  | kbdIntr (cs : List Byte)
  | consGetc (serial kbd : List Byte)
deriving DecidableEq, Repr

/-- One call: the buffer and what `cons_getc` returns. -/
def consStep (serialExists : Bool) (s : Cons) : Event → Option (Cons × List Byte)
  | .serialIntr cs => do return (← serialIntr serialExists s cs, [])
  | .kbdIntr cs => do return (← kbdIntr s cs, [])
  | .consGetc serial kbd => do
      let (s, c) ← consGetc serialExists s serial kbd
      return (s, [c])

end JosKernel.Console
