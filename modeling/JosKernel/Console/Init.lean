import JosKernel.Console.Output
import Mathlib.Logic.Function.Basic

/-!
# Setting up the console

`cga_init` finds out which display there is and where its cursor is, and `serial_init` sets
up the serial port and finds out whether it exists.

## The model

* Of the display memory at `CGA_BUF`, the first cell reads as any value after it has been
  written.  The writes that look for it are not in the log of the output.
* The cursor and the line status are what the ports return, as for the output.
-/

namespace JosKernel.Console

/-- The display memory. -/
structure Display where
  /-- What the first cell at `CGA_BUF` reads as after `0xA55A` has been written to it. -/
  readBack : BitVec 16
  /-- The cells at `CGA_BUF`. -/
  cgaBuf : Nat → BitVec 16
  /-- The cells at `MONO_BUF`. -/
  monoBuf : Nat → BitVec 16

/-- `COM1`. -/
def com1 : BitVec 16 := 0x3F8

section

variable (dev : Device)

/-- `cga_init()`. -/
def cgaInit (d : Display) : Out :=
  let was := d.cgaBuf 0
  let cgaBuf := Function.update d.cgaBuf 0 0xA55A
  let m : Out :=
    if d.readBack ≠ 0xA55A then
      { crtBuf := d.monoBuf, crtPos := 0, addr6845 := .monoBase, reads := 0, log := [] }
    else
      { crtBuf := Function.update cgaBuf 0 was, crtPos := 0, addr6845 := .cgaBase, reads := 0,
        log := [] }
  -- extract the cursor location
  let m := outb m.addr6845.port 14 m
  let (high, m) := inb dev (m.addr6845.port + 1) m
  let m := outb m.addr6845.port 15 m
  let (low, m) := inb dev (m.addr6845.port + 1) m
  { m with crtPos := high.setWidth 16 <<< 8 ||| low.setWidth 16 }

/-- `serial_init()`, with `serial_exists`. -/
def serialInit (m : Out) : Bool × Out :=
  let m := outb (com1 + 2) 0 m
  -- the divisor latch, for the speed
  let m := outb (com1 + 3) 0x80 m
  let m := outb (com1 + 0) (BitVec.ofNat 8 (115200 / 9600)) m
  let m := outb (com1 + 1) 0 m
  let m := outb (com1 + 3) (0x03 &&& ~~~0x80) m
  let m := outb (com1 + 4) 0 m
  let m := outb (com1 + 1) 0x01 m
  let (status, m) := inb dev (com1 + 5) m
  let (_, m) := inb dev (com1 + 2) m
  let (_, m) := inb dev (com1 + 0) m
  (status ≠ 0xFF, m)

end

end JosKernel.Console
