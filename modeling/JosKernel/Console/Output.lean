import JosKernel.Lib.Bytes
import Mathlib.Tactic.Common

/-!
# Console output

`cons_putc` gives each character to the serial port, to the parallel port and to the
text-mode display.  `cga_putc` calls `cons_putc` again for a tab.

## The model

* The state is the display memory, the cursor, the address of the display
  controller, and a log of what has been done: the bytes put out to ports and the
  writes to the display memory.  The display memory has no end here; that no write
  is past the screen is a theorem.
* `inb` reads from a device that may return anything: `dev n port` is what the
  `n`-th read returns.  The waiting loops read it.
* Character codes are 32-bit words, as `int` is.
-/

namespace JosKernel.Console

/-! ## Ports and memory -/

/-- `addr_6845`: `cga_init` sets it to one of two values. -/
inductive Addr6845 where
  /-- `CGA_BASE`. -/
  | cgaBase
  /-- `MONO_BASE`. -/
  | monoBase
deriving DecidableEq, Repr

def Addr6845.port : Addr6845 → BitVec 16
  | .cgaBase => 0x3D4
  | .monoBase => 0x3B4

/-- What the output code does to the world. -/
inductive IoEvent where
  /-- `outb(port, b)`. -/
  | outb (port : BitVec 16) (b : Byte)
  /-- `crt_buf[i] = v`. -/
  | store (i : Nat) (v : BitVec 16)
  /-- `memmove` of `n` cells within `crt_buf`. -/
  | memmove (dst src n : Nat)
deriving DecidableEq, Repr

/-- The state of the output code. -/
structure Out where
  crtBuf : Nat → BitVec 16
  crtPos : BitVec 16
  addr6845 : Addr6845
  /-- The number of port reads so far. -/
  reads : Nat
  log : List IoEvent

/-- What `inb` returns, for each read and port. -/
abbrev Device := Nat → BitVec 16 → Byte

def inb (dev : Device) (port : BitVec 16) (m : Out) : Byte × Out :=
  (dev m.reads port, { m with reads := m.reads + 1 })

def outb (port : BitVec 16) (b : Byte) (m : Out) : Out := { m with log := m.log ++ [.outb port b] }

/-- `crt_buf[i] = v`. -/
def crtStore (i : Nat) (v : BitVec 16) (m : Out) : Out :=
  { m with
    crtBuf := fun j ↦ if j = i then v else m.crtBuf j
    log := m.log ++ [.store i v] }

/-- `memmove(crt_buf + dst, crt_buf + src, n * sizeof(uint16_t))`. -/
def crtMemmove (dst src n : Nat) (m : Out) : Out :=
  { m with
    crtBuf := fun j ↦ if dst ≤ j ∧ j < dst + n then m.crtBuf (src + (j - dst)) else m.crtBuf j
    log := m.log ++ [.memmove dst src n] }

/-! ## The serial and the parallel port -/

/-- `delay()`. -/
def delay (dev : Device) (m : Out) : Out :=
  let (_, m) := inb dev 0x84 m
  let (_, m) := inb dev 0x84 m
  let (_, m) := inb dev 0x84 m
  let (_, m) := inb dev 0x84 m
  m

/-- `for (i = 0; !(inb(port) & mask) && i < n; i++) delay();` -/
def waitFor (dev : Device) (port : BitVec 16) (mask : Byte) : Nat → Out → Out
  | 0, m => (inb dev port m).2
  | n + 1, m =>
      let (status, m) := inb dev port m
      if status &&& mask = 0 then waitFor dev port mask n (delay dev m) else m

/-- `COM1 + COM_TX`. -/
def comTx : BitVec 16 := 0x3F8

/-- `COM1 + COM_LSR`. -/
def comLsr : BitVec 16 := 0x3F8 + 5

/-- `COM_LSR_TXRDY`. -/
def comLsrTxrdy : Byte := 0x20

/-- The byte that `outb` puts out for a code. -/
def lowByte (c : BitVec 32) : Byte := c.setWidth 8

/-- `serial_putc(c)`. -/
def serialPutc (dev : Device) (c : BitVec 32) (m : Out) : Out :=
  outb comTx (lowByte c) (waitFor dev comLsr comLsrTxrdy 12800 m)

/-- The data port of the parallel port. -/
def lptData : BitVec 16 := 0x378

/-- `lpt_putc(c)`. -/
def lptPutc (dev : Device) (c : BitVec 32) (m : Out) : Out :=
  let m := waitFor dev (lptData + 1) 0x80 12800 m
  let m := outb lptData (lowByte c) m
  let m := outb (lptData + 2) (0x08 ||| 0x04 ||| 0x01) m
  outb (lptData + 2) 0x08 m

/-! ## The display -/

/-- `CRT_ROWS`. -/
def crtRows : Nat := 25

/-- `CRT_COLS`. -/
def crtCols : Nat := 80

/-- `CRT_SIZE`. -/
def crtSize : Nat := crtRows * crtCols

/-- `0x0700 | ' '`. -/
def blank : BitVec 16 := 0x0700 ||| 0x20

/-- `if (!(c & ~0xFF)) c |= 0x0700;` -/
def withAttribute (c : BitVec 32) : BitVec 32 :=
  if c &&& ~~~0xFF = 0 then c ||| 0x0700 else c

/-- The end of `cga_putc` but for the cursor: scroll by one row if `crt_pos` is past
the screen. -/
def scroll (m : Out) : Out :=
  if crtSize ≤ m.crtPos.toNat then
    let m := crtMemmove 0 crtCols (crtSize - crtCols) m
    let m := (List.range' (crtSize - crtCols) crtCols).foldl (fun m i ↦ crtStore i blank m) m
    { m with crtPos := m.crtPos - BitVec.ofNat 16 crtCols }
  else m

/-- Move that little blinky thing. -/
def moveCursor (m : Out) : Out :=
  let addr := m.addr6845.port
  let m := outb addr 14 m
  let m := outb (addr + 1) ((m.crtPos >>> 8).setWidth 8) m
  let m := outb addr 15 m
  outb (addr + 1) (m.crtPos.setWidth 8) m

/-- `crt_pos -= (crt_pos % CRT_COLS);` -/
def carriageReturn (m : Out) : Out :=
  { m with crtPos := m.crtPos - m.crtPos % BitVec.ofNat 16 crtCols }

/-- The cases of the switch in `cga_putc` other than the tab, for a code with an
attribute. -/
def cgaSwitch (c : BitVec 32) (m : Out) : Out :=
  if c &&& 0xFF = 0x08 then
    if m.crtPos = 0 then m
    else
      let m := { m with crtPos := m.crtPos - 1 }
      crtStore m.crtPos.toNat (((c &&& ~~~0xFF) ||| 0x20).setWidth 16) m
  else if c &&& 0xFF = 0x0A then
    carriageReturn { m with crtPos := m.crtPos + BitVec.ofNat 16 crtCols }
  else if c &&& 0xFF = 0x0D then carriageReturn m
  else
    let m := crtStore m.crtPos.toNat (c.setWidth 16) m
    { m with crtPos := m.crtPos + 1 }

/-- The code is a tab. -/
def isTab (c : BitVec 32) : Bool := c &&& 0xFF = 0x09

/-- The attribute does not change the character. -/
theorem withAttribute_and (c : BitVec 32) : withAttribute c &&& 0xFF = c &&& 0xFF := by
  unfold withAttribute
  split_ifs
  · rw [BitVec.and_or_distrib_right]
    simp
  · rfl

theorem isTab_withAttribute (c : BitVec 32) : isTab (withAttribute c) = isTab c := by
  rw [isTab, isTab, withAttribute_and]

/-- A tab calls `cons_putc` with a code that is no tab. -/
theorem isTab_blank_lt {c : BitVec 32} (h : isTab (withAttribute c) = true) :
    2 * (isTab 0x20).toNat + 1 < 2 * (isTab c).toNat := by
  rw [isTab_withAttribute] at h
  rw [h]
  decide

mutual

/-- `cons_putc(c)`. -/
def consPutc (dev : Device) (c : BitVec 32) (m : Out) : Out :=
  cgaPutc dev c (lptPutc dev c (serialPutc dev c m))
termination_by 2 * (isTab c).toNat + 1
decreasing_by omega

/-- `cga_putc(c)`. -/
def cgaPutc (dev : Device) (c : BitVec 32) (m : Out) : Out :=
  let m :=
    if _htab : isTab (withAttribute c) then
      let m := consPutc dev 0x20 m
      let m := consPutc dev 0x20 m
      let m := consPutc dev 0x20 m
      let m := consPutc dev 0x20 m
      consPutc dev 0x20 m
    else cgaSwitch (withAttribute c) m
  moveCursor (scroll m)
termination_by 2 * (isTab c).toNat
decreasing_by all_goals exact isTab_blank_lt _htab

end

/-- `cputchar(c)`. -/
def cputchar (dev : Device) (c : BitVec 32) (m : Out) : Out := consPutc dev c m

/-- A blank screen with the cursor at its start. -/
def blankScreen : Out :=
  { crtBuf := fun _ ↦ blank, crtPos := 0, addr6845 := .cgaBase, reads := 0, log := [] }

end JosKernel.Console
