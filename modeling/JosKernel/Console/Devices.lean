import JosKernel.Console.Init
import JosKernel.Console.Ports
import JosKernel.Lib.Emit
import JosKernel.Lib.Registers
import Mathlib.Data.List.Induction

/-!
# The devices of the console

What the console does to its devices is in the log, port by port.  Here the devices are what
they are, machines that hear what is written to their ports: the serial port with its latch
for the speed, the printer with its strobe, and the controller of the display with its cursor.

## The model

* A device hears the writes to its ports, in their order.
* The serial port takes each byte that is written to it for transmission, also if it is not
  ready for it, and the printer prints what is at its data port when the strobe comes on.
-/

namespace JosKernel.Console

universe u

/-! ## Hearing the log -/

section

variable {σ : Type u}

/-- What a device makes of an event. -/
def hear (write : BitVec 16 → Byte → σ → σ) (s : σ) : IoEvent → σ
  | .outb p b => write p b s
  | _ => s

/-- A device after all that has been done. -/
def after (write : BitVec 16 → Byte → σ → σ) (s : σ) (m : Out) : σ := m.log.foldl (hear write) s

variable {write : BitVec 16 → Byte → σ → σ} {s : σ} {dev : Device} {m : Out} {c : BitVec 32}

@[simp] theorem after_outb {p : BitVec 16} {b : Byte} :
    after write s (outb p b m) = write p b (after write s m) := by
  simp [after, outb, hear]

@[simp] theorem after_inb {p : BitVec 16} : after write s (inb dev p m).2 = after write s m := rfl

@[simp] theorem after_crtStore {i : Nat} {v : BitVec 16} :
    after write s (crtStore i v m) = after write s m := by
  simp [after, crtStore, hear]

@[simp] theorem after_crtMemmove {dst src n : Nat} :
    after write s (crtMemmove dst src n m) = after write s m := by
  simp [after, crtMemmove, hear]

@[simp] theorem after_crtPos {pos : BitVec 16} :
    after write s { m with crtPos := pos } = after write s m := rfl

@[simp] theorem after_delay : after write s (delay dev m) = after write s m := rfl

@[simp] theorem after_waitFor {q : BitVec 16} {mask : Byte} {n : Nat} :
    after write s (waitFor dev q mask n m) = after write s m := by
  induction n generalizing m with
  | zero => rfl
  | succ n ih =>
      simp only [waitFor]
      split_ifs
      · rw [ih, after_delay, after_inb]
      · rfl

@[simp] theorem after_scroll : after write s (scroll m) = after write s m := by
  unfold scroll
  split_ifs
  · rw [after_crtPos]
    generalize List.range' (crtSize - crtCols) crtCols = is
    have hstores : ∀ m : Out,
        after write s (is.foldl (fun m i ↦ crtStore i blank m) m) = after write s m := by
      induction is with
      | nil => exact fun m ↦ rfl
      | cons i is ih => exact fun m ↦ by rw [List.foldl_cons, ih, after_crtStore]
    rw [hstores, after_crtMemmove]
  · rfl

@[simp] theorem after_cgaSwitch : after write s (cgaSwitch c m) = after write s m := by
  unfold cgaSwitch
  split_ifs
  · rfl
  · simp
  · rfl
  · rfl
  · simp

end

/-! ## Devices that get the characters -/

/-- A device that gets each character through its data port: `P bs` holds of it when it has
got the bytes `bs`. -/
structure Gets {σ : Type u} (write : BitVec 16 → Byte → σ → σ) (P : List Byte → σ → Prop) :
    Prop where
  ports : ∀ (dev : Device) (m : Out) (c : BitVec 32) (s : σ) (bs : List Byte),
    P bs (after write s m) →
    P (bs ++ [lowByte c]) (after write s (lptPutc dev c (serialPutc dev c m)))
  moveCursor : ∀ (m : Out) (s : σ), after write s (moveCursor m) = after write s m

section

variable {σ : Type u} {write : BitVec 16 → Byte → σ → σ} {P : List Byte → σ → Prop} {s : σ}
  {dev : Device} {m : Out} {c : BitVec 32} {bs : List Byte}

theorem Gets.consPutc_of_not_tab (hgets : Gets write P) (h : P bs (after write s m))
    (htab : isTab c = false) : P (bs ++ [lowByte c]) (after write s (consPutc dev c m)) := by
  rw [consPutc, cgaPutc]
  simp only [isTab_withAttribute, htab, Bool.false_eq_true, dif_neg, not_false_eq_true]
  rw [hgets.moveCursor, after_scroll, after_cgaSwitch]
  exact hgets.ports dev m c s bs h

/-- The device gets a character, and a tab with its blanks. -/
theorem Gets.cputchar (hgets : Gets write P) (h : P bs (after write s m)) :
    P (bs ++ portBytes c) (after write s (cputchar dev c m)) := by
  rw [Console.cputchar]
  cases htab : isTab c
  · rw [portBytes_of_not_tab htab]
    exact hgets.consPutc_of_not_tab h htab
  · have hblank : ∀ (m : Out) (bs : List Byte), P bs (after write s m) →
        P (bs ++ [0x20]) (after write s (consPutc dev 0x20 m)) :=
      fun m bs h ↦ hgets.consPutc_of_not_tab (c := 0x20) h (by decide)
    have hfive := hblank _ _
      (hblank _ _ (hblank _ _ (hblank _ _ (hblank _ _ (hgets.ports dev m c s bs h)))))
    rw [consPutc, cgaPutc]
    simp only [isTab_withAttribute, htab, dif_pos]
    rw [hgets.moveCursor, after_scroll, portBytes_of_tab htab]
    simpa only [List.append_assoc, List.cons_append, List.nil_append] using hfive

theorem Gets.emit (hgets : Gets write P) (h : P bs (after write s m)) (cs : List (BitVec 32)) :
    P (bs ++ cs.flatMap portBytes) (after write s (emit (Console.cputchar dev) cs m)) := by
  induction cs generalizing m bs with
  | nil => rwa [List.flatMap_nil, List.append_nil]
  | cons c cs ih =>
      rw [emit_cons, List.flatMap_cons, ← List.append_assoc]
      exact ih (hgets.cputchar h)

end

/-! ## The serial port -/

/-- The serial port. -/
structure Uart where
  /-- The line control register. -/
  lcr : Byte
  /-- The interrupt enable register. -/
  ier : Byte
  /-- The FIFO control register. -/
  fcr : Byte
  /-- The modem control register. -/
  mcr : Byte
  /-- The low byte of the divisor latch. -/
  dll : Byte
  /-- The high byte of the divisor latch. -/
  dlm : Byte
  /-- The bytes that have been transmitted. -/
  sent : List Byte
deriving DecidableEq, Repr

namespace Uart

/-- `COM_LCR_DLAB` is set: the first two ports are the divisor latch. -/
def dlab (u : Uart) : Bool := u.lcr &&& 0x80 ≠ 0

/-- A write to a port. -/
def write (port : BitVec 16) (b : Byte) (u : Uart) : Uart :=
  if port = com1 then if u.dlab then { u with dll := b } else { u with sent := u.sent ++ [b] }
  else if port = com1 + 1 then if u.dlab then { u with dlm := b } else { u with ier := b }
  else if port = com1 + 2 then { u with fcr := b }
  else if port = com1 + 3 then { u with lcr := b }
  else if port = com1 + 4 then { u with mcr := b }
  else u

/-- The speed in bits per second. -/
def speed (u : Uart) : Nat := 115200 / (u.dlm ++ u.dll).toNat

/-- The serial port as `serial_init` leaves it. -/
def ready (sent : List Byte) : Uart :=
  { lcr := 0x03, ier := 0x01, fcr := 0, mcr := 0, dll := 12, dlm := 0, sent }

theorem write_ready (sent : List Byte) (b : Byte) :
    (ready sent).write comTx b = ready (sent ++ [b]) := by
  have hdlab : (ready sent).dlab = false := by simp [dlab, ready]
  have hport : comTx = com1 := rfl
  rw [write, if_pos hport, hdlab]
  rfl

theorem speed_ready (sent : List Byte) : (ready sent).speed = 9600 := by
  simp [speed, ready]

/-- The ports that it listens to. -/
def ports : List (BitVec 16) := [com1, com1 + 1, com1 + 2, com1 + 3, com1 + 4]

/-- Other ports are none of its business. -/
theorem write_of_notMem {port : BitVec 16} (h : port ∉ ports) (b : Byte) (u : Uart) :
    u.write port b = u := by
  simp only [ports, List.mem_cons, List.not_mem_nil, or_false, not_or] at h
  obtain ⟨h0, h1, h2, h3, h4⟩ := h
  rw [write, if_neg h0, if_neg h1, if_neg h2, if_neg h3, if_neg h4]

/-- The display controller has other ports. -/
theorem ports_controller (a : Addr6845) : ∀ q ∈ ports, q ≠ a.port ∧ q ≠ a.port + 1 := by
  simp only [ports, List.forall_mem_cons, List.not_mem_nil, IsEmpty.forall_iff, implies_true,
    and_true]
  cases a <;> decide

end Uart

section

variable {dev : Device} {m : Out} {c : BitVec 32} {u : Uart}

theorem uart_lptPutc : after Uart.write u (lptPutc dev c m) = after Uart.write u m := by
  simp only [lptPutc, after_outb, after_waitFor]
  rw [Uart.write_of_notMem (by decide), Uart.write_of_notMem (by decide),
    Uart.write_of_notMem (by decide)]

theorem uart_moveCursor : after Uart.write u (moveCursor m) = after Uart.write u m := by
  have hindex : m.addr6845.port ∉ Uart.ports := fun h ↦
    (Uart.ports_controller m.addr6845 _ h).1 rfl
  have hdata : m.addr6845.port + 1 ∉ Uart.ports := fun h ↦
    (Uart.ports_controller m.addr6845 _ h).2 rfl
  simp only [moveCursor, after_outb, Uart.write_of_notMem hindex, Uart.write_of_notMem hdata]

/-- The serial port is ready, and has sent some bytes. -/
def Uart.Sent (bs : List Byte) (u : Uart) : Prop := u = .ready bs

theorem uart_gets : Gets Uart.write Uart.Sent where
  ports dev m c u bs h := by
    rw [uart_lptPutc, serialPutc, after_outb, after_waitFor, h, Uart.write_ready]
    rfl
  moveCursor m u := uart_moveCursor

/-- `cga_init` writes to the index port of the display controller. -/
theorem after_cgaInit {σ : Type u} {write : BitVec 16 → Byte → σ → σ} (dev : Device) (d : Display)
    (s : σ) : after write s (cgaInit dev d) =
      write (cgaInit dev d).addr6845.port 15 (write (cgaInit dev d).addr6845.port 14 s) := by
  unfold cgaInit
  split_ifs <;> rfl

/-- `serial_init` writes to the serial port only. -/
theorem after_serialInit {σ : Type u} {write : BitVec 16 → Byte → σ → σ}
    (h : ∀ q ∈ Uart.ports, ∀ b s, write q b s = s) (m : Out) (s : σ) :
    after write s (serialInit dev m).2 = after write s m := by
  simp only [Uart.ports, List.forall_mem_cons] at h
  obtain ⟨h0, h1, h2, h3, h4, -⟩ := h
  have hzero : com1 + 0 = com1 := rfl
  simp only [serialInit, after_inb, after_outb, hzero, h0, h1, h2, h3, h4]

/-- `serial_init` makes the serial port ready, whatever it was. -/
theorem uart_serialInit (dev : Device) (m : Out) (u : Uart) :
    after Uart.write u (serialInit dev m).2 = .ready (after Uart.write u m).sent := by
  simp only [serialInit, after_inb, after_outb]
  simp [Uart.write, com1, Uart.dlab, Uart.ready]

end

/-! ## The printer -/

/-- A printer. -/
structure Printer where
  /-- What is at its data port. -/
  data : Byte
  /-- The control register; its lowest bit is the strobe. -/
  control : Byte
  /-- The bytes that have been printed. -/
  printed : List Byte
deriving DecidableEq, Repr

namespace Printer

/-- The strobe is on. -/
def strobe (p : Printer) : Prop := p.control &&& 1 ≠ 0

instance (p : Printer) : Decidable p.strobe := inferInstanceAs (Decidable (_ ≠ _))

/-- A write to a port. -/
def write (port : BitVec 16) (b : Byte) (p : Printer) : Printer :=
  if port = lptData then { p with data := b }
  else if port = lptData + 2 then
    { p with
      control := b
      printed := if b &&& 1 ≠ 0 ∧ ¬ p.strobe then p.printed ++ [p.data] else p.printed }
  else p

theorem write_of_ne {port : BitVec 16} (hdata : port ≠ lptData) (hcontrol : port ≠ lptData + 2)
    (b : Byte) (p : Printer) : p.write port b = p := by
  rw [write, if_neg hdata, if_neg hcontrol]

/-- A byte is put to the data port, and the strobe goes on and off. -/
theorem write_byte {p : Printer} (h : ¬ p.strobe) (b : Byte) :
    ((p.write lptData b).write (lptData + 2) (0x08 ||| 0x04 ||| 0x01)).write (lptData + 2) 0x08 =
      { data := b, control := 0x08, printed := p.printed ++ [b] } := by
  have hcontrol : lptData + 2 ≠ lptData := by decide
  have hdata : p.write lptData b = { p with data := b } := if_pos rfl
  have hon : ({ p with data := b } : Printer).write (lptData + 2) (0x08 ||| 0x04 ||| 0x01) =
      { data := b, control := 0x08 ||| 0x04 ||| 0x01, printed := p.printed ++ [b] } := by
    rw [write, if_neg hcontrol, if_pos rfl, if_pos ⟨by decide, h⟩]
  have hoff : ¬ ((0x08 : Byte) &&& 1 ≠ 0) := by decide
  rw [hdata, hon, write, if_neg hcontrol, if_pos rfl, if_neg fun h ↦ hoff h.1]

/-- The printer has printed some bytes, and the strobe is off. -/
structure Printed (bs : List Byte) (p : Printer) : Prop where
  printed : p.printed = bs
  strobe : ¬ p.strobe

end Printer

theorem printer_gets : Gets Printer.write Printer.Printed where
  ports dev m c p bs h := by
    obtain ⟨rfl, hstrobe⟩ := h
    simp only [lptPutc, serialPutc, after_outb, after_waitFor]
    rw [Printer.write_of_ne (show comTx ≠ lptData by decide) (by decide),
      Printer.write_byte hstrobe]
    exact ⟨rfl, (by decide : ¬ ((0x08 : Byte) &&& 1 ≠ 0))⟩
  moveCursor m p := by
    have hindex : m.addr6845.port ≠ lptData ∧ m.addr6845.port ≠ lptData + 2 := by
      cases m.addr6845 <;> decide
    have hdata : m.addr6845.port + 1 ≠ lptData ∧ m.addr6845.port + 1 ≠ lptData + 2 := by
      cases m.addr6845 <;> decide
    simp only [moveCursor, after_outb, Printer.write_of_ne hindex.1 hindex.2,
      Printer.write_of_ne hdata.1 hdata.2]

/-! ## The display controller -/

/-- The registers 14 and 15 hold the cursor. -/
structure HoldsCursor (m : Out) (r : Registers) : Prop where
  high : r.value 14 = (m.crtPos >>> 8).setWidth 8
  low : r.value 15 = m.crtPos.setWidth 8

/-- The display controller of an output after all that has been done. -/
def controller (r : Registers) (m : Out) : Registers := after (Registers.write m.addr6845.port) r m

section

variable {dev : Device} {m : Out} {r : Registers}

/-- That little blinky thing has been moved. -/
theorem holdsCursor_moveCursor (m : Out) (r : Registers) :
    HoldsCursor (moveCursor m) (controller r (moveCursor m)) := by
  have hcontroller : controller r (moveCursor m) =
      ((controller r m).set m.addr6845.port 14 ((m.crtPos >>> 8).setWidth 8)).set m.addr6845.port 15
        (m.crtPos.setWidth 8) := by
    simp only [controller, moveCursor, after_outb, Registers.set]
    rfl
  rw [hcontroller]
  constructor
  · rw [Registers.value_set_of_ne (by decide), Registers.value_set]
    rfl
  · rw [Registers.value_set]
    rfl

/-- A character leaves the cursor where it is. -/
theorem holdsCursor_cputchar (c : BitVec 32) (m : Out) (r : Registers) :
    HoldsCursor (cputchar dev c m) (controller r (cputchar dev c m)) := by
  rw [cputchar, consPutc, cgaPutc]
  exact holdsCursor_moveCursor _ r

theorem holdsCursor_emit (h : HoldsCursor m (controller r m)) (cs : List (BitVec 32)) :
    HoldsCursor (emit (cputchar dev) cs m) (controller r (emit (cputchar dev) cs m)) := by
  induction cs using List.reverseRecOn with
  | nil => exact h
  | append_singleton cs c =>
      rw [emit_append]
      exact holdsCursor_cputchar c _ r

/-- What the ports return to `cga_init` is the cursor of the controller. -/
def ReadsCursor (dev : Device) (d : Display) (r : Registers) : Prop :=
  dev 0 ((cgaInit dev d).addr6845.port + 1) = r.value 14 ∧
    dev 1 ((cgaInit dev d).addr6845.port + 1) = r.value 15

theorem cgaInit_crtPos {d : Display} (h : ReadsCursor dev d r) :
    (cgaInit dev d).crtPos = (r.value 14).setWidth 16 <<< 8 ||| (r.value 15).setWidth 16 := by
  rw [← h.1, ← h.2]
  unfold cgaInit
  split_ifs <;> rfl

/-- A word of its bytes. -/
theorem high_of_bytes (high low : Byte) :
    ((high.setWidth 16 <<< 8 ||| low.setWidth 16) >>> 8).setWidth 8 = high := by
  ext i hi
  simp
  grind

theorem low_of_bytes (high low : Byte) :
    (high.setWidth 16 <<< 8 ||| low.setWidth 16).setWidth 8 = low := by
  ext i hi
  simp

theorem bytes_of_word (w : BitVec 16) :
    ((w >>> 8).setWidth 8).setWidth 16 <<< 8 ||| (w.setWidth 8).setWidth 16 = w := by
  ext i hi
  simp
  grind

/-- The output code starts where the cursor is. -/
theorem holdsCursor_cgaInit {d : Display} (h : ReadsCursor dev d r) :
    HoldsCursor (cgaInit dev d) (controller r (cgaInit dev d)) := by
  have hvalue : (controller r (cgaInit dev d)).value = r.value := by
    rw [controller, after_cgaInit, Registers.write_index, Registers.write_index]
  constructor
  · rw [hvalue, cgaInit_crtPos h, high_of_bytes]
  · rw [hvalue, cgaInit_crtPos h, low_of_bytes]

theorem addr6845_outb (p : BitVec 16) (b : Byte) (m : Out) : (outb p b m).addr6845 = m.addr6845 :=
  rfl

theorem addr6845_inb (p : BitVec 16) (m : Out) : (inb dev p m).2.addr6845 = m.addr6845 := rfl

theorem addr6845_serialInit (m : Out) : (serialInit dev m).2.addr6845 = m.addr6845 := by
  simp only [serialInit, addr6845_inb, addr6845_outb]

/-- `serial_init` has nothing to do with it. -/
theorem controller_serialInit (m : Out) (r : Registers) :
    controller r (serialInit dev m).2 = controller r m := by
  rw [controller, addr6845_serialInit]
  refine after_serialInit (fun q hq b r ↦ ?_) m r
  obtain ⟨hindex, hdata⟩ := Uart.ports_controller m.addr6845 q hq
  exact Registers.write_of_ne hindex hdata

/-- **The cursor.**  If `cga_init` reads the cursor of the display controller, then the controller
holds the position where the next character goes, at first and after any characters, and
another `cga_init` finds it there. -/
theorem controller_follows {d : Display} (h : ReadsCursor dev d r) (cs : List (BitVec 32)) :
    let m := emit (cputchar dev) cs (serialInit dev (cgaInit dev d)).2
    HoldsCursor m (controller r m) ∧
      ∀ dev' d', ReadsCursor dev' d' (controller r m) → (cgaInit dev' d').crtPos = m.crtPos := by
  intro m
  have hstart : HoldsCursor (serialInit dev (cgaInit dev d)).2
      (controller r (serialInit dev (cgaInit dev d)).2) := by
    rw [controller_serialInit]
    exact ⟨(holdsCursor_cgaInit h).high, (holdsCursor_cgaInit h).low⟩
  have hholds : HoldsCursor m (controller r m) := holdsCursor_emit hstart cs
  refine ⟨hholds, fun dev' d' h' ↦ ?_⟩
  rw [cgaInit_crtPos h', hholds.high, hholds.low, bytes_of_word]

end

/-- The ports of the display controller are not those of the printer. -/
theorem printer_cgaInit (dev : Device) (d : Display) (p : Printer) :
    after Printer.write p (cgaInit dev d) = p := by
  have hport : (cgaInit dev d).addr6845.port ≠ lptData ∧
    (cgaInit dev d).addr6845.port ≠ lptData + 2 := by
    cases (cgaInit dev d).addr6845 <;> decide
  rw [after_cgaInit, Printer.write_of_ne hport.1 hport.2, Printer.write_of_ne hport.1 hport.2]

theorem printer_serialInit (dev : Device) (m : Out) (p : Printer) :
    after Printer.write p (serialInit dev m).2 = after Printer.write p m := by
  have hports : ∀ q ∈ Uart.ports, q ≠ lptData ∧ q ≠ lptData + 2 := by
    simp only [Uart.ports, List.forall_mem_cons, List.not_mem_nil, IsEmpty.forall_iff, implies_true,
      and_true]
    decide
  refine after_serialInit (fun q hq b p ↦ ?_) m p
  exact Printer.write_of_ne (hports q hq).1 (hports q hq).2 b p

theorem uart_cgaInit (dev : Device) (d : Display) (u : Uart) :
    after Uart.write u (cgaInit dev d) = u := by
  have hport : (cgaInit dev d).addr6845.port ∉ Uart.ports := fun h ↦
    (Uart.ports_controller (cgaInit dev d).addr6845 _ h).1 rfl
  rw [after_cgaInit, Uart.write_of_notMem hport, Uart.write_of_notMem hport]

/-- **The serial port and the printer.**  Whatever the serial port was doing, after
`serial_init` it sends all that the console puts out, at 9600 bits per second and with the
same settings for ever, and the printer prints it. -/
theorem serial_and_printer {p : Printer} (hstrobe : ¬ p.strobe) (dev : Device) (d : Display)
    (u : Uart) (cs : List (BitVec 32)) :
    let m := emit (cputchar dev) cs (serialInit dev (cgaInit dev d)).2
    after Uart.write u m = .ready (u.sent ++ cs.flatMap portBytes) ∧
      (after Uart.write u m).speed = 9600 ∧
      (after Printer.write p m).printed = p.printed ++ cs.flatMap portBytes := by
  intro m
  have hready : Uart.Sent u.sent (after Uart.write u (serialInit dev (cgaInit dev d)).2) := by
    rw [uart_serialInit, uart_cgaInit]
    rfl
  have hprinter : p.Printed p.printed := ⟨rfl, hstrobe⟩
  have hstart : Printer.Printed p.printed
    (after Printer.write p (serialInit dev (cgaInit dev d)).2) := by
    rw [printer_serialInit, printer_cgaInit]
    exact hprinter
  have hsent : after Uart.write u m = .ready (u.sent ++ cs.flatMap portBytes) :=
    uart_gets.emit hready cs
  exact ⟨hsent, by rw [hsent, Uart.speed_ready], (printer_gets.emit hstart cs).printed⟩

/-- A display in colour, with nothing on it. -/
def colourDisplay : Display := { readBack := 0xA55A, cgaBuf := fun _ ↦ blank, monoBuf := fun _ ↦ 0 }

/-- The cursor is at the start of the fifth row. -/
def fifthRow : Registers :=
  { index := 0, value := fun i ↦ if i = 14 then 1 else if i = 15 then 0x40 else 0 }

/-- The ports return this cursor first. -/
def fifthRowDevice : Device := fun n _ ↦ if n = 0 then 1 else if n = 1 then 0x40 else 0x20

theorem fifthRow_follows :
    HoldsCursor (emit (cputchar fifthRowDevice) [0x48, 0x0A]
        (serialInit fifthRowDevice (cgaInit fifthRowDevice colourDisplay)).2)
      (controller fifthRow (emit (cputchar fifthRowDevice) [0x48, 0x0A]
        (serialInit fifthRowDevice (cgaInit fifthRowDevice colourDisplay)).2)) :=
  (controller_follows (show ReadsCursor fifthRowDevice colourDisplay fifthRow from ⟨rfl, rfl⟩)
    [0x48, 0x0A]).1

/-- A serial port whose latch is open, and a printer. -/
def openUart : Uart := { lcr := 0x83, ier := 0, fcr := 1, mcr := 0, dll := 1, dlm := 0, sent := [] }

def idlePrinter : Printer := { data := 0, control := 0x0C, printed := [] }

theorem openUart_sends :
    after Uart.write openUart (emit (cputchar fifthRowDevice) [0x48, 0x09, 0x0A]
        (serialInit fifthRowDevice (cgaInit fifthRowDevice colourDisplay)).2) =
      .ready [0x48, 0x09, 0x20, 0x20, 0x20, 0x20, 0x20, 0x0A] :=
  (serial_and_printer (p := idlePrinter) (by decide) fifthRowDevice colourDisplay openUart
    [0x48, 0x09, 0x0A]).1

end JosKernel.Console
