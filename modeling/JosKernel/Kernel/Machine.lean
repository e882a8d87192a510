import JosKernel.Console.Delivery
import JosKernel.Console.Devices
import JosKernel.Console.Typing
import JosKernel.Kernel.Init

/-!
# The machine

The kernel reads a keyboard and writes to a serial port.  Here the parts come together, from
the keys that are pressed to the bytes on the line: `machine_answers`.

## The model

* The console buffer and the variable `shift` are in the BSS, so they start as 0.
* The machine is not reset.
-/

namespace JosKernel.Kernel

open Console Printf Monitor
open Pmap (Nvram)

/-- The keys `es` are pressed at the devices `d`, and nothing comes in at the serial port.
`n + k` polls are enough to read what they send, and the buffer never overruns. -/
structure Pressed (serialExists : Bool) (es : List (KeyEvent Key)) (n k : Nat) (d : Devices) :
    Prop where
  shift : d.keys.shift = 0
  bytes : d.keys.feed.rest = es.flatMap keyBytes
  silent : d.port.rest = []
  keysSoon : d.keys.feed.coming.length < n
  portSoon : d.port.coming.length < n
  enough : (es.flatMap keyBytes).length ≤ k
  fits : Fits serialExists []
    (trace (Devices.drive serialExists) d (List.replicate (n + k) .consGetc)).2

/-- The polls return what the keys type. -/
theorem Pressed.polls {serialExists : Bool} {es : List (KeyEvent Key)} {n k : Nat} {d : Devices}
    (h : Pressed serialExists es n k d) :
    ∃ s d' outs, runs (Devices.step serialExists) (.init, d) (List.replicate (n + k) .consGetc) =
        some ((s, d'), outs) ∧
      d'.keys.resets = d.keys.resets + (trace resetStep .none es).2.sum ∧
      nonzero outs = (trace typeStep .none es).2 := by
  have hbytes : d.keys.feed.rest.length + d.port.rest.length ≤ k := by
    rw [h.bytes, h.silent, List.length_nil, Nat.add_zero]
    exact h.enough
  obtain ⟨-, heard, hreads, hheard⟩ :=
    trace_delivers h.keysSoon h.portSoon hbytes (Prod.mk.eta.symm)
  obtain ⟨s, hrun, -⟩ := runs_fifo h.fits
  obtain ⟨-, htyped, hresets⟩ := tracks_zero.run es
  have hsilent : (if serialExists then nonzero d.port.rest else []) = [] := by
    rw [h.silent]
    exact ite_self []
  have houts := hreads.chars
  rw [hheard, hsilent, h.shift, h.bytes, htyped] at houts
  have hreset := hreads.resets
  rw [h.shift, h.bytes, hresets] at hreset
  exact ⟨s, _, _, by rw [Devices.runs_eq, hrun]; rfl, hreset, houts.eq_left⟩

section

variable (dev : Device) {fuel steps : Nat} {k : Image}

/-- **From the keys to the line.**  Keys are pressed at a keyboard, and their bytes come in
whenever they do.  The kernel starts, reads them and answers: it sends what it prints at the
start and its dialogue on the lines that these keys type, and all of it at 9600 bits per
second. -/
theorem machine_answers (hfuel : enough ≤ fuel) (hfollows : k.Follows steps)
    {panicstrAt : BitVec 32} (hedata : k.symbols.edata.toNat ≤ panicstrAt.toNat)
    (hend : panicstrAt.toNat + 4 ≤ k.symbols.finish.toNat) (stack : Nat → Argv)
    (static : Nat → Vector Byte bufLen) (nvram : Nvram) (fmtAt : BitVec 32) (display : Display)
    (r : StringRegs) (u : Uart) {es : List (KeyEvent Key)}
    (hreset : (trace resetStep .none es).2.sum = 0)
    {n i : Nat} {d : Devices} (h : Pressed (serialInit dev (cgaInit dev display)).1 es n i d) :
    ∃ s d' outs out m,
      runs (Devices.step (serialInit dev (cgaInit dev display)).1) (.init, d)
        (List.replicate (n + i) .consGetc) = some ((s, d'), outs) ∧
      d'.keys.resets = d.keys.resets ∧
      Dialogue k 0 (typedLines (trace typeStep .none es).2) out ∧
      i386Init dev fuel (kernelFunctions dev fuel steps k) stack static nvram k.symbols panicstrAt
        fmtAt display r 0 outs = (fmtAt, .waiting m) ∧
      after Uart.write u m = .ready (u.sent ++
        (bootText (serialInit dev (cgaInit dev display)).1 nvram ++ (greeting ++ out)).flatMap
          portBytes) ∧
      (after Uart.write u m).speed = 9600 := by
  obtain ⟨s, d', outs, hrun, hresets, houts⟩ := h.polls
  rw [hreset, Nat.add_zero] at hresets
  have hstart : Uart.Sent u.sent (after Uart.write u (serialInit dev (cgaInit dev display)).2) := by
    rw [uart_serialInit, uart_cgaInit]
    rfl
  obtain ⟨out, hdialogue, hout⟩ := monitorForever_eq dev stack static 0 outs
    (emit (cputchar dev) (bootText (serialInit dev (cgaInit dev display)).1 nvram)
      (serialInit dev (cgaInit dev display)).2) hfuel hfollows
  have hsent : Uart.Sent _ (after Uart.write u (emit (cputchar dev)
      (bootText (serialInit dev (cgaInit dev display)).1 nvram ++ (greeting ++ out)) _)) :=
    uart_gets.emit hstart _
  rw [houts] at hdialogue
  refine ⟨s, d', outs, out, _, hrun, hresets, hdialogue,
    (i386Init_eq dev hfuel hedata hend _ stack static nvram fmtAt display r 0 outs).trans
      (congrArg (Prod.mk fmtAt) hout), ?_⟩
  rw [← emit_append, hsent]
  exact ⟨rfl, Uart.speed_ready _⟩

end

/-- A plain key. -/
def plainKey (make : Byte) (hlt : make < 0x80) (hne : make ≠ 0x60 ∧ make ≠ 0x61) : Key :=
  { e0 := false, make, make_lt := hlt, make_ne := hne }

/-- The keys of `help`, some of them before the last one is released, and the Enter key. -/
def helpKeys : List (KeyEvent Key) :=
  let h := plainKey 0x23 (by decide) (by decide)
  let e := plainKey 0x12 (by decide) (by decide)
  let l := plainKey 0x26 (by decide) (by decide)
  let p := plainKey 0x19 (by decide) (by decide)
  let enter := plainKey 0x1C (by decide) (by decide)
  [.press h, .press e, .release h, .release e, .press l, .release l, .press p, .release p,
    .press enter]

/-- Their bytes, of which some are there at the start. -/
def helpDevices : Devices where
  keys :=
    { shift := 0
      feed :=
        { flags := 0x14
          waiting := [0x23, 0x12, 0xA3]
          coming := [[], [0x92], [0x26, 0xA6, 0x19], [0x99, 0x1C]] }
      resets := 0 }
  port := { flags := 0x60, waiting := [], coming := [] }

theorem helpKeys_pressed (serialExists : Bool) : Pressed serialExists helpKeys 5 9 helpDevices where
  shift := rfl
  bytes := by decide
  silent := rfl
  keysSoon := by decide
  portSoon := by decide
  enough := by decide
  fits := by cases serialExists <;> decide +kernel

theorem helpKeys_answered :
    ∃ out m, Dialogue sampleImage 0 [asciis "help".toList, []] out ∧
      (∃ outs, i386Init deadDevice enough (kernelFunctions deadDevice enough 2 sampleImage)
        (fun _ ↦ Vector.replicate maxArgs none) (fun _ ↦ Vector.replicate bufLen 0) smallNvram
        sampleImage.symbols 0xF0112940 0xF0101C00 colourDisplay startRegs 0 outs =
          (0xF0101C00, .waiting m)) ∧
      after Uart.write openUart m = .ready ([] ++
        (bootText (serialInit deadDevice (cgaInit deadDevice colourDisplay)).1 smallNvram ++
          (greeting ++ out)).flatMap portBytes) := by
  have hlines : typedLines (trace typeStep .none helpKeys).2 = [asciis "help".toList, []] := by
    decide
  obtain ⟨s, d', outs, out, m, -, -, hdialogue, hwaiting, hsent, -⟩ := machine_answers deadDevice
    (Nat.le_refl enough) (k := sampleImage) (fun _ ↦ ⟨_, sampleStack_frames, Nat.lt_succ_self 1⟩)
    (show sampleImage.symbols.edata.toNat ≤ (0xF0112940 : BitVec 32).toNat by decide) (by decide)
    (fun _ ↦ Vector.replicate maxArgs none)
      (fun _ ↦ Vector.replicate bufLen 0) smallNvram 0xF0101C00
    colourDisplay startRegs openUart (show (trace resetStep .none helpKeys).2.sum = 0 by decide)
    (helpKeys_pressed _)
  rw [hlines] at hdialogue
  exact ⟨out, m, hdialogue, ⟨outs, hwaiting⟩, hsent⟩

end JosKernel.Kernel
