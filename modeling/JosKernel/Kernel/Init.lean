import JosKernel.Console.Devices
import JosKernel.Kernel.Panic
import JosKernel.Pmap.Address
import JosKernel.Strings.Memset

/-!
# The start of the kernel

`i386_init` clears the BSS, sets up the console, and calls `mem_init`, which finds out how much
memory there is and panics: it is not finished.  So the kernel prints what it has found and
the panic, and is in the monitor for ever (`boot_dialogue`).  That the panic prints anything
rests on the cleared BSS, where `panicstr` is.

## The model

* Nothing of `mem_init` and of `i386_init` follows the panic, which does not return.
-/

namespace JosKernel.Kernel

open Console Printf Monitor
open Pmap (Nvram i386DetectMemory memorySize memoryText memoryArgs MemorySize kilobytes)
open Strings (Asm.memset)

/-! ## The console -/

section

variable (dev : Device)

/-- `"Serial port does not exist!\n"`. -/
def noSerialFormat : CString := .literal "Serial port does not exist!\n"

/-- `cons_init()`, with `serial_exists`. -/
def consInit (fuel : Nat) (d : Display) : Except Stop (Bool × Out) := do
  let m := cgaInit dev d
  let (serialExists, m) := serialInit dev m
  if !serialExists then
    let (_, m) ← cprintf dev fuel noSerialFormat [] m
    return (serialExists, m)
  return (serialExists, m)

end

/-! ## `mem_init` and `i386_init` -/

/-- `"mem_init: This function is not finished\n"`. -/
def memInitFormat : CString := .literal "mem_init: This function is not finished\n"

/-- `__FILE__` in `mem_init`. -/
def pmapFile : List Byte := asciis "kern/pmap.c".toList

/-- `__LINE__` of the panic in `mem_init`. -/
def memInitLine : BitVec 32 := 113

section

variable (dev : Device) (fuel : Nat) (funcs : Functions) (stack : Nat → Argv)
  (static : Nat → Vector Byte bufLen) (nvram : Nvram)

/-- `mem_init()`, where the format of its panic is at `fmtAt`: what is left in `panicstr`, and
how far it gets. -/
def memInit (panicstr fmtAt : BitVec 32) (n : Nat) (polls : List Byte) (m : Out) :
    BitVec 32 × Outcome :=
  match i386DetectMemory dev fuel nvram m with
  | .error stop => (panicstr, .fault (.stop stop))
  | .ok (_, m) =>
      panic dev fuel funcs stack static panicstr pmapFile memInitLine fmtAt memInitFormat [] n
        polls m

/-- `i386_init()`, where `panicstr` is at `panicstrAt`, and `memset` finds the registers `r`. -/
def i386Init (s : Symbols) (panicstrAt fmtAt : BitVec 32) (d : Display) (r : StringRegs) (n : Nat)
    (polls : List Byte) : BitVec 32 × Outcome :=
  let (_, r) := Asm.memset s.edata 0 (s.finish - s.edata) r
  let panicstr := loadInt r.mem panicstrAt
  match consInit dev fuel d with
  | .error stop => (panicstr, .fault (.stop stop))
  | .ok (_, m) => memInit dev fuel funcs stack static nvram panicstr fmtAt n polls m

end

/-! ## What is printed at the start -/

/-- What `cons_init` prints. -/
def serialText (serialExists : Bool) : List Code :=
  if serialExists then [] else codes (asciis "Serial port does not exist!\n".toList)

/-- What `i386_detect_memory` prints. -/
def memoryLine (size : MemorySize) : List Code :=
  codes (asciis "Physical memory: ".toList) ++ (numeral 10 (4 * size.npages.toNat) ++
    (codes (asciis "K available, base = ".toList) ++ (numeral 10 (4 * size.npagesBasemem.toNat) ++
      (codes (asciis "K, extended = ".toList) ++ (numeral 10 (4 * size.npagesExtmem.toNat) ++
        codes (asciis "K\n".toList))))))

/-- The panic of `mem_init`. -/
def memInitPanic : List Code :=
  codes (asciis
    "kernel panic at kern/pmap.c:113: mem_init: This function is not finished\n\n".toList)

section

variable (dev : Device)

theorem consInit_eq {fuel : Nat} (hfuel : enough ≤ fuel) (d : Display) :
    consInit dev fuel d = .ok ((serialInit dev (cgaInit dev d)).1, emit (cputchar dev)
      (serialText (serialInit dev (cgaInit dev d)).1) (serialInit dev (cgaInit dev d)).2) := by
  rw [consInit]
  cases hserial : (serialInit dev (cgaInit dev d)).1 with
  | true => simp only [hserial]; rfl
  | false =>
      have hone : 1 ≤ fuel := le_trans (by decide) hfuel
      simp only [hserial, cprintf_text dev _ (show noSerialFormat.bytes = _ from rfl)
        (by decide) hone]
      rfl

theorem memInit_panic_text :
    reportText (asciis "kernel panic at ".toList) pmapFile memInitLine
        (messageText memInitFormat []) =
      memInitPanic := by
  have hmessage : messageText memInitFormat [] = codes memInitFormat.bytes := by
    rw [messageText, segments_texts (by decide), render_all_texts]
  rw [hmessage]
  decide

/-- `%u` of a word. -/
theorem render_unsigned (w : BitVec 32) (ap : List Arg) :
    (Segment.conv [] (ascii 'u')).render (.word w :: ap) = numeral 10 w.toNat := by
  have hlen := length_numeral_le (show 1 < 10 by decide) (show w.toNat < 2 ^ 64 by omega)
  have hrender : (Segment.conv [] (ascii 'u')).render (.word w :: ap) =
      ({} : Esc).number 10 w.toNat := rfl
  have hwrap : wrap32 (-1 - (numeral 10 w.toNat).length) = -1 - (numeral 10 w.toNat).length :=
    wrap32_of_range (by omega)
  rw [hrender, Esc.number, hwrap, Int.toNat_of_nonpos (by omega)]
  rfl

theorem kilobytes_toNat {n : BitVec 32} (h : n.toNat ≤ 0x40FF) :
    (kilobytes n).toNat = 4 * n.toNat := by
  have hpage : (Pmap.pgSize).toNat = 4096 := rfl
  have hkilo : (1024 : BitVec 32).toNat = 1024 := rfl
  rw [kilobytes, BitVec.toNat_udiv, BitVec.toNat_mul, hpage, hkilo, Nat.mod_eq_of_lt (by omega)]
  omega

/-- The message about the memory, in kilobytes. -/
theorem render_memory (nvram : Nvram) :
    render (segments memoryText) (memoryArgs (memorySize nvram)) =
      memoryLine (memorySize nvram) := by
  have hsegments : segments memoryText = texts (asciis "Physical memory: ".toList) ++
      .conv [] (ascii 'u') :: (texts (asciis "K available, base = ".toList) ++
        .conv [] (ascii 'u') :: (texts (asciis "K, extended = ".toList) ++
          .conv [] (ascii 'u') :: (texts (asciis "K\n".toList) ++ []))) := by decide +kernel
  have hu : (Segment.conv [] (ascii 'u')).demands.length = 1 := rfl
  have hbase := (Pmap.pages_of_nvram_le nvram Pmap.nvramBaselo).trans (show _ ≤ 0x40FF by decide)
  have hext := (Pmap.pages_of_nvram_le nvram Pmap.nvramExtlo).trans (show _ ≤ 0x40FF by decide)
  rw [hsegments, memoryArgs]
  simp only [render, render_texts, hu, List.drop_succ_cons, List.drop_zero, render_unsigned,
    render_all_texts, List.append_nil, kilobytes_toNat (Pmap.npages_le nvram)]
  rw [memoryLine]
  simp only [memorySize] at hbase hext ⊢
  rw [kilobytes_toNat hbase, kilobytes_toNat hext]

/-- The BSS is cleared: what is in it is null. -/
theorem loadInt_bss {s : Symbols} {a : BitVec 32} (hedata : s.edata.toNat ≤ a.toNat)
    (hend : a.toNat + 4 ≤ s.finish.toNat) (r : StringRegs) :
    loadInt (Asm.memset s.edata 0 (s.finish - s.edata) r).2.mem a = 0 := by
  have hzero : ∀ x, (x - a).toNat < 4 →
    (Asm.memset s.edata 0 (s.finish - s.edata) r).2.mem x = 0 := by
    intro x hx
    rw [Strings.Asm.memset_fill, Mem.fill_of_lt (by bv_omega)]
    rfl
  rw [loadInt, hzero a (by bv_omega), hzero (a + 1) (by bv_omega), hzero (a + 2) (by bv_omega),
    hzero (a + 3) (by bv_omega)]
  rfl

/-- What is printed before the monitor. -/
def bootText (serialExists : Bool) (nvram : Nvram) : List Code :=
  serialText serialExists ++ (memoryLine (memorySize nvram) ++ memInitPanic)

/-- `i386_init` gets to the monitor through the panic of `mem_init`. -/
theorem i386Init_eq {fuel : Nat} (hfuel : enough ≤ fuel) {s : Symbols} {panicstrAt : BitVec 32}
    (hedata : s.edata.toNat ≤ panicstrAt.toNat) (hend : panicstrAt.toNat + 4 ≤ s.finish.toNat)
    (funcs : Functions) (stack : Nat → Argv) (static : Nat → Vector Byte bufLen) (nvram : Nvram)
    (fmtAt : BitVec 32) (d : Display) (r : StringRegs) (n : Nat) (polls : List Byte) :
    i386Init dev fuel funcs stack static nvram s panicstrAt fmtAt d r n polls =
      (fmtAt, monitorForever dev fuel funcs stack static n polls (emit (cputchar dev)
        (bootText (serialInit dev (cgaInit dev d)).1 nvram)
        (serialInit dev (cgaInit dev d)).2)) := by
  have hmemory := fun m ↦ Pmap.i386DetectMemory_eq
    (show memoryText.length + 3 ≤ fuel from le_trans (by decide) hfuel) dev nvram m
  have hreportable : Reportable fuel pmapFile memInitFormat [] :=
    { zero_not_mem := by decide
      length_lt := by decide
      sufficient := by
        rw [Sufficient, segments_texts (by decide), texts_demands]
        trivial
      format := le_trans (by decide) hfuel
      enough := hfuel }
  have hpanic := fun m ↦ panic_first dev stack static n polls m hreportable funcs memInitLine fmtAt
  simp only [i386Init, consInit_eq dev hfuel, loadInt_bss hedata hend, memInit, hmemory,
    render_memory, hpanic, memInit_panic_text, bootText, emit_append]

/-- **The start of the kernel.**  Whatever the devices, the NVRAM and the display memory are,
and whatever is typed: the kernel says that there is no serial port if there is none, how much
memory there is and that it panics, and then it is in the monitor for ever. -/
theorem boot_dialogue {fuel steps : Nat} (hfuel : enough ≤ fuel) {k : Image}
    (hfollows : k.Follows steps)
    {panicstrAt : BitVec 32} (hedata : k.symbols.edata.toNat ≤ panicstrAt.toNat)
    (hend : panicstrAt.toNat + 4 ≤ k.symbols.finish.toNat) (stack : Nat → Argv)
    (static : Nat → Vector Byte bufLen) (nvram : Nvram) (fmtAt : BitVec 32) (d : Display)
    (r : StringRegs) (n : Nat) (polls : List Byte) :
    ∃ out, Dialogue k 0 (typedLines (nonzero polls)) out ∧
      i386Init dev fuel (kernelFunctions dev fuel steps k) stack static nvram k.symbols panicstrAt
          fmtAt d r n polls =
        (fmtAt, .waiting (emit (cputchar dev)
          (serialText (serialInit dev (cgaInit dev d)).1 ++ (memoryLine (memorySize nvram) ++
            (memInitPanic ++ (greeting ++ out)))) (serialInit dev (cgaInit dev d)).2)) := by
  obtain ⟨out, hdialogue, hout⟩ := monitorForever_eq dev stack static n polls
    (emit (cputchar dev) (bootText (serialInit dev (cgaInit dev d)).1 nvram)
      (serialInit dev (cgaInit dev d)).2) hfuel hfollows
  refine ⟨out, hdialogue, ?_⟩
  rw [i386Init_eq dev hfuel hedata hend, hout, ← emit_append, bootText]
  simp only [List.append_assoc]

end

/-- Half a megabyte of base memory and 7 of extended memory. -/
def smallNvram : Nvram := fun reg ↦ if reg = 0x16 then 2 else if reg = 0x18 then 28 else 0

/-- Registers at the start, and memory without a zero. -/
def startRegs : StringRegs :=
  { mem := fun _ ↦ 0xFF, edi := 0, esi := 0, ecx := 0, eax := 0, df := true }

theorem sampleImage_boot :
    ∃ out, Dialogue sampleImage 0 [asciis "help".toList, []] out ∧
      i386Init deadDevice enough (kernelFunctions deadDevice enough 2 sampleImage)
          (fun _ ↦ Vector.replicate maxArgs none) (fun _ ↦ Vector.replicate bufLen 0) smallNvram
          sampleImage.symbols 0xF0112940 0xF0101C00 colourDisplay startRegs 0
          (asciis "help\n".toList) =
        (0xF0101C00, .waiting (emit (cputchar deadDevice)
          (serialText true ++ (codes (asciis
            "Physical memory: 8192K available, base = 512K, extended = 7168K\n".toList) ++
              (memInitPanic ++ (greeting ++ out))))
          (serialInit deadDevice (cgaInit deadDevice colourDisplay)).2)) := by
  have hlines : typedLines (nonzero (asciis "help\n".toList)) = [asciis "help".toList, []] := by
    decide
  have hmemory : memoryLine (memorySize smallNvram) =
      codes (asciis
        "Physical memory: 8192K available, base = 512K, extended = 7168K\n".toList) := by
    decide
  have hserial : (serialInit deadDevice (cgaInit deadDevice colourDisplay)).1 = true := by decide
  rw [← hlines, ← hmemory, ← hserial]
  exact boot_dialogue deadDevice (Nat.le_refl enough) (k := sampleImage)
    (fun _ ↦ ⟨_, sampleStack_frames, Nat.lt_succ_self 1⟩) (by decide) (by decide) _ _ smallNvram
    0xF0101C00 colourDisplay startRegs 0 _

end JosKernel.Kernel
