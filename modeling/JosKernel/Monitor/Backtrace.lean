import JosKernel.Kdebug.Names
import JosKernel.Lib.Linked
import JosKernel.Lib.Memory
import JosKernel.Printf.Render

/-!
# `mon_backtrace`

The command `backtrace` follows the saved frame pointers and prints a line for each frame,
with what `debuginfo_eip` says about its return address.  It returns exactly when the frame
pointers end in a null pointer and all return addresses are in the kernel, and then it has
printed the frames of this list (`backtrace_returns_iff`).

## The model

* The stack is memory, which the printing does not change.  The debugging tables are a
  list of entries and the bytes of the string table.
* `%s` of a name reads from the name on to the end of its table.
* The walk takes a number of steps, since the frame pointers need not end.
-/

namespace JosKernel.Monitor

open Console Printf
open Kdebug (Stab EipDebuginfo debuginfoEip Name ulim beforeColon)

/-! ## The code -/

/-- Why `mon_backtrace` does not return. -/
inductive Trap where
  /-- A call of `cprintf` does not return. -/
  | print (s : Stop)
  /-- `debuginfo_eip` does not return. -/
  | debug (fault : Kdebug.Fault)
  /-- The steps are used up. -/
  | steps
deriving DecidableEq, Repr

/-- The bytes that can be read from a name on. -/
def nameBytes (stabstr : List Byte) : Name → List Byte
  | .unknown => Kdebug.unknown
  | .stabstr off => stabstr.drop off.toNat

/-- `"Stack backtrace:\n"`. -/
def stackFormat : CString := .literal "Stack backtrace:\n"

/-- `"  EIP: %08x "`. -/
def eipFormat : CString := .literal "  EIP: %08x "

/-- `"%s:%d: %.*s+%d\t"`. -/
def lineFormat : CString := .literal "%s:%d: %.*s+%d\t"

/-- `"<no debug info>\t"`. -/
def noInfoFormat : CString := .literal "<no debug info>\t"

/-- `"  EBP: %08x "`. -/
def ebpFormat : CString := .literal "  EBP: %08x "

/-- `"  args "`. -/
def argsFormat : CString := .literal "  args "

/-- `"%08x "`. -/
def argFormat : CString := .literal "%08x "

/-- `"\n"`. -/
def newlineFormat : CString := .literal "\n"

section

variable (dev : Device) (fuel : Nat) (stabs : List Stab) (stabstr : List Byte) (mem : Mem)

/-- `cprintf(fmt, ...)`. -/
def print (fmt : CString) (ap : List Arg) (m : Out) : Except Trap Out :=
  match cprintf dev fuel fmt ap m with
  | .error s => .error (.print s)
  | .ok (_, m) => .ok m

/-- `for (; i < nargs; i++) cprintf("%08x ", args[i]);` -/
def argsLoop (args : BitVec 32) (nargs i : Int) (m : Out) : Except Trap Out :=
  if i < nargs then do
    let m ← print dev fuel argFormat [.word (loadInt mem (args + BitVec.ofInt 32 (4 * i)))] m
    argsLoop args nargs (i + 1) m
  else .ok m
termination_by (nargs - i).toNat

/-- What is printed about a return address, and `nargs`. -/
def printInfo (eip : BitVec 32) (m : Out) : Except Trap (Int × Out) :=
  match debuginfoEip stabs stabstr eip with
  | .error fault => .error (.debug fault)
  | .ok (ret, info) =>
      if ret = 0 then do
        let m ← print dev fuel lineFormat [.str (some (nameBytes stabstr info.eipFile)),
          .word (BitVec.ofInt 32 info.eipLine), .word (BitVec.ofInt 32 info.eipFnNamelen),
          .str (some (nameBytes stabstr info.eipFnName)), .word (eip - info.eipFnAddr)] m
        return (info.eipFnNarg, m)
      else do
        let m ← print dev fuel noInfoFormat [] m
        return (6, m)

/-- The body of the loop `while (ebp)`. -/
def printFrame (ebp : BitVec 32) (m : Out) : Except Trap Out := do
  let eip := loadInt mem (ebp + 4)
  let m ← print dev fuel eipFormat [.word eip] m
  let (nargs, m) ← printInfo dev fuel stabs stabstr eip m
  let m ← print dev fuel ebpFormat [.word ebp] m
  let m ← if nargs ≠ 0 then print dev fuel argsFormat [] m else pure m
  let m ← argsLoop dev fuel mem (ebp + 8) nargs 0 m
  print dev fuel newlineFormat [] m

/-- The loop `while (ebp)`. -/
def backtraceLoop : Nat → BitVec 32 → Out → Except Trap Out
  | 0, _, _ => .error .steps
  | steps + 1, ebp, m =>
      if ebp = 0 then .ok m
      else do
        let m ← printFrame dev fuel stabs stabstr mem ebp m
        backtraceLoop steps (loadInt mem ebp) m

/-- `mon_backtrace(argc, argv, tf)`, where `read_ebp` returns `ebp`. -/
def monBacktrace (steps : Nat) (ebp : BitVec 32) (m : Out) : Except Trap (Int × Out) := do
  let m ← print dev fuel stackFormat [] m
  let m ← backtraceLoop dev fuel stabs stabstr mem steps ebp m
  return (0, m)

end

/-! ## What it prints -/

/-- A word as `%08x` prints it. -/
def hex8 (w : BitVec 32) : List Code :=
  padding 0x30 8 (numeral 16 w.toNat).length ++ numeral 16 w.toNat

/-- A word as `%d` prints it. -/
def decimal (w : BitVec 32) : List Code := signedNumeral 10 w.toInt

/-- The text that a name denotes. -/
def nameText (stabstr : List Byte) (name : Name) : List Byte :=
  (nameBytes stabstr name).takeWhile (· ≠ 0)

/-- The line about a return address, and the number of arguments that are shown. -/
def infoText (stabstr : List Byte) (eip : BitVec 32) : Int × EipDebuginfo → List Code × Int
  | (ret, info) =>
      if ret = 0 then
        (signedCodes (nameText stabstr info.eipFile) ++ (codes (asciis ":".toList) ++
          (decimal (BitVec.ofInt 32 info.eipLine) ++ (codes (asciis ": ".toList) ++
            (signedCodes (beforeColon (nameText stabstr info.eipFnName)) ++
              (codes (asciis "+".toList) ++ (decimal (eip - info.eipFnAddr) ++
                codes (asciis "\t".toList))))))), info.eipFnNarg)
      else (codes (asciis "<no debug info>\t".toList), 6)

/-- The argument number `i`, as it is shown. -/
def argText (mem : Mem) (args : BitVec 32) (i : Nat) : List Code :=
  hex8 (loadInt mem (args + BitVec.ofInt 32 (4 * i))) ++ codes (asciis " ".toList)

/-- The line of a frame. -/
def frameText (stabs : List Stab) (stabstr : List Byte) (mem : Mem) (ebp : BitVec 32) : List Code :=
  let eip := loadInt mem (ebp + 4)
  match debuginfoEip stabs stabstr eip with
  | .error _ => []
  | .ok result =>
      let (info, nargs) := infoText stabstr eip result
      codes (asciis "  EIP: ".toList) ++ (hex8 eip ++ (codes (asciis " ".toList) ++ (info ++
        (codes (asciis "  EBP: ".toList) ++ (hex8 ebp ++ (codes (asciis " ".toList) ++
          ((if nargs ≠ 0 then codes (asciis "  args ".toList) else []) ++
            ((List.range nargs.toNat).flatMap (argText mem (ebp + 8)) ++
              codes (asciis "\n".toList)))))))))

/-! ## The calls of `cprintf` -/

/-- `%08x` of a word. -/
theorem render_hex8 (w : BitVec 32) (ap : List Arg) :
    (Segment.conv (asciis "08".toList) (ascii 'x')).render (.word w :: ap) = hex8 w := by
  have hlen := length_numeral_le (show 1 < 16 by decide) (show w.toNat < 2 ^ 64 by omega)
  have hrender : (Segment.conv (asciis "08".toList) (ascii 'x')).render (.word w :: ap) =
      ({ padc := ascii '0', width := 8 } : Esc).number 16 w.toNat := rfl
  have hwrap : wrap32 (8 - (numeral 16 w.toNat).length) = 8 - (numeral 16 w.toNat).length :=
    wrap32_of_range (by omega)
  rw [hrender, Esc.number, hwrap]
  rfl

/-- `%d` of a word. -/
theorem render_decimal (w : BitVec 32) (ap : List Arg) :
    (Segment.conv [] (ascii 'd')).render (.word w :: ap) = decimal w := by
  have hlen := length_numeral_pos 10 w.toInt.natAbs
  have hle := length_numeral_le (show 1 < 10 by decide)
    (show w.toInt.natAbs < 2 ^ 64 by have := w.toInt_lt; have := w.le_toInt; omega)
  have hrender : (Segment.conv [] (ascii 'd')).render (.word w :: ap) =
      sign w.toInt ++ ({} : Esc).number 10 w.toInt.natAbs := rfl
  have hwrap : wrap32 (-1 - (numeral 10 w.toInt.natAbs).length) =
      -1 - (numeral 10 w.toInt.natAbs).length := wrap32_of_range (by omega)
  rw [hrender, Esc.number, hwrap, Int.toNat_of_nonpos (by omega)]
  rfl

section

variable (dev : Device) {fuel : Nat} {fmt : CString} {ap : List Arg}

theorem print_render (hap : Sufficient fmt ap) (hfuel : fmt.bytes.length + 3 ≤ fuel) (m : Out) :
    print dev fuel fmt ap m = .ok (emit (cputchar dev) (render (segments fmt.bytes) ap) m) := by
  rw [print, cprintf_render hap hfuel]

/-- A format that is all text. -/
theorem print_text (htext : ascii '%' ∉ fmt.bytes) (hfuel : fmt.bytes.length + 3 ≤ fuel) (m : Out) :
    print dev fuel fmt [] m = .ok (emit (cputchar dev) (codes fmt.bytes) m) := by
  have hsegments := segments_texts htext
  have hap : Sufficient fmt [] := by
    rw [Sufficient, hsegments, texts_demands]
    trivial
  rw [print_render dev hap hfuel, hsegments, render_all_texts]

/-- A format with one `%08x`. -/
theorem cprintf_hex8 {before after : List Byte}
    (hsegments : segments fmt.bytes =
      texts before ++ .conv (asciis "08".toList) (ascii 'x') :: (texts after ++ []))
    (hfuel : fmt.bytes.length + 3 ≤ fuel) (w : BitVec 32) (m : Out) :
    cprintf dev fuel fmt [.word w] m =
      .ok (0, emit (cputchar dev) (codes before ++ (hex8 w ++ codes after)) m) := by
  have hap : Sufficient fmt [.word w] := by
    rw [Sufficient, hsegments, List.flatMap_append, texts_demands, List.flatMap_cons,
      List.append_nil, texts_demands]
    exact ⟨trivial, trivial⟩
  rw [cprintf_render hap hfuel, hsegments, render_texts, render, render_hex8, render_texts, render,
    List.append_nil]

theorem print_hex8 {before after : List Byte}
    (hsegments : segments fmt.bytes =
      texts before ++ .conv (asciis "08".toList) (ascii 'x') :: (texts after ++ []))
    (hfuel : fmt.bytes.length + 3 ≤ fuel) (w : BitVec 32) (m : Out) :
    print dev fuel fmt [.word w] m =
      .ok (emit (cputchar dev) (codes before ++ (hex8 w ++ codes after)) m) := by
  rw [print, cprintf_hex8 dev hsegments hfuel]

end

/-! ## Frames -/

/-- Debugging tables as the linker makes them: the first entry is no source file, no entry has
the last address for a value, and the names fit into memory. -/
structure Tables where
  stabs : List Stab
  stabstr : List Byte
  head : ¬ Kdebug.HasType stabs Kdebug.nSo 0
  values : ∀ e ∈ stabs, e.nValue ≠ 0xFFFFFFFF
  length_lt : stabstr.length < 2 ^ 31

section

variable (t : Tables) {eip : BitVec 32}

/-- `debuginfo_eip` returns for every address of the kernel. -/
theorem exists_debuginfoEip (hulim : ulim ≤ eip) :
    ∃ result, debuginfoEip t.stabs t.stabstr eip = .ok result := by
  by_cases hstr : t.stabstr.getLast? = some 0
  · rcases Kdebug.debuginfoEip_cases hulim hstr with ⟨hoff | hwraps, -⟩ | ⟨-, -, hres⟩
    · exact absurd hoff.1 t.head
    · exact absurd hwraps (Kdebug.not_wrapsOff t.values)
    · exact hres
  · obtain ⟨info, hearly⟩ := Kdebug.eipRegion_rejected t.stabs hulim hstr
    exact ⟨(-1, info), by rw [debuginfoEip, hearly]; rfl⟩

/-- It panics for all others. -/
theorem debuginfoEip_userAddress (hulim : ¬ ulim ≤ eip) :
    debuginfoEip t.stabs t.stabstr eip = .error .userAddress := by
  simp only [debuginfoEip, Kdebug.eipRegion, if_pos (BitVec.not_le.mp hulim)]
  rfl

variable {t} {name : Name} {text : List Byte}

/-- The bytes of a name are its text and its NUL, and something behind it. -/
theorem nameBytes_of_denotes {stabstr : List Byte} (h : name.Denotes stabstr text) :
    0 ∉ text ∧ ∃ rest, nameBytes stabstr name = text ++ 0 :: rest := by
  cases name with
  | unknown =>
      obtain ⟨hzero, rest, hrest⟩ := h
      exact ⟨hzero, rest, by rw [nameBytes, ← hrest, List.drop_zero]⟩
  | stabstr off => exact h.2

theorem nameText_of_denotes {stabstr : List Byte} (h : name.Denotes stabstr text) :
    nameText stabstr name = text := by
  obtain ⟨hzero, rest, hbytes⟩ := nameBytes_of_denotes h
  rw [nameText, hbytes]
  exact Arg.string_terminated hzero rest

theorem zero_mem_nameBytes {stabstr : List Byte} (h : name.Denotes stabstr text) :
    0 ∈ nameBytes stabstr name := by
  obtain ⟨-, rest, hbytes⟩ := nameBytes_of_denotes h
  rw [hbytes]
  exact List.mem_append_right text List.mem_cons_self

/-- A name is short. -/
theorem length_nameText (t : Tables) (name : Name) :
    (nameText t.stabstr name).length < 2 ^ 31 := by
  have hbefore : nameText t.stabstr name <+: nameBytes t.stabstr name := List.takeWhile_prefix _
  have hle := hbefore.length_le
  have hlt := t.length_lt
  refine hle.trans_lt ?_
  cases name with
  | unknown => exact (by decide : Kdebug.unknown.length < 2 ^ 31)
  | stabstr off =>
      rw [nameBytes, List.length_drop]
      omega

/-- `%s` of a name. -/
theorem render_name (t : Tables) (name : Name) (ap : List Arg) :
    (Segment.conv [] (ascii 's')).render (.str (some (nameBytes t.stabstr name)) :: ap) =
      signedCodes (nameText t.stabstr name) :=
  string_plain (length_nameText t name)

/-- `%.*s` of a name up to its colon. -/
theorem render_beforeColon (t : Tables) (name : Name) (ap : List Arg) :
    (Segment.conv (asciis ".*".toList) (ascii 's')).render
        (.word (BitVec.ofInt 32 (beforeColon (nameText t.stabstr name)).length) ::
          .str (some (nameBytes t.stabstr name)) :: ap) =
      signedCodes (beforeColon (nameText t.stabstr name)) := by
  have hprefix : beforeColon (nameText t.stabstr name) <+: nameText t.stabstr name :=
    List.takeWhile_prefix _
  have hlen := hprefix.length_le
  have hlt := length_nameText t name
  have htake := List.prefix_iff_eq_take.mp hprefix
  have hvalue : (BitVec.ofInt 32 ((beforeColon (nameText t.stabstr name)).length : Int)).toInt =
      (beforeColon (nameText t.stabstr name)).length := by
    rw [BitVec.toInt_ofInt]
    exact wrap32_of_range (by omega)
  have hrender : (Segment.conv (asciis ".*".toList) (ascii 's')).render
      (.word (BitVec.ofInt 32 (beforeColon (nameText t.stabstr name)).length) ::
        .str (some (nameBytes t.stabstr name)) :: ap) =
      ({ width := 0, precision := (BitVec.ofInt 32
        ((beforeColon (nameText t.stabstr name)).length : Int)).toInt } : Esc).string
          (nameText t.stabstr name) := rfl
  rw [hrender, hvalue, string_precision hlen (by omega), ← htake]

/-! ## One frame -/

variable (dev : Device) {fuel : Nat} (m : Out)

theorem lineFormat_segments : segments lineFormat.bytes =
    .conv [] (ascii 's') :: (texts (asciis ":".toList) ++ .conv [] (ascii 'd') ::
      (texts (asciis ": ".toList) ++ .conv (asciis ".*".toList) (ascii 's') ::
        (texts (asciis "+".toList) ++ .conv [] (ascii 'd') ::
          (texts (asciis "\t".toList) ++ [])))) := by
  decide +kernel

/-- Enough fuel for the formats of the kernel, each with fewer than 62 characters. -/
def enough : Nat := 64

theorem print_line (t : Tables) (hfuel : enough ≤ fuel) {file fn : Name} {text text' : List Byte}
    (hfile : file.Denotes t.stabstr text) (hfn : fn.Denotes t.stabstr text')
    (line off : BitVec 32) :
    print dev fuel lineFormat [.str (some (nameBytes t.stabstr file)), .word line,
        .word (BitVec.ofInt 32 (beforeColon (nameText t.stabstr fn)).length),
        .str (some (nameBytes t.stabstr fn)), .word off] m =
      .ok (emit (cputchar dev)
        (signedCodes (nameText t.stabstr file) ++ (codes (asciis ":".toList) ++
          (decimal line ++ (codes (asciis ": ".toList) ++
            (signedCodes (beforeColon (nameText t.stabstr fn)) ++ (codes (asciis "+".toList) ++
              (decimal off ++ codes (asciis "\t".toList)))))))) m) := by
  have hap : Sufficient lineFormat [.str (some (nameBytes t.stabstr file)), .word line,
      .word (BitVec.ofInt 32 (beforeColon (nameText t.stabstr fn)).length),
      .str (some (nameBytes t.stabstr fn)), .word off] := by
    have hdemands : (segments lineFormat.bytes).flatMap Segment.demands =
        [.str, .word, .word, .str, .word] := by decide +kernel
    rw [Sufficient, hdemands]
    refine ⟨?_, trivial, trivial, ?_, trivial, trivial⟩
    · rintro bs ⟨⟩
      exact zero_mem_nameBytes hfile
    · rintro bs ⟨⟩
      exact zero_mem_nameBytes hfn
  have hlen : lineFormat.bytes.length + 3 ≤ fuel := le_trans (by decide) hfuel
  have hs : (Segment.conv [] (ascii 's')).demands.length = 1 := rfl
  have hd : (Segment.conv [] (ascii 'd')).demands.length = 1 := rfl
  have hstar : (Segment.conv (asciis ".*".toList) (ascii 's')).demands.length = 2 := rfl
  rw [print_render dev hap hlen, lineFormat_segments]
  simp only [render, render_texts, hs, hd, hstar, List.drop_succ_cons, List.drop_zero, render_name,
    render_decimal, render_beforeColon]
  rw [List.append_nil]

theorem eipFormat_segments : segments eipFormat.bytes = texts (asciis "  EIP: ".toList) ++
    .conv (asciis "08".toList) (ascii 'x') :: (texts (asciis " ".toList) ++ []) := by decide +kernel

theorem ebpFormat_segments : segments ebpFormat.bytes = texts (asciis "  EBP: ".toList) ++
    .conv (asciis "08".toList) (ascii 'x') :: (texts (asciis " ".toList) ++ []) := by decide +kernel

theorem argFormat_segments : segments argFormat.bytes = texts [] ++
    .conv (asciis "08".toList) (ascii 'x') :: (texts (asciis " ".toList) ++ []) := by decide +kernel

/-- What is printed about a return address. -/
theorem printInfo_ok (t : Tables) (hfuel : enough ≤ fuel) {result : Int × EipDebuginfo}
    (hresult : debuginfoEip t.stabs t.stabstr eip = .ok result) :
    printInfo dev fuel t.stabs t.stabstr eip m = .ok ((infoText t.stabstr eip result).2,
      emit (cputchar dev) (infoText t.stabstr eip result).1 m) := by
  obtain ⟨ret, info⟩ := result
  rw [printInfo, hresult]
  obtain ⟨⟨fn, hfn, hlen⟩, ⟨rfl, -⟩ | ⟨rfl, hstr, lfile, L, -, hnamed⟩⟩ :=
    Kdebug.debuginfoEip_names_of_ok hresult
  · have hprint : print dev fuel noInfoFormat [] m = _ :=
      print_text dev (by decide) (le_trans (by decide) hfuel) m
    simp only [infoText, hprint]
    rfl
  · obtain ⟨file, hfile⟩ := hnamed.exists_denotes hstr
    rw [← nameText_of_denotes hfn] at hlen
    have hprint := print_line dev m t hfuel hfile hfn (BitVec.ofInt 32 info.eipLine)
      (eip - info.eipFnAddr)
    simp only [infoText, hlen, hprint]
    rfl

/-- The arguments that are shown. -/
theorem argsLoop_ok (mem : Mem) (hfuel : enough ≤ fuel) (args : BitVec 32) {nargs : Int} {k : Nat}
    {i : Nat} (hk : (nargs - i).toNat = k) (m : Out) :
    argsLoop dev fuel mem args nargs i m =
      .ok (emit (cputchar dev) ((List.range' i k).flatMap (argText mem args)) m) := by
  induction k generalizing i m with
  | zero =>
      rw [argsLoop, if_neg (by omega)]
      rfl
  | succ k ih =>
      have hprint := print_hex8 dev argFormat_segments (le_trans (by decide) hfuel)
        (loadInt mem (args + BitVec.ofInt 32 (4 * i))) m
      have hrest := ih (show (nargs - (i + 1 : Nat)).toNat = k by omega)
      rw [Nat.cast_succ] at hrest
      rw [argsLoop, if_pos (by omega), hprint, Result.ok_bind, List.range'_succ, List.flatMap_cons,
        emit_append (argText mem args i)]
      exact hrest _

theorem printFrame_ok (t : Tables) (mem : Mem) (hfuel : enough ≤ fuel) {ebp : BitVec 32}
    (hulim : ulim ≤ loadInt mem (ebp + 4)) (m : Out) :
    printFrame dev fuel t.stabs t.stabstr mem ebp m =
      .ok (emit (cputchar dev) (frameText t.stabs t.stabstr mem ebp) m) := by
  obtain ⟨result, hresult⟩ := exists_debuginfoEip t hulim
  have hinfo := fun m ↦ printInfo_ok dev m t hfuel hresult
  have heip := print_hex8 dev eipFormat_segments (le_trans (by decide) hfuel)
    (loadInt mem (ebp + 4))
  have hebp := print_hex8 dev ebpFormat_segments (le_trans (by decide) hfuel) ebp
  have hargs : ∀ m, print dev fuel argsFormat [] m = _ :=
    print_text dev (by decide) (le_trans (by decide) hfuel)
  have hline : ∀ m, print dev fuel newlineFormat [] m = _ :=
    print_text dev (by decide) (le_trans (by decide) hfuel)
  simp only [printFrame, frameText, hresult, heip, Result.ok_bind, hinfo, hebp]
  generalize (infoText t.stabstr (loadInt mem (ebp + 4)) result).1 = info
  generalize (infoText t.stabstr (loadInt mem (ebp + 4)) result).2 = nargs
  have hloop := fun m ↦ argsLoop_ok dev mem hfuel (ebp + 8) (rfl : (nargs - (0 : Nat)).toNat = _) m
  simp only [Nat.cast_zero, Int.sub_zero, ← List.range_eq_range'] at hloop
  split_ifs with hnargs
  · simp only [hargs, Result.ok_bind, hloop, hline, emit_append]
    rfl
  · simp only [Result.pure_eq_ok, Result.ok_bind, hloop, hline, emit_append]
    rfl

/-! ## All frames -/

/-- A frame pointer; 0 is null. -/
def pointer (a : BitVec 32) : Option (BitVec 32) := if a = 0 then none else some a

/-- The saved frame pointers. -/
def savedPointers (mem : Mem) : Links Empty (BitVec 32)
  | .link a => pointer (loadInt mem a)

/-- The frames from `ebp` on end in a null pointer, and all of them return to the kernel. -/
structure Frames (mem : Mem) (ebp : BitVec 32) (frames : List (BitVec 32)) : Prop where
  linked : Linked (savedPointers mem) (pointer ebp) frames none
  kernel : ∀ a ∈ frames, ulim ≤ loadInt mem (a + 4)

theorem frames_zero (mem : Mem) (frames : List (BitVec 32)) :
    Frames mem 0 frames ↔ frames = [] := by
  constructor
  · intro h
    exact h.linked.unique (show Linked (savedPointers mem) (pointer 0) [] none from rfl)
  · rintro rfl
    exact ⟨rfl, by simp⟩

theorem frames_cons {mem : Mem} {ebp : BitVec 32} (hebp : ebp ≠ 0) (frames : List (BitVec 32)) :
    Frames mem ebp frames ↔ ulim ≤ loadInt mem (ebp + 4) ∧
      ∃ rest, frames = ebp :: rest ∧ Frames mem (loadInt mem ebp) rest := by
  have hpointer : pointer ebp = some ebp := if_neg hebp
  constructor
  · rintro ⟨hlinked, hkernel⟩
    rw [hpointer] at hlinked
    cases frames with
    | nil => cases hlinked
    | cons a rest =>
        obtain ⟨ha, hrest⟩ := hlinked
        cases ha
        obtain ⟨hhead, htail⟩ := List.forall_mem_cons.mp hkernel
        exact ⟨hhead, rest, rfl, hrest, htail⟩
  · rintro ⟨hhead, rest, rfl, hrest⟩
    exact ⟨⟨hpointer, hrest.linked⟩, List.forall_mem_cons.mpr ⟨hhead, hrest.kernel⟩⟩

/-- A frame that does not return to the kernel makes `debuginfo_eip` panic. -/
theorem printFrame_user (t : Tables) (mem : Mem) (hfuel : enough ≤ fuel) {ebp : BitVec 32}
    (hulim : ¬ ulim ≤ loadInt mem (ebp + 4)) :
    printFrame dev fuel t.stabs t.stabstr mem ebp m = .error (.debug .userAddress) := by
  have heip := print_hex8 dev eipFormat_segments (le_trans (by decide) hfuel)
    (loadInt mem (ebp + 4)) m
  simp only [printFrame, heip, Result.ok_bind, printInfo, debuginfoEip_userAddress t hulim]
  rfl

theorem backtraceLoop_ok_iff (t : Tables) (mem : Mem) (hfuel : enough ≤ fuel) {steps : Nat}
    {ebp : BitVec 32} {m m' : Out} :
    backtraceLoop dev fuel t.stabs t.stabstr mem steps ebp m = .ok m' ↔
      ∃ frames, Frames mem ebp frames ∧ frames.length < steps ∧
        m' = emit (cputchar dev) (frames.flatMap (frameText t.stabs t.stabstr mem)) m := by
  induction steps generalizing ebp m with
  | zero => simp [backtraceLoop]
  | succ steps ih =>
      rw [backtraceLoop]
      by_cases hebp : ebp = 0
      · subst hebp
        simp only [if_true, frames_zero, exists_eq_left, List.flatMap_nil, emit_nil,
          List.length_nil, Nat.zero_lt_succ, true_and, Except.ok.injEq, eq_comm]
      rw [if_neg hebp]
      by_cases hulim : ulim ≤ loadInt mem (ebp + 4)
      · rw [printFrame_ok dev t mem hfuel hulim, Result.ok_bind, ih]
        constructor
        · rintro ⟨rest, hrest, hlen, rfl⟩
          refine ⟨ebp :: rest, (frames_cons hebp _).mpr ⟨hulim, rest, rfl, hrest⟩,
            Nat.succ_lt_succ hlen, ?_⟩
          rw [List.flatMap_cons, emit_append]
        · rintro ⟨frames, hframes, hlen, rfl⟩
          obtain ⟨-, rest, rfl, hrest⟩ := (frames_cons hebp _).mp hframes
          refine ⟨rest, hrest, Nat.lt_of_succ_lt_succ hlen, ?_⟩
          rw [List.flatMap_cons, emit_append]
      · rw [printFrame_user dev m t mem hfuel hulim, Result.error_bind]
        refine iff_of_false (by simp) ?_
        rintro ⟨frames, hframes, -⟩
        exact hulim ((frames_cons hebp _).mp hframes).1

/-- **The backtrace.**  `mon_backtrace` returns, with 0 and after some steps, exactly when the
frame pointers end in a null pointer and all return addresses are in the kernel.  Then it has
printed its heading and a line for each of these frames, from the innermost one on, and they
are all different. -/
theorem backtrace_returns_iff (t : Tables) (mem : Mem) (hfuel : enough ≤ fuel) (ebp : BitVec 32)
    (r : Int) (m' : Out) :
    (∃ steps, monBacktrace dev fuel t.stabs t.stabstr mem steps ebp m = .ok (r, m')) ↔
      r = 0 ∧ ∃ frames, Frames mem ebp frames ∧ frames.Nodup ∧
        m' = emit (cputchar dev) (codes (asciis "Stack backtrace:\n".toList) ++
          frames.flatMap (frameText t.stabs t.stabstr mem)) m := by
  have hstack : print dev fuel stackFormat [] m = _ :=
    print_text dev (by decide) (le_trans (by decide) hfuel) m
  simp only [monBacktrace, hstack, Result.ok_bind]
  constructor
  · rintro ⟨steps, h⟩
    obtain ⟨m₁, hloop, h⟩ := Result.bind_eq_ok.mp h
    cases h
    obtain ⟨frames, hframes, -, rfl⟩ := (backtraceLoop_ok_iff dev t mem hfuel).mp hloop
    exact ⟨rfl, frames, hframes, hframes.linked.nodup, by rw [emit_append]; rfl⟩
  · rintro ⟨rfl, frames, hframes, -, rfl⟩
    have hloop := (backtraceLoop_ok_iff dev t mem hfuel
      (m := emit (cputchar dev) (codes stackFormat.bytes) m)).mpr
        ⟨frames, hframes, Nat.lt_succ_self _, rfl⟩
    exact ⟨frames.length + 1, by rw [hloop, emit_append]; rfl⟩

end

/-- The table of one function, and its strings. -/
def sampleTables : Tables where
  stabs := Kdebug.twoLines
  stabstr := Kdebug.oneFileStrings
  head := by decide
  values := by decide
  length_lt := by decide

/-- A stack of one frame. -/
def sampleStack : Mem := Mem.storeAll (fun _ ↦ 0) 0xF010FFF0 [0, 0, 0, 0, 0x02, 0x00, 0x10, 0xF0]

theorem sampleStack_frames : Frames sampleStack 0xF010FFF0 [0xF010FFF0] := by
  have hend : savedPointers sampleStack (.link 0xF010FFF0) = none := by decide
  have hkernel : ulim ≤ loadInt sampleStack (0xF010FFF0 + 4) := by decide
  exact ⟨⟨rfl, hend⟩, List.forall_mem_singleton.mpr hkernel⟩

theorem sampleStack_returns :
    ∃ steps, monBacktrace deadDevice enough sampleTables.stabs sampleTables.stabstr sampleStack
        steps 0xF010FFF0 blankScreen =
      .ok (0, emit (cputchar deadDevice) (codes (asciis "Stack backtrace:\n".toList) ++
        frameText sampleTables.stabs sampleTables.stabstr sampleStack 0xF010FFF0) blankScreen) := by
  refine (backtrace_returns_iff deadDevice blankScreen sampleTables sampleStack (Nat.le_refl enough)
    0xF010FFF0 0 _).mpr ⟨rfl, _, sampleStack_frames, sampleStack_frames.linked.nodup, ?_⟩
  rw [List.flatMap_singleton]

end JosKernel.Monitor
