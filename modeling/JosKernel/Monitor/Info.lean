import JosKernel.Monitor.Backtrace
import JosKernel.Monitor.Session
import JosKernel.Pmap.Address

/-!
# The commands of the kernel

The commands `help` and `kerninfo` print a fixed number of lines and return 0, and so does
`backtrace` on a stack that it can follow.  So nothing that is typed makes the monitor return
(`kernel_never_returns`), and if `backtrace` can follow its stacks, the whole output of the
monitor is a function of what is typed and of these stacks (`kernel_dialogue`).

## The model

* The linker gives the addresses of the symbols, and the debugging tables.
* Each call of a command finds its own stack: memory and the frame pointer are any functions
  of the invocation.
* A backtrace that panics, or that does not end in the steps that it has, does not return.
-/

namespace JosKernel.Monitor

open Console Printf
open Kdebug (Stab ulim)
open Pmap (kernBase roundUp roundUp_toNat)

/-! ## `help` -/

/-- `"%s - %s\n"`. -/
def helpFormat : CString := .literal "%s - %s\n"

/-- `desc` of each command. -/
def commandDescs : List (List Byte) :=
  [asciis "Display this list of commands".toList,
    asciis "Display information about the kernel".toList,
    asciis "Display stack backtrace".toList]

section

variable (dev : Device) (fuel : Nat)

/-- The loop of `mon_help` over names and descriptions. -/
def helpLoop : List (List Byte × List Byte) → Out → Except Stop Out
  | [], m => .ok m
  | (name, desc) :: commands, m => do
      let (_, m) ← cprintf dev fuel helpFormat
        [.str (some (name ++ [0])), .str (some (desc ++ [0]))] m
      helpLoop commands m

/-- `mon_help(argc, argv, tf)`. -/
def monHelp : Func := fun _ m ↦ do
  let m ← helpLoop dev fuel (commandNames.zip commandDescs) m
  return (0, m)

end

/-! ## `kerninfo` -/

/-- The symbols of the linker that `mon_kerninfo` shows. -/
structure Symbols where
  /-- `_start`. -/
  start : BitVec 32
  entry : BitVec 32
  etext : BitVec 32
  edata : BitVec 32
  /-- `end`. -/
  finish : BitVec 32
deriving DecidableEq, Repr

/-- `ROUNDUP(end - entry, 1024) / 1024`; the difference is an `int`. -/
def footprint (s : Symbols) : BitVec 32 := (roundUp (s.finish - s.entry) 1024).sdiv 1024

/-- `"Special kernel symbols:\n"`. -/
def specialFormat : CString := .literal "Special kernel symbols:\n"

/-- `"  _start                  %08x (phys)\n"`. -/
def startFormat : CString := .literal "  _start                  %08x (phys)\n"

/-- `"  entry  %08x (virt)  %08x (phys)\n"`. -/
def entryFormat : CString := .literal "  entry  %08x (virt)  %08x (phys)\n"

/-- `"  etext  %08x (virt)  %08x (phys)\n"`. -/
def etextFormat : CString := .literal "  etext  %08x (virt)  %08x (phys)\n"

/-- `"  edata  %08x (virt)  %08x (phys)\n"`. -/
def edataFormat : CString := .literal "  edata  %08x (virt)  %08x (phys)\n"

/-- `"  end    %08x (virt)  %08x (phys)\n"`. -/
def endFormat : CString := .literal "  end    %08x (virt)  %08x (phys)\n"

/-- `"Kernel executable memory footprint: %dKB\n"`. -/
def footprintFormat : CString := .literal "Kernel executable memory footprint: %dKB\n"

/-- `mon_kerninfo(argc, argv, tf)`. -/
def monKerninfo (dev : Device) (fuel : Nat) (s : Symbols) : Func := fun _ m ↦ do
  let (_, m) ← cprintf dev fuel specialFormat [] m
  let (_, m) ← cprintf dev fuel startFormat [.word s.start] m
  let (_, m) ← cprintf dev fuel entryFormat [.word s.entry, .word (s.entry - kernBase)] m
  let (_, m) ← cprintf dev fuel etextFormat [.word s.etext, .word (s.etext - kernBase)] m
  let (_, m) ← cprintf dev fuel edataFormat [.word s.edata, .word (s.edata - kernBase)] m
  let (_, m) ← cprintf dev fuel endFormat [.word s.finish, .word (s.finish - kernBase)] m
  let (_, m) ← cprintf dev fuel footprintFormat [.word (footprint s)] m
  return (0, m)

/-! ## What they print -/

/-- A line of `help`. -/
def commandText (entry : List Byte × List Byte) : List Code :=
  signedCodes entry.1 ++ (codes (asciis " - ".toList) ++
    (signedCodes entry.2 ++ codes (asciis "\n".toList)))

/-- The output of `help`. -/
def helpText : List Code := (commandNames.zip commandDescs).flatMap commandText

/-- A symbol, as `kerninfo` shows it: with the physical address that it is loaded at. -/
def symbolText (name : List Byte) (s : BitVec 32) : List Code :=
  codes name ++ (hex8 s ++ (codes (asciis " (virt)  ".toList) ++
    (hex8 (s - kernBase) ++ codes (asciis " (phys)\n".toList))))

/-- The output of `kerninfo`. -/
def kerninfoText (s : Symbols) : List Code :=
  codes (asciis "Special kernel symbols:\n".toList) ++
    (codes (asciis "  _start                  ".toList) ++ (hex8 s.start ++
      codes (asciis " (phys)\n".toList)) ++
    (symbolText (asciis "  entry  ".toList) s.entry ++
      (symbolText (asciis "  etext  ".toList) s.etext ++
        (symbolText (asciis "  edata  ".toList) s.edata ++
          (symbolText (asciis "  end    ".toList) s.finish ++
            (codes (asciis "Kernel executable memory footprint: ".toList) ++
              (decimal (footprint s) ++ codes (asciis "KB\n".toList))))))))

section

variable (dev : Device) {fuel : Nat} {fmt : CString} (m : Out)

theorem helpFormat_segments : segments helpFormat.bytes =
    .conv [] (ascii 's') :: (texts (asciis " - ".toList) ++ .conv [] (ascii 's') ::
      (texts (asciis "\n".toList) ++ [])) := by
  decide +kernel

/-- `%s` of a string of the kernel. -/
theorem render_terminated {t : List Byte} (hzero : 0 ∉ t) (hlen : t.length < 2 ^ 31)
    (ap : List Arg) :
    (Segment.conv [] (ascii 's')).render (.str (some (t ++ [0])) :: ap) = signedCodes t :=
  (congrArg ({} : Esc).string (Arg.string_terminated hzero [])).trans (string_plain hlen)

/-- An entry of the table whose strings can be printed. -/
def Printable (entry : List Byte × List Byte) : Prop :=
  (0 ∉ entry.1 ∧ entry.1.length < 2 ^ 31) ∧ 0 ∉ entry.2 ∧ entry.2.length < 2 ^ 31

theorem table_printable : ∀ entry ∈ commandNames.zip commandDescs, Printable entry := by
  unfold Printable
  decide

theorem cprintf_help (hfuel : enough ≤ fuel) {name desc : List Byte} (h : Printable (name, desc)) :
    cprintf dev fuel helpFormat [.str (some (name ++ [0])), .str (some (desc ++ [0]))] m =
      .ok (0, emit (cputchar dev) (commandText (name, desc)) m) := by
  obtain ⟨⟨hname, hnamelen⟩, hdesc, hdesclen⟩ := h
  have hap : Sufficient helpFormat [.str (some (name ++ [0])), .str (some (desc ++ [0]))] := by
    have hdemands : (segments helpFormat.bytes).flatMap Segment.demands = [.str, .str] := by
      decide +kernel
    rw [Sufficient, hdemands]
    exact ⟨by rintro _ ⟨⟩; simp, by rintro _ ⟨⟩; simp, trivial⟩
  have hs : (Segment.conv [] (ascii 's')).demands.length = 1 := rfl
  rw [cprintf_render hap (le_trans (by decide) hfuel), helpFormat_segments]
  simp only [render, render_texts, hs, List.drop_succ_cons, List.drop_zero, render_all_texts,
    render_terminated hname hnamelen, render_terminated hdesc hdesclen, List.append_nil]
  rfl

theorem helpLoop_eq (hfuel : enough ≤ fuel) {table : List (List Byte × List Byte)}
    (htable : ∀ entry ∈ table, Printable entry) (m : Out) :
    helpLoop dev fuel table m = .ok (emit (cputchar dev) (table.flatMap commandText) m) := by
  induction table generalizing m with
  | nil => rfl
  | cons entry table ih =>
      obtain ⟨hentry, htable⟩ := List.forall_mem_cons.mp htable
      rw [helpLoop, cprintf_help dev m hfuel hentry, Result.ok_bind, List.flatMap_cons, emit_append]
      exact ih htable _

/-- `help` prints the table. -/
theorem monHelp_eq (hfuel : enough ≤ fuel) (inv : Invocation) :
    monHelp dev fuel inv m = .ok (0, emit (cputchar dev) helpText m) := by
  rw [monHelp, helpLoop_eq dev hfuel table_printable]
  rfl

/-- The format of the line of a symbol. -/
def symbolSegments (name : List Byte) : List Segment :=
  texts name ++ .conv (asciis "08".toList) (ascii 'x') ::
    (texts (asciis " (virt)  ".toList) ++ .conv (asciis "08".toList) (ascii 'x') ::
      (texts (asciis " (phys)\n".toList) ++ []))

theorem cprintf_symbol {name : List Byte} (hsegments : segments fmt.bytes = symbolSegments name)
    (hfuel : fmt.bytes.length + 3 ≤ fuel) (s : BitVec 32) :
    cprintf dev fuel fmt [.word s, .word (s - kernBase)] m =
      .ok (0, emit (cputchar dev) (symbolText name s) m) := by
  have hx : (Segment.conv (asciis "08".toList) (ascii 'x')).demands = [.word] := rfl
  have hap : Sufficient fmt [.word s, .word (s - kernBase)] := by
    rw [Sufficient, hsegments, symbolSegments]
    simp only [List.flatMap_append, List.flatMap_cons, texts_demands, hx, List.flatMap_nil]
    exact ⟨trivial, trivial, trivial⟩
  rw [cprintf_render hap hfuel, hsegments, symbolSegments]
  simp only [render, render_texts, hx, List.length_singleton, List.drop_succ_cons, List.drop_zero,
    render_hex8, render_all_texts, List.append_nil]
  rfl

theorem startFormat_segments : segments startFormat.bytes =
    texts (asciis "  _start                  ".toList) ++ .conv (asciis "08".toList) (ascii 'x') ::
      (texts (asciis " (phys)\n".toList) ++ []) := by
  decide +kernel

theorem cprintf_footprint (hfuel : enough ≤ fuel) (size : BitVec 32) :
    cprintf dev fuel footprintFormat [.word size] m = .ok (0, emit (cputchar dev)
      (codes (asciis "Kernel executable memory footprint: ".toList) ++
        (decimal size ++ codes (asciis "KB\n".toList))) m) := by
  have hsegments : segments footprintFormat.bytes =
      texts (asciis "Kernel executable memory footprint: ".toList) ++ .conv [] (ascii 'd') ::
        (texts (asciis "KB\n".toList) ++ []) := by decide +kernel
  have hd : (Segment.conv [] (ascii 'd')).demands = [.word] := rfl
  have hap : Sufficient footprintFormat [.word size] := by
    rw [Sufficient, hsegments]
    simp only [List.flatMap_append, List.flatMap_cons, texts_demands, hd, List.flatMap_nil]
    exact ⟨trivial, trivial⟩
  rw [cprintf_render hap (le_trans (by decide) hfuel), hsegments]
  simp only [render, render_texts, hd, List.length_singleton, List.drop_succ_cons, List.drop_zero,
    render_decimal, render_all_texts, List.append_nil]

/-- `kerninfo` prints the symbols. -/
theorem monKerninfo_eq (hfuel : enough ≤ fuel) (s : Symbols) (inv : Invocation) :
    monKerninfo dev fuel s inv m = .ok (0, emit (cputchar dev) (kerninfoText s) m) := by
  have hspecial := cprintf_text dev m (show specialFormat.bytes = _ from rfl) (by decide)
    (show 1 ≤ fuel from le_trans (by decide) hfuel)
  have hstart := fun m ↦ cprintf_hex8 dev startFormat_segments
    (le_trans (by decide) hfuel) s.start m
  have hentry := fun m ↦ cprintf_symbol dev m
    (show segments entryFormat.bytes = symbolSegments (asciis "  entry  ".toList) by decide +kernel)
    (le_trans (by decide) hfuel) s.entry
  have hetext := fun m ↦ cprintf_symbol dev m
    (show segments etextFormat.bytes = symbolSegments (asciis "  etext  ".toList) by decide +kernel)
    (le_trans (by decide) hfuel) s.etext
  have hedata := fun m ↦ cprintf_symbol dev m
    (show segments edataFormat.bytes = symbolSegments (asciis "  edata  ".toList) by decide +kernel)
    (le_trans (by decide) hfuel) s.edata
  have hend := fun m ↦ cprintf_symbol dev m
    (show segments endFormat.bytes = symbolSegments (asciis "  end    ".toList) by decide +kernel)
    (le_trans (by decide) hfuel) s.finish
  have hfootprint := fun m ↦ cprintf_footprint dev m hfuel (footprint s)
  simp only [monKerninfo, hspecial, Result.ok_bind, hstart, hentry, hetext, hedata, hend,
    hfootprint, kerninfoText, emit_append]
  rfl

end

/-- `kerninfo` rounds the size of the kernel up to whole kilobytes. -/
theorem footprint_toInt {s : Symbols} (hle : s.entry ≤ s.finish)
    (hlt : s.finish.toNat - s.entry.toNat + 1023 < 2 ^ 31) :
    (footprint s).toInt = (s.finish.toNat - s.entry.toNat + 1023) / 1024 := by
  have hsub : (s.finish - s.entry).toNat = s.finish.toNat - s.entry.toNat :=
    BitVec.toNat_sub_of_le hle
  have hkilo : (1024 : BitVec 32).toNat = 1024 := rfl
  have hround := roundUp_toNat (a := s.finish - s.entry) (n := 1024) (by decide) (by omega)
  rw [hsub, hkilo] at hround
  have hle' := BitVec.le_def.mp hle
  have hint : (roundUp (s.finish - s.entry) 1024).toInt =
    (roundUp (s.finish - s.entry) 1024).toNat :=
    BitVec.toInt_eq_toNat_of_lt (by omega)
  rw [footprint, BitVec.toInt_sdiv_of_ne_or_ne _ _ (.inr (by decide)), hint, hround]
  have hkilo' : (1024 : BitVec 32).toInt = 1024 := rfl
  rw [hkilo', Int.tdiv_eq_ediv_of_nonneg (by omega)]
  omega

/-! ## The commands -/

/-- What the commands find: the tables and the symbols of the linker, and at each call the
memory of the stack and the frame pointer. -/
structure Image where
  tables : Tables
  symbols : Symbols
  mem : Invocation → Mem
  ebp : Invocation → BitVec 32

/-- A call of a command that does not return. -/
def Trap.toStop : Trap → Stop
  | .print s => s
  | .debug _ => .fuel
  | .steps => .fuel

/-- The commands, with any debugging tables. -/
def commandFunctions (dev : Device) (fuel steps : Nat) (stabs : List Stab) (stabstr : List Byte)
    (symbols : Symbols) (mem : Invocation → Mem) (ebp : Invocation → BitVec 32) : Functions where
  monHelp := monHelp dev fuel
  monKerninfo := monKerninfo dev fuel symbols
  monBacktrace inv m :=
    (monBacktrace dev fuel stabs stabstr (mem inv) steps (ebp inv) m).mapError Trap.toStop

/-- The commands of the kernel. -/
def kernelFunctions (dev : Device) (fuel steps : Nat) (k : Image) : Functions :=
  commandFunctions dev fuel steps k.tables.stabs k.tables.stabstr k.symbols k.mem k.ebp

/-- The output of `backtrace` for some frames. -/
def backtraceText (k : Image) (inv : Invocation) (frames : List (BitVec 32)) : List Code :=
  codes (asciis "Stack backtrace:\n".toList) ++
    frames.flatMap (frameText k.tables.stabs k.tables.stabstr (k.mem inv))

/-- What returns, returns 0. -/
def ZeroIfReturns {ε : Type} (x : Except ε (Int × Out)) : Prop := ∀ r m, x = .ok (r, m) → r = 0

section

variable {ε ε' α : Type}

theorem ZeroIfReturns.zero (m : Out) : ZeroIfReturns (.ok (0, m) : Except ε (Int × Out)) := by
  rintro r m ⟨⟩
  rfl

theorem ZeroIfReturns.bind {x : Except ε α} {f : α → Except ε (Int × Out)}
    (hf : ∀ a, ZeroIfReturns (f a)) : ZeroIfReturns (x >>= f) := by
  intro r m h
  obtain ⟨a, -, h⟩ := Result.bind_eq_ok.mp h
  exact hf a r m h

theorem ZeroIfReturns.mapError {x : Except ε (Int × Out)} (h : ZeroIfReturns x) (f : ε → ε') :
    ZeroIfReturns (x.mapError f) := by
  intro r m hx
  cases x with
  | error e => cases hx
  | ok p =>
      cases hx
      exact h r m rfl

end

/-- What the monitor of the kernel answers to some words. -/
inductive Answers (k : Image) (tf : BitVec 32) (ws : List (List Byte)) : List Code → Prop
  | refuse {text : List Code} (hrefusal : refusal ws = some text) : Answers k tf ws text
  | help (hcalled : refusal ws = none) (hname : ws.head? = some (asciis "help".toList)) :
      Answers k tf ws helpText
  | kerninfo (hcalled : refusal ws = none) (hname : ws.head? = some (asciis "kerninfo".toList)) :
      Answers k tf ws (kerninfoText k.symbols)
  | backtrace (hcalled : refusal ws = none) (hname : ws.head? = some (asciis "backtrace".toList))
      {inv : Invocation} (hpasses : inv.Passes ws tf) {frames : List (BitVec 32)}
      (hframes : Frames (k.mem inv) (k.ebp inv) frames) :
      Answers k tf ws (backtraceText k inv frames)

/-- The output of the monitor of the kernel while some lines are typed, of which the last is
not finished. -/
inductive Dialogue (k : Image) (tf : BitVec 32) : List (List Byte) → List Code → Prop
  | last (cs : List Byte) : Dialogue k tf [cs] (promptCodes ++ echoes [] cs)
  | line {cs next : List Byte} {lines : List (List Byte)} {text rest : List Code}
      (hanswers : Answers k tf (typedWords cs) text) (hrest : Dialogue k tf (next :: lines) rest) :
      Dialogue k tf (cs :: next :: lines) (shownLine cs ++ (text ++ rest))

section

variable {dev : Device} {fuel steps : Nat} {stabs : List Stab} {stabstr : List Byte}
  {symbols : Symbols} {mem : Invocation → Mem} {ebp : Invocation → BitVec 32} {tf : BitVec 32}

/-- A command of the kernel that returns returns 0. -/
theorem commandFunctions_zero {command : Command}
    (hmem : command ∈ commands (commandFunctions dev fuel steps stabs stabstr symbols mem ebp))
    (inv : Invocation) (m : Out) : ZeroIfReturns (command.func inv m) := by
  simp only [commands, List.mem_cons, List.not_mem_nil, or_false] at hmem
  rcases hmem with rfl | rfl | rfl
  · exact .bind fun m ↦ .zero m
  · exact .bind fun _ ↦ .bind fun _ ↦ .bind fun _ ↦ .bind fun _ ↦ .bind fun _ ↦ .bind fun _ ↦
      .bind fun p ↦ .zero p.2
  · have hzero : ZeroIfReturns (monBacktrace dev fuel stabs stabstr (mem inv) steps (ebp inv) m) :=
      .bind fun _ ↦ .bind fun m ↦ .zero m
    exact hzero.mapError Trap.toStop

/-- No line makes the monitor return. -/
theorem Session.not_returned {lines : List (List Byte)} {m m' : Out} {n : Nat} {polls : List Byte}
    (h : Session dev (commandFunctions dev fuel steps stabs stabstr symbols mem ebp) tf lines m
      (.returned n polls m')) : False := by
  generalize ho : Outcome.returned n polls m' = o at h
  induction h with
  | wait => cases ho
  | refuse _ _ ih => exact ih ho
  | call _ _ _ _ ih => exact ih ho
  | exit hcalls hreturns hr =>
      have hzero := commandFunctions_zero hcalls.mem _ _ _ _ hreturns
      omega
  | stop => cases ho

/-- **Nothing that is typed makes the monitor of the kernel return**, whatever the stacks and
the debugging tables hold, and however far its commands get. -/
theorem kernel_never_returns (hfuel : 2 ≤ fuel) (stack : Nat → Argv)
    (static : Nat → Vector Byte bufLen) (n : Nat) (polls : List Byte) (m : Out) (n' : Nat)
    (polls' : List Byte) (m' : Out) :
    monitor dev fuel (commandFunctions dev fuel steps stabs stabstr symbols mem ebp) stack static tf
        n polls m ≠ .returned n' polls' m' := fun h ↦ by
  have hsession : Session dev (commandFunctions dev fuel steps stabs stabstr symbols mem ebp) tf
      (typedLines (nonzero polls)) (emit (cputchar dev) greeting m)
      (monitorLoop dev fuel _ stack static tf n polls _) := monitorLoop_session hfuel n polls _
  rw [← monitor_eq hfuel, h] at hsession
  exact hsession.not_returned

end

section

variable {dev : Device} {fuel steps : Nat} {k : Image} {tf : BitVec 32}

/-- `backtrace` can follow the stack of each of its calls. -/
def Image.Follows (k : Image) (steps : Nat) : Prop :=
  ∀ inv, ∃ frames, Frames (k.mem inv) (k.ebp inv) frames ∧ frames.length < steps

theorem monBacktrace_eq (dev : Device) (hfuel : enough ≤ fuel) (hfollows : k.Follows steps)
    (inv : Invocation) (m : Out) :
    ∃ frames, Frames (k.mem inv) (k.ebp inv) frames ∧
      (kernelFunctions dev fuel steps k).monBacktrace inv m =
        .ok (0, emit (cputchar dev) (backtraceText k inv frames) m) := by
  obtain ⟨frames, hframes, hlen⟩ := hfollows inv
  refine ⟨frames, hframes, ?_⟩
  have hstack := print_text dev (show ascii '%' ∉ stackFormat.bytes by decide)
    (show stackFormat.bytes.length + 3 ≤ fuel from le_trans (by decide) hfuel) m
  have hloop := (backtraceLoop_ok_iff dev k.tables (k.mem inv) hfuel
    (m := emit (cputchar dev) (codes stackFormat.bytes) m)).mpr ⟨frames, hframes, hlen, rfl⟩
  simp only [kernelFunctions, commandFunctions, monBacktrace, hstack, Result.ok_bind, hloop,
    backtraceText, emit_append]
  rfl

/-- A command that is called returns 0, with an answer. -/
theorem Calls.answers (hfuel : enough ≤ fuel) (hfollows : k.Follows steps) {cs : List Byte}
    {command : Command} {inv : Invocation}
    (h : Calls (kernelFunctions dev fuel steps k) tf cs command inv) (m : Out) :
    ∃ text, Answers k tf (typedWords cs) text ∧
      command.func inv m = .ok (0, emit (cputchar dev) text m) := by
  have hcalled := h.refusal_eq_none
  obtain ⟨hmem, hname, hpasses⟩ := h
  simp only [commands, List.mem_cons, List.not_mem_nil, or_false] at hmem
  rcases hmem with rfl | rfl | rfl
  · exact ⟨_, .help hcalled hname, monHelp_eq dev m hfuel inv⟩
  · exact ⟨_, .kerninfo hcalled hname, monKerninfo_eq dev m hfuel k.symbols inv⟩
  · obtain ⟨frames, hframes, heq⟩ := monBacktrace_eq dev hfuel hfollows inv m
    exact ⟨_, .backtrace hcalled hname hpasses hframes, heq⟩

/-- The dialogue with the commands of the kernel goes on until the monitor waits. -/
theorem Session.dialogue (hfuel : enough ≤ fuel) (hfollows : k.Follows steps)
    {lines : List (List Byte)} {m : Out} {o : Outcome}
    (h : Session dev (kernelFunctions dev fuel steps k) tf lines m o) :
    ∃ out, Dialogue k tf lines out ∧ o = .waiting (emit (cputchar dev) out m) := by
  induction h with
  | wait cs m => exact ⟨_, .last cs, rfl⟩
  | refuse hrefusal _ ih =>
      obtain ⟨out, hdialogue, rfl⟩ := ih
      refine ⟨_, .line (.refuse hrefusal) hdialogue, ?_⟩
      rw [← List.append_assoc, emit_append _ out]
  | call hcalls hreturns _ _ ih =>
      obtain ⟨out, hdialogue, rfl⟩ := ih
      obtain ⟨text, hanswers, heq⟩ := hcalls.answers hfuel hfollows _
      cases heq.symm.trans hreturns
      refine ⟨_, .line hanswers hdialogue, ?_⟩
      rw [emit_append, emit_append]
  | exit hcalls hreturns hr =>
      have hzero := commandFunctions_zero hcalls.mem _ _ _ _ hreturns
      omega
  | stop hcalls hstops =>
      obtain ⟨text, -, heq⟩ := hcalls.answers hfuel hfollows _
      cases heq.symm.trans hstops

/-- **The monitor of the kernel.**  If `backtrace` can follow its stacks, then for any
characters the monitor prints the greeting and the dialogue on the lines that they make, and
waits. -/
theorem kernel_dialogue (hfuel : enough ≤ fuel) (hfollows : k.Follows steps) (stack : Nat → Argv)
    (static : Nat → Vector Byte bufLen) (n : Nat) (polls : List Byte) (m : Out) :
    ∃ out, Dialogue k tf (typedLines (nonzero polls)) out ∧
      monitor dev fuel (kernelFunctions dev fuel steps k) stack static tf n polls m =
        .waiting (emit (cputchar dev) (greeting ++ out) m) := by
  have htwo : 2 ≤ fuel := le_trans (by decide) hfuel
  have hsession : Session dev (kernelFunctions dev fuel steps k) tf (typedLines (nonzero polls))
      (emit (cputchar dev) greeting m) (monitorLoop dev fuel _ stack static tf n polls _) :=
    monitorLoop_session htwo n polls _
  obtain ⟨out, hdialogue, hout⟩ := hsession.dialogue hfuel hfollows
  exact ⟨out, hdialogue, by rw [monitor_eq htwo, hout, emit_append]⟩

end

/-- A kernel of 75 kilobytes, with the stack of one frame. -/
def sampleImage : Image where
  tables := sampleTables
  symbols := ⟨0x0010000C, 0xF010000C, 0xF0101A79, 0xF0112300, 0xF0112960⟩
  mem _ := sampleStack
  ebp _ := 0xF010FFF0

/-- Tables that start with a source file at the last address. -/
theorem sampleImage_never_returns :
    monitor deadDevice 2
        (commandFunctions deadDevice 2 0 [⟨0, 0x64, 0, 0xFFFFFFFF⟩] [0] sampleImage.symbols
          sampleImage.mem sampleImage.ebp) (fun _ ↦ Vector.replicate maxArgs none)
        (fun _ ↦ Vector.replicate bufLen 0) 0 0 (asciis "backtrace\n".toList) blankScreen ≠
      .returned 1 [] blankScreen :=
  kernel_never_returns (Nat.le_refl 2) _ _ 0 _ blankScreen 1 [] blankScreen

theorem sampleImage_dialogue :
    ∃ out, Dialogue sampleImage 0 [asciis "backtrace".toList, asciis "help".toList, []] out ∧
      monitor deadDevice enough (kernelFunctions deadDevice enough 2 sampleImage)
        (fun _ ↦ Vector.replicate maxArgs none) (fun _ ↦ Vector.replicate bufLen 0) 0 0
          (asciis "backtrace\nhelp\n".toList) blankScreen =
        .waiting (emit (cputchar deadDevice) (greeting ++ out) blankScreen) := by
  have hlines : typedLines (nonzero (asciis "backtrace\nhelp\n".toList)) =
      [asciis "backtrace".toList, asciis "help".toList, []] := by decide
  rw [← hlines]
  exact kernel_dialogue (Nat.le_refl enough)
    (fun _ ↦ ⟨_, sampleStack_frames, Nat.lt_succ_self 1⟩) _ _ 0
    _ blankScreen

end JosKernel.Monitor
