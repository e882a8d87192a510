import JosKernel.Monitor.Info

/-!
# `_panic` and `_warn`

A panic prints where it comes from and its message, and then enters the monitor for ever.
The first one leaves its format in `panicstr`, and any later one finds it there and prints
nothing.  A warning prints the same lines, and returns.

## The model

* `panicstr` is an address, null before the first panic.  A panic is given what is in it, and
  says what it leaves there.
* A later panic is called out of the monitor of the first, by a command.  Which one calls it,
  and what has been printed before, is not said: it is any call.
-/

namespace JosKernel.Kernel

open Console Printf Monitor

/-! ## The code -/

/-- `"kernel panic at %s:%d: "`. -/
def panicHeading : CString := .literal "kernel panic at %s:%d: "

/-- `"kernel warning at %s:%d: "`. -/
def warnHeading : CString := .literal "kernel warning at %s:%d: "

section

variable (dev : Device) (fuel : Nat)

/-- The three calls that print a heading and a message. -/
def report (heading : CString) (file : List Byte) (line : BitVec 32) (fmt : CString) (ap : List Arg)
    (m : Out) : Except Stop Out := do
  let (_, m) ← cprintf dev fuel heading [.str (some (file ++ [0])), .word line] m
  let (_, m) ← vcprintf dev fuel fmt ap m
  let (_, m) ← cprintf dev fuel newlineFormat [] m
  return m

/-- `_warn(file, line, fmt, ...)`. -/
def warn (file : List Byte) (line : BitVec 32) (fmt : CString) (ap : List Arg) (m : Out) :
    Except Stop Out :=
  report dev fuel warnHeading file line fmt ap m

end

section

variable {dev : Device} {fuel : Nat} {funcs : Functions} {stack : Nat → Argv}
  {static : Nat → Vector Byte bufLen} {tf : BitVec 32} {n' : Nat} {polls' : List Byte} {m' : Out}

/-- A call of the monitor that returns has read a character. -/
theorem length_of_monitorLoop {n : Nat} {polls : List Byte} {m : Out}
    (h : monitorLoop dev fuel funcs stack static tf n polls m = .returned n' polls' m') :
    polls'.length < polls.length := by
  rw [monitorLoop] at h
  split at h
  next => cases h
  next => cases h
  next hread =>
    have hlt := (length_of_readlineLeft hread).resolve_left (by simp)
    exact (length_of_monitorLoop h).trans hlt
  next hread =>
    have hlt := (length_of_readlineLeft hread).resolve_left (by simp)
    split at h
    · cases h
    · split_ifs at h
      · cases h
        exact hlt
      · exact (length_of_monitorLoop h).trans hlt
termination_by polls.length

theorem length_of_monitor {n : Nat} {polls : List Byte} {m : Out}
    (h : monitor dev fuel funcs stack static tf n polls m = .returned n' polls' m') :
    polls'.length < polls.length := by
  rw [monitor] at h
  split at h
  · cases h
  · split at h
    · cases h
    · exact length_of_monitorLoop h

end

section

variable (dev : Device) (fuel : Nat) (funcs : Functions) (stack : Nat → Argv)
  (static : Nat → Vector Byte bufLen)

/-- `while (1) monitor(NULL);` -/
def monitorForever (n : Nat) (polls : List Byte) (m : Out) : Outcome :=
  match _h : monitor dev fuel funcs stack static 0 n polls m with
  | .returned n polls m => monitorForever n polls m
  | outcome => outcome
termination_by polls.length
decreasing_by exact length_of_monitor _h

/-- `_panic(file, line, fmt, ...)`, where `fmt` is at `fmtAt`: what is left in `panicstr`, and
how far it gets. -/
def panic (panicstr : BitVec 32) (file : List Byte) (line fmtAt : BitVec 32) (fmt : CString)
    (ap : List Arg) (n : Nat) (polls : List Byte) (m : Out) : BitVec 32 × Outcome :=
  if panicstr ≠ 0 then (panicstr, monitorForever dev fuel funcs stack static n polls m)
  else
    let panicstr := fmtAt
    match report dev fuel panicHeading file line fmt ap m with
    | .error stop => (panicstr, .fault (.stop stop))
    | .ok m => (panicstr, monitorForever dev fuel funcs stack static n polls m)

end

/-! ## What they print -/

/-- A heading, the place in the source and a message. -/
def reportText (heading file : List Byte) (line : BitVec 32) (message : List Code) : List Code :=
  codes heading ++ (signedCodes file ++ (codes (asciis ":".toList) ++ (decimal line ++
    (codes (asciis ": ".toList) ++ (message ++ codes (asciis "\n".toList))))))

/-- The message of a format. -/
def messageText (fmt : CString) (ap : List Arg) : List Code := render (segments fmt.bytes) ap

section

variable (dev : Device) {fuel : Nat} {heading fmt : CString} {before : List Byte} {file : List Byte}
  {ap : List Arg}

theorem cprintf_heading (hsegments : segments heading.bytes =
      texts before ++ .conv [] (ascii 's') :: (texts (asciis ":".toList) ++ .conv [] (ascii 'd') ::
        (texts (asciis ": ".toList) ++ [])))
    (hfuel : heading.bytes.length + 3 ≤ fuel) (hzero : 0 ∉ file) (hlen : file.length < 2 ^ 31)
    (line : BitVec 32) (m : Out) :
    cprintf dev fuel heading [.str (some (file ++ [0])), .word line] m =
      .ok (0, emit (cputchar dev)
        (codes before ++ (signedCodes file ++ (codes (asciis ":".toList) ++
          (decimal line ++ codes (asciis ": ".toList))))) m) := by
  have hs : (Segment.conv [] (ascii 's')).demands = [.str] := rfl
  have hd : (Segment.conv [] (ascii 'd')).demands = [.word] := rfl
  have hap : Sufficient heading [.str (some (file ++ [0])), .word line] := by
    rw [Sufficient, hsegments]
    simp only [List.flatMap_append, List.flatMap_cons, texts_demands, hs, hd, List.flatMap_nil]
    exact ⟨by rintro _ ⟨⟩; simp, trivial, trivial⟩
  rw [cprintf_render hap hfuel, hsegments]
  simp only [render, render_texts, hs, hd, List.length_singleton, List.drop_succ_cons,
    List.drop_zero, render_terminated hzero hlen, render_decimal, render_all_texts, List.append_nil]

theorem report_eq (hsegments : segments heading.bytes =
      texts before ++ .conv [] (ascii 's') :: (texts (asciis ":".toList) ++ .conv [] (ascii 'd') ::
        (texts (asciis ": ".toList) ++ [])))
    (hheading : heading.bytes.length + 3 ≤ fuel) (hzero : 0 ∉ file) (hlen : file.length < 2 ^ 31)
    (hap : Sufficient fmt ap) (hfmt : fmt.bytes.length + 3 ≤ fuel) (line : BitVec 32) (m : Out) :
    report dev fuel heading file line fmt ap m =
      .ok (emit (cputchar dev) (reportText before file line (messageText fmt ap)) m) := by
  have hnewline : ∀ m, cprintf dev fuel newlineFormat [] m = _ := fun m ↦
    cprintf_text dev m (show newlineFormat.bytes = _ from rfl) (by decide) (by omega)
  rw [report, cprintf_heading dev hsegments hheading hzero hlen, Result.ok_bind]
  simp only [vcprintf_render hap hfmt, Result.ok_bind, hnewline, reportText, messageText,
    emit_append]
  rfl

theorem panicHeading_segments : segments panicHeading.bytes =
    texts (asciis "kernel panic at ".toList) ++ .conv [] (ascii 's') ::
      (texts (asciis ":".toList) ++ .conv [] (ascii 'd') :: (texts (asciis ": ".toList) ++ [])) := by
  decide +kernel

theorem warnHeading_segments : segments warnHeading.bytes =
    texts (asciis "kernel warning at ".toList) ++ .conv [] (ascii 's') ::
      (texts (asciis ":".toList) ++ .conv [] (ascii 'd') :: (texts (asciis ": ".toList) ++ [])) := by
  decide +kernel

end

/-- A place in the source and a message that can be printed there. -/
structure Reportable (fuel : Nat) (file : List Byte) (fmt : CString) (ap : List Arg) : Prop where
  zero_not_mem : 0 ∉ file
  length_lt : file.length < 2 ^ 31
  sufficient : Sufficient fmt ap
  format : fmt.bytes.length + 3 ≤ fuel
  enough : enough ≤ fuel

section

variable (dev : Device) {fuel : Nat} {file : List Byte} {fmt : CString} {ap : List Arg}

/-- A warning prints its line and returns. -/
theorem warn_eq (h : Reportable fuel file fmt ap) (line : BitVec 32) (m : Out) :
    warn dev fuel file line fmt ap m = .ok (emit (cputchar dev)
      (reportText (asciis "kernel warning at ".toList) file line (messageText fmt ap)) m) :=
  report_eq dev warnHeading_segments (le_trans (by decide) h.enough) h.zero_not_mem h.length_lt
    h.sufficient h.format line m

variable {steps : Nat} {k : Image} (stack : Nat → Argv) (static : Nat → Vector Byte bufLen)
  (n : Nat) (polls : List Byte) (m : Out)

/-- The monitor of the kernel is called once. -/
theorem monitorForever_eq (hfuel : enough ≤ fuel) (hfollows : k.Follows steps) :
    ∃ out, Dialogue k 0 (typedLines (nonzero polls)) out ∧
      monitorForever dev fuel (kernelFunctions dev fuel steps k) stack static n polls m =
        .waiting (emit (cputchar dev) (greeting ++ out) m) := by
  have htwo : 2 ≤ fuel := le_trans (by decide) hfuel
  obtain ⟨out, hdialogue, hout⟩ : ∃ out, Dialogue k 0 (typedLines (nonzero polls)) out ∧
      monitorLoop dev fuel (kernelFunctions dev fuel steps k) stack static 0 n polls
        (emit (cputchar dev) greeting m) = .waiting (emit (cputchar dev) out _) :=
    (monitorLoop_session htwo n polls _).dialogue hfuel hfollows
  refine ⟨out, hdialogue, ?_⟩
  rw [monitorForever, monitor_eq htwo, hout, emit_append]

/-- The first panic prints its line, and then calls the monitor. -/
theorem panic_first (h : Reportable fuel file fmt ap) (funcs : Functions) (line fmtAt : BitVec 32) :
    panic dev fuel funcs stack static 0 file line fmtAt fmt ap n polls m =
      (fmtAt, monitorForever dev fuel funcs stack static n polls (emit (cputchar dev)
        (reportText (asciis "kernel panic at ".toList) file line (messageText fmt ap)) m)) := by
  rw [panic, if_neg (not_not.mpr rfl), report_eq dev panicHeading_segments
    (le_trans (by decide) h.enough) h.zero_not_mem h.length_lt h.sufficient h.format line m]

/-- A panic after another prints nothing, and calls the monitor. -/
theorem panic_later {panicstr : BitVec 32} (hpanicstr : panicstr ≠ 0) (funcs : Functions)
    (file : List Byte) (line fmtAt : BitVec 32) (fmt : CString) (ap : List Arg) :
    panic dev fuel funcs stack static panicstr file line fmtAt fmt ap n polls m =
      (panicstr, monitorForever dev fuel funcs stack static n polls m) := by
  rw [panic, if_pos hpanicstr]

end

/-- Every panic that finds `panicstr` so is silent: it prints nothing before its monitor, and
leaves `panicstr` as it is.  This holds for any commands. -/
def Silenced (dev : Device) (panicstr : BitVec 32) : Prop :=
  ∀ fuel funcs stack static file line fmtAt fmt ap n polls m,
    panic dev fuel funcs stack static panicstr file line fmtAt fmt ap n polls m =
      (panicstr, monitorForever dev fuel funcs stack static n polls m)

theorem silenced_of_ne (dev : Device) {panicstr : BitVec 32} (h : panicstr ≠ 0) :
    Silenced dev panicstr := by
  intro fuel funcs stack static file line fmtAt fmt ap n polls m
  exact panic_later dev stack static n polls m h funcs file line fmtAt fmt ap

/-- What a panic leaves in `panicstr`. -/
def panicstrAfter (panicstr fmtAt : BitVec 32) : BitVec 32 :=
  if panicstr = 0 then fmtAt else panicstr

theorem panicstrAfter_ne_zero {fmtAt : BitVec 32} (h : fmtAt ≠ 0) (panicstr : BitVec 32) :
    panicstrAfter panicstr fmtAt ≠ 0 := by
  unfold panicstrAfter
  split_ifs with hpanicstr
  · exact h
  · exact hpanicstr

section

variable (dev : Device) {fuel steps : Nat} {file : List Byte} {fmt : CString} {ap : List Arg}
  {k : Image} (stack : Nat → Argv) (static : Nat → Vector Byte bufLen) (n : Nat) (polls : List Byte)
  (m : Out)

/-- **A panic.**  The first one prints its line, and any later one prints nothing.  Then comes
the dialogue of the monitor, for ever: the panic does not return, whatever is typed.  And no
panic after it prints anything. -/
theorem panic_dialogue (h : Reportable fuel file fmt ap) (hfollows : k.Follows steps)
    {fmtAt : BitVec 32} (hfmtAt : fmtAt ≠ 0) (panicstr line : BitVec 32) :
    ∃ out, Dialogue k 0 (typedLines (nonzero polls)) out ∧
      panic dev fuel (kernelFunctions dev fuel steps k) stack static panicstr file line fmtAt fmt
          ap n polls m =
        (panicstrAfter panicstr fmtAt, .waiting (emit (cputchar dev)
          ((if panicstr = 0 then
              reportText (asciis "kernel panic at ".toList) file line (messageText fmt ap)
            else []) ++ (greeting ++ out)) m)) ∧
      Silenced dev (panicstrAfter panicstr fmtAt) := by
  have hsilenced := silenced_of_ne dev (panicstrAfter_ne_zero hfmtAt panicstr)
  by_cases hpanicstr : panicstr = 0
  · obtain ⟨out, hdialogue, hout⟩ := monitorForever_eq dev stack static n polls
      (emit (cputchar dev) (reportText _ file line (messageText fmt ap)) m) h.enough hfollows
    refine ⟨out, hdialogue, ?_, hsilenced⟩
    rw [hpanicstr, panic_first dev stack static n polls m h, panicstrAfter, if_pos rfl, if_pos rfl,
      emit_append _ (greeting ++ out), hout]
  · obtain ⟨out, hdialogue, hout⟩ := monitorForever_eq dev stack static n polls m h.enough hfollows
    refine ⟨out, hdialogue, ?_, hsilenced⟩
    rw [panic_later dev stack static n polls m hpanicstr, panicstrAfter, if_neg hpanicstr,
      if_neg hpanicstr, List.nil_append, hout]

end

/-- The message of a panic of `PADDR`. -/
def paddrFormat : CString := .literal "PADDR called with invalid kva %08lx"

theorem paddr_panic :
    ∃ out, Dialogue sampleImage 0 [asciis "bt".toList, []] out ∧
      panic deadDevice enough (kernelFunctions deadDevice enough 2 sampleImage)
          (fun _ ↦ Vector.replicate maxArgs none) (fun _ ↦ Vector.replicate bufLen 0) 0
          (asciis "kern/pmap.c".toList) 200 0xF0101C00 paddrFormat [.word 0xBEEF] 0
          (asciis "bt\n".toList) blankScreen =
        (0xF0101C00, .waiting (emit (cputchar deadDevice) (codes (asciis
          "kernel panic at kern/pmap.c:200: PADDR called with invalid kva 0000beef\n".toList) ++
            (greeting ++ out)) blankScreen)) ∧
      Silenced deadDevice 0xF0101C00 := by
  have hlines : typedLines (nonzero (asciis "bt\n".toList)) = [asciis "bt".toList, []] := by
    decide
  have hdemands : (segments paddrFormat.bytes).flatMap Segment.demands = [.word] := by
    decide +kernel
  have hsegments : segments paddrFormat.bytes =
    texts (asciis "PADDR called with invalid kva ".toList) ++
      [.conv (asciis "08l".toList) (ascii 'x')] := by decide +kernel
  have hreport : reportText (asciis "kernel panic at ".toList) (asciis "kern/pmap.c".toList) 200
      (messageText paddrFormat [.word 0xBEEF]) = codes (asciis
        "kernel panic at kern/pmap.c:200: PADDR called with invalid kva 0000beef\n".toList) := by
    rw [messageText, hsegments]
    decide
  have hreportable : Reportable enough (asciis "kern/pmap.c".toList) paddrFormat [.word 0xBEEF] :=
    { zero_not_mem := by decide
      length_lt := by decide
      sufficient := by
        rw [Sufficient, hdemands]
        exact ⟨trivial, trivial⟩
      format := by decide
      enough := Nat.le_refl enough }
  rw [← hlines, ← hreport]
  exact panic_dialogue deadDevice _ _ 0 _ blankScreen hreportable
    (fun _ ↦ ⟨_, sampleStack_frames, Nat.lt_succ_self 1⟩) (by decide) 0 200

end JosKernel.Kernel
