import JosKernel.Console.Fifo
import JosKernel.Monitor.Loop
import JosKernel.Printf.Render

/-!
# The dialogue of the monitor

The loop of `monitor` reads characters.  What it is for is a dialogue of whole lines, each
shown behind the prompt as it is typed and then answered: `Session`.  The loop is this
dialogue, for any characters that `getchar` returns, one call after another, until it waits
for one (`monitor_session`).
-/

namespace JosKernel.Monitor

open Console Printf

/-! ## What `monitor` and `runcmd` print -/

section

variable {fmt : CString} {before after : List Byte} {fuel : Nat} (dev : Device) (m : Out)

/-- A format that is all text. -/
theorem cprintf_text (hbytes : fmt.bytes = before) (hbefore : ascii '%' ∉ before)
    (hfuel : 1 ≤ fuel) :
    cprintf dev fuel fmt [] m = .ok (0, emit (cputchar dev) (codes before) m) := by
  obtain ⟨fuel, rfl⟩ := Nat.exists_eq_add_of_le' hfuel
  have hat : fmt.At 0 (before ++ []) := by
    rw [List.append_nil, ← hbytes]
    exact .start fmt
  have hW : vprintfmt record (fuel + 1) fmt 0 [] [] = .ok (codes before) := by
    rw [vprintfmt_literal hat hbefore, vprintfmt_nul hat.append.read, emit_record, List.nil_append]
  rw [cprintf, vcprintf_eq hW]
  rfl

/-- A format with one conversion. -/
theorem cprintf_one {ch : Byte} {conv : Conv} {a : Arg}
    (hbytes : fmt.bytes = before ++ (ascii '%' :: [] ++ ch :: after))
    (hbefore : ascii '%' ∉ before) (hafter : ascii '%' ∉ after) (hch : ¬ isFlag ch)
    (hconv : Conv.ofChar ch = some conv) (ha : Meets (conv.demands 0) [a]) (hfuel : 2 ≤ fuel) :
    cprintf dev fuel fmt [a] m =
      .ok (0, emit (cputchar dev) (codes before ++ (conv.render {} a ++ codes after)) m) := by
  obtain ⟨fuel, rfl⟩ := Nat.exists_eq_add_of_le' hfuel
  have hat : fmt.At 0 (before ++ (ascii '%' :: [] ++ ch :: after)) := hbytes ▸ .start fmt
  have hescapes := conv_escapes hat.append (by simp) hch hconv ha
  have hrender : (Segment.conv [] ch).render [a] = conv.render {} a := by
    rw [Segment.render, hconv]
    rfl
  have hend := hat.append.afterEscape
  rw [← List.append_nil after] at hend
  have hW : vprintfmt record (fuel + 2) fmt 0 [a] [] =
      .ok (codes before ++ (conv.render {} a ++ codes after)) := by
    rw [vprintfmt_literal hat hbefore, hescapes.vprintfmt_eq, vprintfmt_literal hend hafter,
      vprintfmt_nul hend.append.read, hrender, ← emit_append, ← emit_append, emit_record,
      List.nil_append]
  rw [cprintf, vcprintf_eq hW]
  rfl

end

/-- What is printed in answer to some words, if they invoke no command. -/
def refusal : List (List Byte) → Option (List Code)
  | [] => some []
  | t :: ts =>
      if maxArgs ≤ (t :: ts).length then
        some (codes (asciis "Too many arguments (max 16)\n".toList))
      else if t ∈ commandNames then none
      else some (codes (asciis "Unknown command '".toList) ++
        (signedCodes t ++ codes (asciis "'\n".toList)))

section

variable (dev : Device) {fuel : Nat} (funcs : Functions) (argv : Argv) (tf : BitVec 32) (m : Out)

theorem message_tooMany (hfuel : 2 ≤ fuel) :
    message tooManyArguments [.word (BitVec.ofNat 32 maxArgs)] fuel dev m =
      .ok (0, emit (cputchar dev) (codes (asciis "Too many arguments (max 16)\n".toList)) m) := by
  have hbytes : tooManyArguments.bytes = asciis "Too many arguments (max ".toList ++
      (ascii '%' :: [] ++ ascii 'd' :: asciis ")\n".toList) := by decide
  have hconv : Conv.ofChar (ascii 'd') = some .d := by decide
  have hcodes : codes (asciis "Too many arguments (max ".toList) ++
      (Conv.d.render {} (.word (BitVec.ofNat 32 maxArgs)) ++ codes (asciis ")\n".toList)) =
        codes (asciis "Too many arguments (max 16)\n".toList) := by decide
  have hargs : Meets (Conv.d.demands 0) [.word (BitVec.ofNat 32 maxArgs)] := ⟨trivial, trivial⟩
  rw [message, cprintf_one dev m hbytes (by decide) (by decide) (by decide) hconv hargs hfuel,
    hcodes]
  rfl

theorem message_unknown (hfuel : 2 ≤ fuel) {t after : List Byte} (hzero : 0 ∉ t)
    (hlen : t.length < 2 ^ 31) :
    message unknownCommand [.str (some (t ++ 0 :: after))] fuel dev m =
      .ok (0, emit (cputchar dev) (codes (asciis "Unknown command '".toList) ++
        (signedCodes t ++ codes (asciis "'\n".toList))) m) := by
  have hbytes : unknownCommand.bytes = asciis "Unknown command '".toList ++
      (ascii '%' :: [] ++ ascii 's' :: asciis "'\n".toList) := by decide
  have haccepts : Meets (Conv.s.demands 0) [.str (some (t ++ 0 :: after))] :=
    ⟨by rintro _ ⟨⟩; simp, trivial⟩
  rw [message, cprintf_one dev m hbytes (by decide) (by decide) (by decide)
    (Conv.ofChar_s.mpr rfl) haccepts hfuel, Conv.render, Arg.string_terminated hzero,
      string_plain hlen]
  rfl

/-- **A line that invokes no command** is answered with a message, or not at all. -/
theorem runcmd_refusal (line : CString) (hline : line.bytes.length < 2 ^ 31) (hfuel : 2 ≤ fuel)
    {text : List Code} (h : refusal (words line) = some text) :
    runcmd dev fuel funcs line argv tf m = .ok (0, emit (cputchar dev) text m) := by
  cases hwords : words line with
  | nil =>
      obtain ⟨inv, -, hruncmd⟩ := runcmd_of_lt line argv tf (by rw [hwords]; decide)
      rw [hwords] at h
      cases h
      rw [hruncmd, if_pos hwords]
      rfl
  | cons t ts =>
      have hlen : t.length < 2 ^ 31 :=
        (length_le_of_mem_tokens (show t ∈ words line by rw [hwords]; simp)).trans_lt hline
      rw [hwords, refusal] at h
      split_ifs at h with hmany hname
      · cases h
        rw [runcmd_of_le line argv tf (by rwa [hwords]), message_tooMany dev m hfuel]
      · cases h
        obtain ⟨inv, hpasses, hruncmd⟩ := runcmd_of_lt line argv tf (by rw [hwords]; omega)
        rw [hwords] at hpasses
        obtain ⟨p, hp, hcut⟩ := hpasses.first
        obtain ⟨after, hdrop⟩ := hcut.drop_eq
        rw [hruncmd, if_neg (hwords ▸ List.cons_ne_nil t ts),
          lookup_of_not_mem hpasses (commands_names funcs ▸ hname), lookup, hp, Result.ok_bind,
          Option.map_some, hdrop]
        exact message_unknown dev m hfuel hcut.not_mem hlen

/-- A line that invokes a command. -/
theorem runcmd_command (line : CString) (h : refusal (words line) = none) :
    ∃ inv : Invocation, inv.Passes (words line) tf ∧ ∃ command ∈ commands funcs,
      (words line).head? = some command.name.bytes ∧
        ∀ fuel, runcmd dev fuel funcs line argv tf m = call (command.func inv m) := by
  cases hwords : words line with
  | nil =>
      rw [hwords] at h
      cases h
  | cons t ts =>
      rw [hwords, refusal] at h
      split_ifs at h with hmany hname
      obtain ⟨inv, hpasses, hruncmd⟩ := runcmd_of_lt line argv tf (by rw [hwords]; omega)
      obtain ⟨command, hmem, hcommand⟩ := List.mem_map.mp (commands_names funcs ▸ hname)
      rw [hwords] at hpasses
      refine ⟨inv, hpasses, command, hmem, congrArg some hcommand.symm, fun fuel ↦ ?_⟩
      rw [hruncmd, if_neg (hwords ▸ List.cons_ne_nil t ts)]
      exact lookup_of_mem hpasses (commands_names funcs ▸ commandNames_nodup) hmem hcommand.symm dev
        fuel m

end

/-! ## The dialogue -/

/-- The line that `readline` makes of some characters. -/
def edited (cs : List Byte) : List Byte := cs.foldl lineStep []

/-- The words of that line. -/
def typedWords (cs : List Byte) : List (List Byte) := tokens isSpace (edited cs)

/-- A line behind the prompt, with its newline. -/
def shownLine (cs : List Byte) : List Code := promptCodes ++ (echoes [] cs ++ [0x0A])

/-- The line calls the command, with its words as arguments. -/
structure Calls (funcs : Functions) (tf : BitVec 32) (cs : List Byte) (command : Command)
    (inv : Invocation) : Prop where
  mem : command ∈ commands funcs
  name : (typedWords cs).head? = some command.name.bytes
  passes : inv.Passes (typedWords cs) tf

/-- A line that calls a command is not refused: it has fewer than 16 words. -/
theorem Calls.refusal_eq_none {funcs : Functions} {tf : BitVec 32} {cs : List Byte}
    {command : Command} {inv : Invocation} (h : Calls funcs tf cs command inv) :
    refusal (typedWords cs) = none := by
  obtain ⟨hmem, hname, hpasses⟩ := h
  cases hwords : typedWords cs with
  | nil =>
      rw [hwords] at hname
      cases hname
  | cons t ts =>
      rw [hwords] at hname hpasses
      have hlt : (t :: ts).length < maxArgs := (Vector.getElem?_eq_some_iff.mp hpasses.null).1
      have ht : t = command.name.bytes := Option.some.inj hname
      have hcommand : t ∈ commandNames := by
        rw [ht, ← commands_names funcs]
        exact List.mem_map.mpr ⟨command, hmem, rfl⟩
      rw [refusal, if_neg (Nat.not_le.mpr hlt), if_pos hcommand]

/-- The lines of some characters: the last one is not finished. -/
def typedLines (cs : List Byte) : List (List Byte) := cs.splitOnP fun c ↦ isNewline c

/-- The dialogue of the monitor: what comes of typing some lines, of which the last is not
finished, when the output is `m`. -/
inductive Session (dev : Device) (funcs : Functions) (tf : BitVec 32) :
    List (List Byte) → Out → Outcome → Prop
  /-- The prompt and what has been typed of the line are shown. -/
  | wait (cs : List Byte) (m : Out) : Session dev funcs tf [cs] m
      (.waiting (emit (cputchar dev) (promptCodes ++ echoes [] cs) m))
  /-- A line that calls no command gets its answer. -/
  | refuse {cs next : List Byte} {lines : List (List Byte)} {m : Out} {text : List Code}
      {o : Outcome} (hrefusal : refusal (typedWords cs) = some text)
      (rest : Session dev funcs tf (next :: lines)
        (emit (cputchar dev) (shownLine cs ++ text) m) o) :
      Session dev funcs tf (cs :: next :: lines) m o
  /-- A command returns, and the dialogue goes on. -/
  | call {cs next : List Byte} {lines : List (List Byte)} {m m' : Out} {command : Command}
      {inv : Invocation} {r : Int} {o : Outcome} (hcalls : Calls funcs tf cs command inv)
      (hreturns : command.func inv (emit (cputchar dev) (shownLine cs) m) = .ok (r, m'))
      (hr : 0 ≤ r) (rest : Session dev funcs tf (next :: lines) m' o) :
      Session dev funcs tf (cs :: next :: lines) m o
  /-- A command makes the monitor return, and the other lines are left. -/
  | exit {cs : List Byte} {m m' : Out} {command : Command} {inv : Invocation} {r : Int} {n : Nat}
      {polls : List Byte} (hcalls : Calls funcs tf cs command inv)
      (hreturns : command.func inv (emit (cputchar dev) (shownLine cs) m) = .ok (r, m'))
      (hr : r < 0) :
      Session dev funcs tf (cs :: typedLines (nonzero polls)) m (.returned n polls m')
  /-- A command does not return. -/
  | stop {cs next : List Byte} {lines : List (List Byte)} {m : Out} {command : Command}
      {inv : Invocation} {s : Stop} (hcalls : Calls funcs tf cs command inv)
      (hstops : command.func inv (emit (cputchar dev) (shownLine cs) m) = .error s) :
      Session dev funcs tf (cs :: next :: lines) m (.fault (.stop s))

theorem typedLines_unfinished {cs : List Byte} (hcs : ∀ c ∈ cs, ¬ isNewline c) :
    typedLines cs = [cs] :=
  List.splitOnP_eq_singleton (by simpa using hcs)

theorem typedLines_newline {cs : List Byte} (hcs : ∀ c ∈ cs, ¬ isNewline c) {c : Byte}
    (hc : isNewline c) (rest : List Byte) : typedLines (cs ++ c :: rest) = cs :: typedLines rest :=
  List.splitOnP_append_cons_of_forall_mem (by simpa using hcs) c (by simpa using hc) rest

theorem exists_typedLines (cs : List Byte) : ∃ next lines, typedLines cs = next :: lines :=
  List.exists_cons_of_ne_nil (List.splitOnP_ne_nil _ cs)

theorem first_newline (polls : List Byte) : (∀ c ∈ polls, ¬ isNewline c) ∨
    ∃ pre c post, polls = pre ++ c :: post ∧ (∀ c ∈ pre, ¬ isNewline c) ∧ isNewline c := by
  induction polls with
  | nil => exact .inl (by simp)
  | cons b polls ih =>
      by_cases hb : isNewline b
      · exact .inr ⟨[], b, polls, rfl, by simp, hb⟩
      · rcases ih with hnone | ⟨pre, c, post, rfl, hpre, hc⟩
        · exact .inl (List.forall_mem_cons.mpr ⟨hb, hnone⟩)
        · exact .inr ⟨b :: pre, c, post, rfl, List.forall_mem_cons.mpr ⟨hb, hpre⟩, hc⟩

theorem length_lineStep_le {line : List Byte} (h : line.length ≤ bufLen - 1) (c : Byte) :
    (lineStep line c).length ≤ bufLen - 1 := by
  rw [lineStep]
  split_ifs with herase happend
  · rw [List.length_dropLast]
    omega
  · rw [List.length_append, List.length_singleton]
    omega
  · exact h

theorem length_edited_le (cs : List Byte) : (edited cs).length ≤ bufLen - 1 := by
  induction cs using List.reverseRecOn with
  | nil => exact Nat.zero_le _
  | append_singleton cs c ih =>
      rw [edited, List.foldl_append]
      exact length_lineStep_le ih c

section

variable {dev : Device} {fuel : Nat} {funcs : Functions} {stack : Nat → Argv}
  {static : Nat → Vector Byte bufLen} {tf : BitVec 32} {n : Nat} {polls polls' : List Byte}
  {m m' : Out}

theorem monitorLoop_waiting {line : Line}
    (h : readlineLeft dev fuel (some monitorPrompt) polls (static n) m =
      .ok (.waiting line m', polls')) :
    monitorLoop dev fuel funcs stack static tf n polls m = .waiting m' := by
  rw [monitorLoop]
  split <;> rename_i hread <;> cases h.symm.trans hread
  rfl

theorem monitorLoop_line {buf : Vector Byte bufLen}
    (h : readlineLeft dev fuel (some monitorPrompt) polls (static n) m =
      .ok (.line buf m', polls')) :
    monitorLoop dev fuel funcs stack static tf n polls m =
      match runcmd dev fuel funcs (commandLine buf) (stack n) tf m' with
      | .error fault => .fault fault
      | .ok (r, m) =>
          if r < 0 then .returned (n + 1) polls' m
          else monitorLoop dev fuel funcs stack static tf (n + 1) polls' m := by
  rw [monitorLoop]
  split <;> rename_i hread <;> cases h.symm.trans hread
  rfl

/-- **The loop of `monitor` is the dialogue.** -/
theorem monitorLoop_session (hfuel : 2 ≤ fuel) (n : Nat) (polls : List Byte) (m : Out) :
    Session dev funcs tf (typedLines (nonzero polls)) m
      (monitorLoop dev fuel funcs stack static tf n polls m) := by
  rcases first_newline polls with hnone | ⟨pre, c, post, rfl, hpre, hc⟩
  · have htyped : ∀ c ∈ nonzero polls, ¬ isNewline c := fun c hc ↦ hnone c (mem_nonzero.mp hc).1
    obtain ⟨line, hread⟩ := readlineLeft_waiting dev (static n) m hfuel hnone
    rw [typedLines_unfinished htyped, monitorLoop_waiting hread]
    exact .wait _ m
  · have htyped : ∀ c ∈ nonzero pre, ¬ isNewline c := fun c hc ↦ hpre c (mem_nonzero.mp hc).1
    have hne : c ≠ 0 := by
      rcases hc with rfl | rfl <;> decide
    obtain ⟨buf, hread, hbuf⟩ := readlineLeft_line dev (static n) m hfuel hpre hc post
    have hline : (commandLine buf).bytes = edited (nonzero pre) := hbuf
    have hwords : words (commandLine buf) = typedWords (nonzero pre) := by
      rw [words, hline, typedWords]
    have hlen : (commandLine buf).bytes.length < 2 ^ 31 :=
      hline ▸ (length_edited_le (nonzero pre)).trans_lt (by decide)
    obtain ⟨next, lines, hnext⟩ := exists_typedLines (nonzero post)
    rw [nonzero_append, nonzero_cons hne, typedLines_newline htyped hc, monitorLoop_line hread,
      hnext]
    cases hrefusal : refusal (words (commandLine buf)) with
    | some text =>
        have hloop := monitorLoop_session hfuel (n + 1) post
          (emit (cputchar dev) (shownLine (nonzero pre) ++ text) m)
        rw [runcmd_refusal dev funcs (stack n) tf _ (commandLine buf) hlen hfuel hrefusal,
          ← emit_append]
        rw [hnext] at hloop
        exact .refuse (hwords ▸ hrefusal) hloop
    | none =>
        obtain ⟨inv, hpasses, command, hmem, hname, hruncmd⟩ :=
          runcmd_command dev funcs (stack n) tf
          (emit (cputchar dev) (shownLine (nonzero pre)) m) (commandLine buf) hrefusal
        have hcalls : Calls funcs tf (nonzero pre) command inv :=
          ⟨hmem, hwords ▸ hname, hwords ▸ hpasses⟩
        have hruncmd' : runcmd dev fuel funcs (commandLine buf) (stack n) tf
          (emit (cputchar dev) (promptCodes ++ (echoes [] (nonzero pre) ++ [0x0A])) m) = _ :=
            hruncmd fuel
        rw [hruncmd']
        cases hcall : command.func inv (emit (cputchar dev) (shownLine (nonzero pre)) m) with
        | error s => exact .stop hcalls hcall
        | ok r =>
            obtain ⟨r, m'⟩ := r
            have hloop := monitorLoop_session hfuel (n + 1) post m'
            rw [hnext] at hloop
            by_cases hr : r < 0
            · have hexit : Session dev funcs tf (nonzero pre :: next :: lines) m
                  (.returned (n + 1) post m') := hnext ▸ .exit hcalls hcall hr
              simpa only [call, Except.mapError, if_pos hr] using hexit
            · have hgoes := Session.call hcalls hcall (Int.not_lt.mp hr) hloop
              simpa only [call, Except.mapError, if_neg hr] using hgoes
termination_by polls.length

/-- What `monitor` prints first. -/
def greeting : List Code :=
  codes (asciis "Welcome to the JOS kernel monitor!\n".toList) ++
    codes (asciis "Type 'help' for a list of commands.\n".toList)

theorem monitor_eq (hfuel : 2 ≤ fuel) (n : Nat) (polls : List Byte) (m : Out) :
    monitor dev fuel funcs stack static tf n polls m =
      monitorLoop dev fuel funcs stack static tf n polls (emit (cputchar dev) greeting m) := by
  rw [monitor, cprintf_text dev m rfl (by decide) (by omega)]
  simp only [cprintf_text dev _ (show typeHelp.bytes = _ from rfl) (by decide)
    (show 1 ≤ fuel by omega)]
  rw [greeting, emit_append]
  rfl

/-- **The monitor is a dialogue of lines.**  Whatever characters `getchar` returns, one call
after another, the monitor greets, shows each line behind its prompt as it is typed, answers
it as `runcmd` does or calls the command with its words, and then goes on to the next; it
waits in the last line, which is not finished, unless a command has made it return or has not
returned. -/
theorem monitor_session (hfuel : 2 ≤ fuel) (n : Nat) (polls : List Byte) (m : Out) :
    Session dev funcs tf (typedLines (nonzero polls)) (emit (cputchar dev) greeting m)
      (monitor dev fuel funcs stack static tf n polls m) := by
  rw [monitor_eq hfuel]
  exact monitorLoop_session hfuel n polls _

/-- A word that is no command, and the start of one that is. -/
def strangers : List Byte := asciis "halt".toList ++ [0, 0x0A] ++ asciis "hel".toList

theorem strangers_session :
    Session deadDevice sevens 0 [asciis "halt".toList, asciis "hel".toList]
      (emit (cputchar deadDevice) greeting blankScreen)
      (monitor deadDevice 2 sevens (fun _ ↦ Vector.replicate maxArgs none)
        (fun _ ↦ Vector.replicate bufLen 0) 0 0 strangers blankScreen) := by
  have hlines : typedLines (nonzero strangers) = [asciis "halt".toList, asciis "hel".toList] := by
    decide
  rw [← hlines]
  exact monitor_session (Nat.le_refl 2) 0 strangers blankScreen

/-! ## From the devices to the commands -/

/-- The calls of `cons_getc` in `getchar`, each with what the devices return to it. -/
def pollEvents (batches : List (List Byte × List Byte)) : List Event :=
  batches.map fun batch ↦ .consGetc batch.1 batch.2

/-- **From the devices to the commands.**  As long as the input buffer never overruns, the
monitor has the dialogue on the characters that the devices deliver, in their order: those
that it has not read are still waiting in the buffer. -/
theorem monitor_typed {serialExists : Bool} {batches : List (List Byte × List Byte)}
    (hfits : Fits serialExists [] (pollEvents batches)) (hfuel : 2 ≤ fuel) (n : Nat) (m : Out) :
    ∃ s outs waiting, runs (consStep serialExists) .init (pollEvents batches) = some (s, outs) ∧
      nonzero outs ++ waiting = delivered serialExists (pollEvents batches) ∧ s.Holds waiting ∧
      Session dev funcs tf (typedLines (nonzero outs)) (emit (cputchar dev) greeting m)
        (monitor dev fuel funcs stack static tf n outs m) := by
  obtain ⟨s, hrun, hholds⟩ := runs_fifo hfits
  obtain ⟨hout, -⟩ := fifoTrace_out serialExists (q := []) (by simp) (pollEvents batches)
  refine ⟨s, _, _, hrun, hout, hholds, ?_⟩
  rw [monitor_eq hfuel]
  exact monitorLoop_session hfuel n _ _

/-- Keys that come two at a time, and a character from the serial port. -/
def keysAndSerial : List (List Byte × List Byte) :=
  [([], asciis "ha".toList), ([], []), ([], asciis "lt".toList), ([0x0D], []), ([], []), ([], [])]

theorem keysAndSerial_typed :
    ∃ s outs waiting, runs (consStep true) .init (pollEvents keysAndSerial) = some (s, outs) ∧
      nonzero outs ++ waiting = delivered true (pollEvents keysAndSerial) ∧ s.Holds waiting ∧
      Session deadDevice sevens 0 (typedLines (nonzero outs))
        (emit (cputchar deadDevice) greeting blankScreen)
        (monitor deadDevice 2 sevens (fun _ ↦ Vector.replicate maxArgs none)
          (fun _ ↦ Vector.replicate bufLen 0) 0 0 outs blankScreen) :=
  monitor_typed (by decide) (Nat.le_refl 2) 0 blankScreen

end

end JosKernel.Monitor
