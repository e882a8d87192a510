import JosKernel.Monitor.Words

/-!
# Invoking commands

A line of words, up to `MAXARGS - 1` of them, of which the first is the name of a command,
invokes this command with the words as arguments.  No other line invokes a command
(`runcmd_invokes`).
-/

namespace JosKernel.Monitor

open Console Printf

/-! ## How calls end -/

/-- A computation fails only where a call does not return, for one of some reasons. -/
def Stops {α : Type} (P : Stop → Prop) (r : Except Fault α) : Prop :=
  ∀ fault, r = .error fault → ∃ s, fault = .stop s ∧ P s

/-- With enough fuel, a run returns 0. -/
def Returns (r : Nat → Device → Out → Except Fault (Int × Out)) : Prop :=
  ∃ n, ∀ fuel, n ≤ fuel → ∀ (dev : Device) (m : Out), ∃ m', r fuel dev m = .ok (0, m')

section

variable {α : Type} {P Q : Stop → Prop}

theorem stops_ok (P : Stop → Prop) (a : α) : Stops P (.ok a) := by
  intro fault h
  cases h

theorem stops_call (r : Except Stop α) : Stops (r = .error ·) (call r) := by
  intro fault h
  cases r with
  | ok a => cases h
  | error s =>
      cases h
      exact ⟨s, rfl, rfl⟩

theorem Stops.mono {r : Except Fault α} (h : Stops P r) (hPQ : ∀ s, P s → Q s) : Stops Q r := by
  intro fault hr
  obtain ⟨s, hs, hP⟩ := h fault hr
  exact ⟨s, hs, hPQ s hP⟩

end

theorem returns_ok : Returns fun _ _ m ↦ .ok (0, m) := ⟨0, fun _ _ _ m ↦ ⟨m, rfl⟩⟩

/-! ## Messages -/

/-- `cprintf(fmt, ...); return 0;` -/
def message (fmt : CString) (ap : List Arg) (fuel : Nat) (dev : Device) (m : Out) :
    Except Fault (Int × Out) := do
  let (_, m) ← call (cprintf dev fuel fmt ap m)
  return (0, m)

section

variable {fmt : CString} {ap : List Arg} {W : List Code}

theorem message_returns (h : Prints fmt 0 ap W) : Returns (message fmt ap) := by
  obtain ⟨n, hn⟩ := cprintf_of_prints h
  refine ⟨n, ?_⟩
  intro fuel hfuel dev m
  exact ⟨_, by rw [message, hn fuel hfuel]; rfl⟩

theorem message_stops (h : Prints fmt 0 ap W) (fuel : Nat) (dev : Device) (m : Out) :
    Stops (· = .fuel) (message fmt ap fuel dev m) := by
  intro fault hfault
  unfold message at hfault
  cases hcprintf : cprintf dev fuel fmt ap m with
  | ok r =>
      rw [hcprintf] at hfault
      cases hfault
  | error stop =>
      rw [hcprintf] at hfault
      cases hfault
      exact ⟨stop, rfl, cprintf_error_of_prints h hcprintf⟩

/-- A format with one conversion. -/
theorem prints_one (before : List Byte) (ch : Byte) (after : List Byte)
    (hbytes : fmt.bytes = before ++ (ascii '%' :: [] ++ ch :: after))
    (hbefore : ascii '%' ∉ before) (hafter : ascii '%' ∉ after) (hch : ¬ isFlag ch)
    (hconv : isConv ch) (hap : Meets (caseDemands [] ch) ap) : ∃ W, Prints fmt 0 ap W := by
  have hat : fmt.At 0 (before ++ (ascii '%' :: [] ++ ch :: after)) := hbytes ▸ .start fmt
  have hend : fmt.At (afterEscape (0 + before.length) []) (after ++ []) := by
    rw [List.append_nil]
    exact hat.append.afterEscape
  have htext := Prints.literal hend hafter
    (prints_nil hend.append (ap.drop (starDemands [] ++ caseDemands [] ch).length))
  obtain ⟨cs, hcs⟩ := Prints.conv hat.append (by simp) hch hconv hap htext
  exact ⟨_, Prints.literal hat hbefore hcs⟩

end

theorem tooManyArguments_prints :
    ∃ W, Prints tooManyArguments 0 [.word (BitVec.ofNat 32 maxArgs)] W :=
  prints_one (asciis "Too many arguments (max ".toList) (ascii 'd') (asciis ")\n".toList)
    (by decide +kernel) (by decide +kernel) (by decide) (by decide) (by decide) ⟨trivial, trivial⟩

theorem unknownCommand_prints {bs : List Byte} (hbs : 0 ∈ bs) :
    ∃ W, Prints unknownCommand 0 [.str (some bs)] W :=
  prints_one (asciis "Unknown command '".toList) (ascii 's') (asciis "'\n".toList)
    (by decide +kernel) (by decide +kernel) (by decide) (by decide) (by decide)
    ⟨by rintro _ ⟨⟩; exact hbs, trivial⟩

/-! ## The table -/

/-- What a command is called with for some words. -/
structure Invocation.Passes (inv : Invocation) (ts : List (List Byte)) (tf : BitVec 32) :
    Prop where
  argc : inv.argc = ts.length
  argv : Holds inv.argv inv.buf ts
  null : inv.argv[ts.length]? = some none
  tf : inv.tf = tf

section

variable {inv : Invocation} {t : List Byte} {ts : List (List Byte)} {tf : BitVec 32}

theorem Invocation.Passes.first (h : inv.Passes (t :: ts) tf) :
    ∃ p, getArg inv.argv 0 = .ok (some p) ∧ Cut 0 inv.buf p t := by
  obtain ⟨p, hp, hcut⟩ := h.argv 0 t rfl
  have hget : getArg inv.argv 0 = .ok inv.argv[0] := dif_pos (by decide)
  exact ⟨p, by rw [hget, Vector.getElem_eq_iff.mpr hp], hcut⟩

/-- A command has its turn. -/
theorem lookup_cons (h : inv.Passes (t :: ts) tf) (dev : Device) (fuel : Nat) (m : Out)
    (command : Command) (commands : List Command) :
    lookup dev fuel inv m (command :: commands) =
      if t = command.name.bytes then call (command.func inv m)
      else lookup dev fuel inv m commands := by
  obtain ⟨p, hp, hcut⟩ := h.first
  obtain ⟨n, hn, hiff⟩ := strcmp_eq hcut command.name.zero_not_mem
  rw [lookup, hp, Result.ok_bind, nonNull, Result.ok_bind, hn, Result.ok_bind]
  exact if_congr hiff rfl rfl

/-- A command is found by its name. -/
theorem lookup_of_mem (h : inv.Passes (t :: ts) tf) {commands : List Command} {command : Command}
    (hnodup : (commands.map (·.name.bytes)).Nodup) (hmem : command ∈ commands)
    (hname : t = command.name.bytes) (dev : Device) (fuel : Nat) (m : Out) :
    lookup dev fuel inv m commands = call (command.func inv m) := by
  induction commands with
  | nil => cases hmem
  | cons c commands ih =>
      obtain ⟨hhead, hnodup⟩ := List.nodup_cons.mp hnodup
      rw [lookup_cons h]
      rcases List.mem_cons.mp hmem with rfl | hmem
      · rw [if_pos hname]
      · have hne : t ≠ c.name.bytes := by
          intro heq
          refine hhead (List.mem_map.mpr ⟨command, hmem, ?_⟩)
          exact hname.symm.trans heq
        rw [if_neg hne]
        exact ih hnodup hmem

/-- No command is found. -/
theorem lookup_of_not_mem (h : inv.Passes (t :: ts) tf) {commands : List Command}
    (hnone : t ∉ commands.map (·.name.bytes)) (dev : Device) (fuel : Nat) (m : Out) :
    lookup dev fuel inv m commands = lookup dev fuel inv m [] := by
  induction commands with
  | nil => rfl
  | cons c commands ih =>
      rw [List.map_cons, List.mem_cons, not_or] at hnone
      rw [lookup_cons h, if_neg hnone.1]
      exact ih hnone.2

/-- After the last command comes the message. -/
theorem lookup_nil (h : inv.Passes (t :: ts) tf) :
    ∃ bs W, Prints unknownCommand 0 [.str (some bs)] W ∧
      ∀ (dev : Device) (fuel : Nat) (m : Out),
        lookup dev fuel inv m [] = message unknownCommand [.str (some bs)] fuel dev m := by
  obtain ⟨p, hp, hcut⟩ := h.first
  obtain ⟨after, hdrop⟩ := hcut.drop_eq
  have hzero : 0 ∈ inv.buf.drop p := by
    rw [hdrop]
    exact List.mem_append_right t List.mem_cons_self
  obtain ⟨W, hW⟩ := unknownCommand_prints hzero
  refine ⟨inv.buf.drop p, W, hW, ?_⟩
  intro dev fuel m
  rw [lookup, hp]
  rfl

/-- The fuel is used up, or a command stops. -/
def StopsAt (commands : List Command) (s : Stop) : Prop :=
  s = .fuel ∨ ∃ command ∈ commands, ∃ inv m, command.func inv m = .error s

theorem lookup_stops (h : inv.Passes (t :: ts) tf) (dev : Device) (fuel : Nat) (m : Out)
    (commands : List Command) : Stops (StopsAt commands) (lookup dev fuel inv m commands) := by
  induction commands with
  | nil =>
      obtain ⟨bs, W, hW, hlookup⟩ := lookup_nil h
      rw [hlookup]
      exact (message_stops hW fuel dev m).mono fun s hs ↦ .inl hs
  | cons c commands ih =>
      rw [lookup_cons h]
      split_ifs
      · exact (stops_call _).mono fun s hs ↦ .inr ⟨c, List.mem_cons_self, inv, m, hs⟩
      · refine ih.mono ?_
        rintro s (hs | ⟨c', hmem, hstop⟩)
        · exact .inl hs
        · exact .inr ⟨c', List.mem_cons_of_mem c hmem, hstop⟩

end

/-! ## The line -/

section

variable (line : CString) (argv : Argv) (tf : BitVec 32)

/-- The words fit into `argv`, with the null pointer behind them. -/
theorem runcmd_of_lt (hlt : (words line).length < maxArgs) :
    ∃ inv : Invocation, inv.Passes (words line) tf ∧
      ∀ (dev : Device) (fuel : Nat) (funcs : Functions) (m : Out),
        runcmd dev fuel funcs line argv tf m =
          if words line = [] then .ok (0, m) else lookup dev fuel inv m (commands funcs) := by
  have hfirst : 0 < maxArgs := by decide
  obtain ⟨buf, argv', hparse, hholds⟩ :=
    ((atArg_start line (argv.set 0 none hfirst)).parse hfirst).1 hlt
  refine ⟨{ argc := (words line).length, argv := argv'.set (words line).length none hlt, tf, buf },
    ⟨rfl, hholds.set hlt none, Vector.getElem?_set_self hlt, rfl⟩, ?_⟩
  intro dev fuel funcs m
  have hparse' : parse (line.bytes ++ [0]) 0 0 (argv.set 0 none hfirst) = _ := hparse
  rw [runcmd, setArg_eq argv hfirst, Result.ok_bind, hparse', Result.ok_bind]
  simp only [setArg_eq argv' hlt, Result.ok_bind]
  exact if_congr List.length_eq_zero_iff rfl rfl

/-- The words do not fit. -/
theorem runcmd_of_le (hle : maxArgs ≤ (words line).length) (dev : Device) (fuel : Nat)
    (funcs : Functions) (m : Out) :
    runcmd dev fuel funcs line argv tf m =
      message tooManyArguments [.word (BitVec.ofNat 32 maxArgs)] fuel dev m := by
  have hfirst : 0 < maxArgs := by decide
  have hparse : parse (line.bytes ++ [0]) 0 0 (argv.set 0 none hfirst) = .ok .tooMany :=
    ((atArg_start line (argv.set 0 none hfirst)).parse hfirst).2 hle
  rw [runcmd, setArg_eq argv hfirst, Result.ok_bind, hparse, Result.ok_bind]
  rfl

theorem runcmd_stops (dev : Device) (fuel : Nat) (funcs : Functions) (m : Out) :
    Stops (StopsAt (commands funcs)) (runcmd dev fuel funcs line argv tf m) := by
  rcases Nat.lt_or_ge (words line).length maxArgs with hlt | hle
  · obtain ⟨inv, hpasses, hruncmd⟩ := runcmd_of_lt line argv tf hlt
    rw [hruncmd]
    cases hwords : words line with
    | nil =>
        rw [if_pos rfl]
        exact stops_ok _ _
    | cons t ts =>
        rw [if_neg (List.cons_ne_nil t ts)]
        rw [hwords] at hpasses
        exact lookup_stops hpasses dev fuel m _
  · obtain ⟨W, hW⟩ := tooManyArguments_prints
    rw [runcmd_of_le line argv tf hle]
    exact (message_stops hW fuel dev m).mono fun s hs ↦ .inl hs

/-- The names of the commands. -/
def commandNames : List (List Byte) :=
  [asciis "help".toList, asciis "kerninfo".toList, asciis "backtrace".toList]

theorem commands_names (funcs : Functions) :
    (commands funcs).map (·.name.bytes) = commandNames := rfl

theorem commandNames_nodup : commandNames.Nodup := by decide

/-- No command is invoked, and the result is 0. -/
theorem runcmd_returns
    (h : words line = [] ∨ (∀ name ∈ commandNames, (words line).head? ≠ some name) ∨
      maxArgs ≤ (words line).length) :
    ∃ r, Returns r ∧ ∀ (funcs : Functions) (fuel : Nat) (dev : Device) (m : Out),
      runcmd dev fuel funcs line argv tf m = r fuel dev m := by
  rcases Nat.lt_or_ge (words line).length maxArgs with hlt | hle
  · obtain ⟨inv, hpasses, hruncmd⟩ := runcmd_of_lt line argv tf hlt
    cases hwords : words line with
    | nil => exact ⟨_, returns_ok, fun funcs fuel dev m ↦ by rw [hruncmd, if_pos hwords]⟩
    | cons t ts =>
        have hne : words line ≠ [] := hwords ▸ List.cons_ne_nil t ts
        have hnone : t ∉ commandNames := by
          intro hmem
          refine (h.resolve_left hne).resolve_right (not_le.mpr hlt) t hmem ?_
          rw [hwords]
          rfl
        rw [hwords] at hpasses
        obtain ⟨bs, W, hW, hlookup⟩ := lookup_nil hpasses
        refine ⟨_, message_returns hW, ?_⟩
        intro funcs fuel dev m
        rw [← commands_names funcs] at hnone
        rw [hruncmd, if_neg hne, lookup_of_not_mem hpasses hnone, hlookup]
  · obtain ⟨W, hW⟩ := tooManyArguments_prints
    exact ⟨_, message_returns hW, fun funcs fuel dev m ↦ runcmd_of_le line argv tf hle ..⟩

end

/-- **Command lines.**  If the first of at most `MAXARGS - 1` words is the name of a
command, `runcmd` is one call of this command, with the words as arguments and a null
pointer behind them.  If there are no words, too many of them, or the first is no command,
it returns 0, whatever the commands do.  It never accesses anything but the line, up to the
NUL, and the elements of `argv`: if it does not return, the fuel is used up or a command does
not return. -/
theorem runcmd_invokes (line : CString) (argv : Argv) (tf : BitVec 32) :
    (∀ (funcs : Functions), ∀ command ∈ commands funcs,
      (words line).head? = some command.name.bytes → (words line).length < maxArgs →
      ∃ inv : Invocation, inv.Passes (words line) tf ∧
        ∀ (dev : Device) (fuel : Nat) (m : Out),
          runcmd dev fuel funcs line argv tf m = call (command.func inv m)) ∧
    ((words line = [] ∨ (∀ name ∈ commandNames, (words line).head? ≠ some name) ∨
        maxArgs ≤ (words line).length) →
      ∃ n, ∀ fuel, n ≤ fuel → ∀ (dev : Device) (m : Out), ∃ m', ∀ funcs : Functions,
        runcmd dev fuel funcs line argv tf m = .ok (0, m')) ∧
    ∀ (dev : Device) (fuel : Nat) (funcs : Functions) (m : Out),
      Stops (StopsAt (commands funcs)) (runcmd dev fuel funcs line argv tf m) := by
  refine ⟨?_, ?_, runcmd_stops line argv tf⟩
  · intro funcs command hmem hhead hlt
    obtain ⟨inv, hpasses, hruncmd⟩ := runcmd_of_lt line argv tf hlt
    refine ⟨inv, hpasses, ?_⟩
    intro dev fuel m
    cases hwords : words line with
    | nil =>
        rw [hwords] at hhead
        cases hhead
    | cons t ts =>
        rw [hwords] at hhead hpasses
        have hname : t = command.name.bytes := Option.some.inj hhead
        rw [hruncmd, if_neg (hwords ▸ List.cons_ne_nil t ts)]
        exact lookup_of_mem hpasses
          (commands_names funcs ▸ commandNames_nodup) hmem hname dev fuel m
  · intro h
    obtain ⟨r, ⟨n, hn⟩, hruncmd⟩ := runcmd_returns line argv tf h
    refine ⟨n, ?_⟩
    intro fuel hfuel dev m
    obtain ⟨m', hm'⟩ := hn fuel hfuel dev m
    exact ⟨m', fun funcs ↦ (hruncmd funcs fuel dev m).trans hm'⟩

/-- The line `help me`, with spaces around it. -/
def helpMe : CString := .literal "  help \tme\n"

/-- The line `halt`. -/
def halt : CString := .literal "halt"

/-- Commands that return 7. -/
def sevens : Functions := ⟨fun _ m ↦ .ok (7, m), fun _ m ↦ .ok (7, m), fun _ m ↦ .ok (7, m)⟩

theorem helpMe_invokes :
    (∃ inv : Invocation, inv.Passes [asciis "help".toList, asciis "me".toList] 0 ∧
      ∀ (dev : Device) (fuel : Nat) (m : Out),
        runcmd dev fuel sevens helpMe (Vector.replicate maxArgs none) 0 m = .ok (7, m)) ∧
      ∃ n, ∀ fuel, n ≤ fuel → ∀ (dev : Device) (m : Out), ∃ m', ∀ funcs : Functions,
        runcmd dev fuel funcs halt (Vector.replicate maxArgs none) 0 m = .ok (0, m') := by
  have hwords : words helpMe = [asciis "help".toList, asciis "me".toList] := by decide +kernel
  constructor
  · have hinvokes := (runcmd_invokes helpMe (Vector.replicate maxArgs none) 0).1
    rw [hwords] at hinvokes
    exact hinvokes sevens _ List.mem_cons_self rfl (by decide)
  · exact (runcmd_invokes halt (Vector.replicate maxArgs none) 0).2.1
      (.inr (.inl (by decide +kernel)))

end JosKernel.Monitor
