import JosKernel.Console.Direct
import JosKernel.Lib.Tokens

/-!
# `runcmd`

The command interpreter of `kern/monitor.c`: `runcmd` cuts its line into words in place,
and looks up the first one in the table of commands.

## The model

* The line is its bytes and the NUL.  A pointer into it is an index.  Reading or writing
  anything else is a `Fault`, and so is an element of `argv` that is not there.
* `argv` has any pointers in it when `runcmd` is called.
* The functions of the commands are any functions of what they are called with and of the
  console.  The descriptions of the commands are for `mon_help` only, and left out.
-/

namespace JosKernel.Monitor

open Console Printf

/-- `MAXARGS`. -/
def maxArgs : Nat := 16

/-- Why `runcmd` ends other than by returning. -/
inductive Fault where
  /-- An access to the line outside of it. -/
  | line (p : Nat)
  /-- An access to `argv` outside of it. -/
  | argv (i : Nat)
  /-- A string at a null pointer. -/
  | null
  /-- A call of `cprintf` or of a command does not return. -/
  | stop (s : Stop)
deriving DecidableEq, Repr

/-! ## Memory -/

/-- `*p`. -/
def load (buf : List Byte) (p : Nat) : Except Fault Byte :=
  if h : p < buf.length then .ok buf[p] else .error (.line p)

/-- `*p = b`. -/
def store (buf : List Byte) (p : Nat) (b : Byte) : Except Fault (List Byte) :=
  if p < buf.length then .ok (buf.set p b) else .error (.line p)

theorem lt_of_load {buf : List Byte} {p : Nat} {b : Byte} (h : load buf p = .ok b) :
    p < buf.length := by
  unfold load at h
  split_ifs at h
  assumption

theorem length_of_store {buf buf' : List Byte} {p : Nat} {b : Byte}
    (h : store buf p b = .ok buf') : buf'.length = buf.length := by
  unfold store at h
  split_ifs at h
  cases h
  exact List.length_set

/-- `argv`. -/
abbrev Argv := Vector (Option Nat) maxArgs

/-- `argv[i]`. -/
def getArg (argv : Argv) (i : Nat) : Except Fault (Option Nat) :=
  if h : i < maxArgs then .ok argv[i] else .error (.argv i)

/-- `argv[i] = p`. -/
def setArg (argv : Argv) (i : Nat) (p : Option Nat) : Except Fault Argv :=
  if h : i < maxArgs then .ok (argv.set i p h) else .error (.argv i)

theorem lt_of_setArg {argv argv' : Argv} {i : Nat} {p : Option Nat}
    (h : setArg argv i p = .ok argv') : i < maxArgs := by
  unfold setArg at h
  split_ifs at h
  assumption

/-! ## Strings -/

/-- `strchr(s, c)`, where `s` has the given bytes before its NUL. -/
def strchr : List Byte → Byte → Option Nat
  | [], _ => none
  | b :: s, c => if b = c then some 0 else (strchr s c).map (· + 1)

/-- `strcmp(p, q)`, where `p` is in the line and `q` has the given bytes before its NUL. -/
def strcmp (buf : List Byte) (p : Nat) : List Byte → Except Fault Int
  | [] => do
      let b ← load buf p
      return b.toNat
  | c :: q => do
      let b ← load buf p
      if b ≠ 0 ∧ b = c then strcmp buf (p + 1) q else return (b.toNat : Int) - c.toNat

/-- A pointer that is not null. -/
def nonNull : Option Nat → Except Fault Nat
  | none => .error .null
  | some p => .ok p

/-! ## The arguments -/

/-- `WHITESPACE`. -/
def whitespace : List Byte := asciis "\t\r\n ".toList

/-- `while (*buf && strchr(WHITESPACE, *buf)) *buf++ = 0;` -/
def gobble (buf : List Byte) (p : Nat) : Except Fault (List Byte × Nat) :=
  match _hload : load buf p with
  | .error fault => .error fault
  | .ok b =>
      if b ≠ 0 ∧ strchr whitespace b ≠ none then
        match _hstore : store buf p 0 with
        | .error fault => .error fault
        | .ok buf => gobble buf (p + 1)
      else .ok (buf, p)
termination_by buf.length - p
decreasing_by
  have := lt_of_load _hload
  have := length_of_store _hstore
  omega

/-- `while (*buf && !strchr(WHITESPACE, *buf)) buf++;` -/
def skip (buf : List Byte) (p : Nat) : Except Fault Nat :=
  match _hload : load buf p with
  | .error fault => .error fault
  | .ok b => if b ≠ 0 ∧ strchr whitespace b = none then skip buf (p + 1) else .ok p
termination_by buf.length - p
decreasing_by
  have := lt_of_load _hload
  omega

/-- How the loop over the arguments ends. -/
inductive Parsed where
  /-- There is an argument too many. -/
  | tooMany
  | args (buf : List Byte) (argc : Nat) (argv : Argv)

/-- The loop `while (1)`. -/
def parse (buf : List Byte) (p argc : Nat) (argv : Argv) : Except Fault Parsed :=
  match gobble buf p with
  | .error fault => .error fault
  | .ok (buf, p) =>
      match load buf p with
      | .error fault => .error fault
      | .ok b =>
          if b = 0 then .ok (.args buf argc argv)
          else if argc = maxArgs - 1 then .ok .tooMany
          else
            -- save and scan past next arg
            match _hset : setArg argv argc (some p) with
            | .error fault => .error fault
            | .ok argv =>
                match skip buf p with
                | .error fault => .error fault
                | .ok p => parse buf p (argc + 1) argv
termination_by maxArgs - argc
decreasing_by
  have := lt_of_setArg _hset
  omega

/-! ## The commands -/

/-- What a command is called with, and the line that `argv` points into. -/
structure Invocation where
  argc : Nat
  argv : Argv
  tf : BitVec 32
  buf : List Byte

/-- The function of a command. -/
abbrev Func := Invocation → Out → Except Stop (Int × Out)

/-- `struct command`. -/
structure Command where
  name : CString
  func : Func

/-- The functions of the table. -/
structure Functions where
  monHelp : Func
  monKerninfo : Func
  monBacktrace : Func

/-- `commands`. -/
def commands (funcs : Functions) : List Command :=
  [⟨.literal "help", funcs.monHelp⟩,
    ⟨.literal "kerninfo", funcs.monKerninfo⟩,
    ⟨.literal "backtrace", funcs.monBacktrace⟩]

/-- `"Too many arguments (max %d)\n"`. -/
def tooManyArguments : CString := ⟨asciis "Too many arguments (max %d)\n".toList, by decide +kernel⟩

/-- `"Unknown command '%s'\n"`. -/
def unknownCommand : CString := ⟨asciis "Unknown command '%s'\n".toList, by decide +kernel⟩

/-- A call that may not return. -/
def call {α : Type} (r : Except Stop α) : Except Fault α := r.mapError .stop

/-- The rest of `runcmd` after the lookup of `argv[0]` has passed over some commands: the
lookup in the others. -/
def lookup (dev : Device) (fuel : Nat) (inv : Invocation) (m : Out) :
    List Command → Except Fault (Int × Out)
  | [] => do
      let arg ← getArg inv.argv 0
      let (_, m) ← call (cprintf dev fuel unknownCommand [.str (arg.map inv.buf.drop)] m)
      return (0, m)
  | command :: commands => do
      let p ← nonNull (← getArg inv.argv 0)
      if (← strcmp inv.buf p command.name.bytes) = 0 then call (command.func inv m)
      else lookup dev fuel inv m commands

/-- `runcmd(buf, tf)`. -/
def runcmd (dev : Device) (fuel : Nat) (funcs : Functions) (line : CString) (argv : Argv)
    (tf : BitVec 32) (m : Out) : Except Fault (Int × Out) := do
  let argv ← setArg argv 0 none
  match ← parse (line.bytes ++ [0]) 0 0 argv with
  | .tooMany =>
      let (_, m) ← call (cprintf dev fuel tooManyArguments [.word (BitVec.ofNat 32 maxArgs)] m)
      return (0, m)
  | .args buf argc argv =>
      let argv ← setArg argv argc none
      if argc = 0 then return (0, m)
      lookup dev fuel { argc, argv, tf, buf } m (commands funcs)

end JosKernel.Monitor
