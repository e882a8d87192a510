import JosKernel.Lib.Bytes
import JosKernel.Lib.Result
import Mathlib.Algebra.Ring.Int.Defs
import Mathlib.Algebra.Ring.Nat
import Mathlib.Data.List.TakeWhile
import Mathlib.Tactic.Common

/-!
# `vprintfmt`

The formatter of `lib/printfmt.c`, from the format string and the arguments to the
calls of `putch`.

## The model

* `putch` is any function on a state, as it is in the code; a character code is a
  32-bit word.
* The format is a C string, and reading it past its NUL or before its first byte is a
  `Stop`.  So is reading a string argument past its end, and taking an argument that
  is not there or not of the type asked for.
* `int` values are integers wrapped to 32 bits.  On the wrapped address of the one
  entry of `error_string` that is out of range, see `errorString`.
* The outer loop takes fuel, which a call of `printfmt` for `%e` shares.
* Strings do not change while they are printed: the callback does not write to them.
-/

namespace JosKernel.Printf

/-! ## Strings, arguments and integers -/

/-- Why a run ends other than by returning. -/
inductive Stop where
  /-- The fuel is used up. -/
  | fuel
  /-- A read of the format outside of it. -/
  | fmt (i : Int)
  /-- A read of a string argument past its end. -/
  | str
  /-- A `va_arg` without an argument of its type. -/
  | arg
deriving DecidableEq, Repr

/-- A character code, as `putch` is given it. -/
abbrev Code := BitVec 32

/-- A C string: its bytes up to the NUL. -/
structure CString where
  bytes : List Byte
  ne_zero : ∀ b ∈ bytes, b ≠ 0

/-- A string literal, up to the first NUL in it. -/
def CString.literal (s : String) : CString where
  bytes := (asciis s.toList).takeWhile (· ≠ 0)
  ne_zero := by
    intro b hb
    simpa using List.mem_takeWhile_imp hb

theorem CString.zero_not_mem (s : CString) : 0 ∉ s.bytes := fun h ↦ s.ne_zero 0 h rfl

/-- The byte at index `i`. -/
def CString.read (fmt : CString) (i : Nat) : Except Stop Byte :=
  match fmt.bytes[i]? with
  | some b => .ok b
  | none => if i = fmt.bytes.length then .ok 0 else .error (.fmt i)

/-- A byte other than NUL is inside the string. -/
theorem CString.lt_of_read {fmt : CString} {i : Nat} {b : Byte} (h : fmt.read i = .ok b)
    (hb : b ≠ 0) : i < fmt.bytes.length := by
  unfold CString.read at h
  split at h
  next hi => exact (List.getElem?_eq_some_iff.mp hi).1
  next =>
    split_ifs at h
    exact absurd (Except.ok.inj h).symm hb

/-- An argument of a variadic call. -/
inductive Arg where
  /-- `int`, `unsigned`, `long`, `unsigned long` or `void *`. -/
  | word (w : BitVec 32)
  /-- `long long` or `unsigned long long`. -/
  | dword (w : BitVec 64)
  /-- `char *`: `NULL` or the bytes that can be read there. -/
  | str (p : Option (List Byte))
deriving DecidableEq, Repr

/-- The value of an `int` after an arithmetic operation. -/
def wrap32 (n : Int) : Int := n.bmod (2 ^ 32)

theorem wrap32_range (n : Int) : -2 ^ 31 ≤ wrap32 n ∧ wrap32 n < 2 ^ 31 :=
  ⟨Int.le_bmod (by decide), Int.bmod_lt (by decide)⟩

theorem wrap32_of_range {n : Int} (h : -2 ^ 31 ≤ n ∧ n < 2 ^ 31) : wrap32 n = n :=
  Int.bmod_eq_of_le (by omega) (by omega)

theorem wrap32_sub (n m : Int) : wrap32 (wrap32 n - m) = wrap32 (n - m) := Int.bmod_sub_bmod

theorem wrap32_neg (n : Int) : wrap32 (-wrap32 n) = wrap32 (-n) := by
  rw [← Int.zero_sub, ← Int.zero_sub]
  exact Int.sub_bmod_bmod

theorem wrap32_mul_add (n m d : Int) : wrap32 (wrap32 n * m + d) = wrap32 (n * m + d) := by
  unfold wrap32
  rw [← Int.bmod_add_bmod, Int.bmod_mul_bmod, Int.bmod_add_bmod]

/-- `va_arg(ap, int)`. -/
def vaInt : List Arg → Except Stop (Int × List Arg)
  | .word w :: ap => .ok (w.toInt, ap)
  | _ => .error .arg

/-- `va_arg(ap, char *)`. -/
def vaStr : List Arg → Except Stop (Option (List Byte) × List Arg)
  | .str p :: ap => .ok (p, ap)
  | _ => .error .arg

/-- `getuint(&ap, lflag)`. -/
def getuint (lflag : Nat) : List Arg → Except Stop (BitVec 64 × List Arg)
  | .dword w :: ap => if 2 ≤ lflag then .ok (w, ap) else .error .arg
  | .word w :: ap => if 2 ≤ lflag then .error .arg else .ok (w.setWidth 64, ap)
  | _ => .error .arg

/-- `getint(&ap, lflag)`. -/
def getint (lflag : Nat) : List Arg → Except Stop (BitVec 64 × List Arg)
  | .dword w :: ap => if 2 ≤ lflag then .ok (w, ap) else .error .arg
  | .word w :: ap => if 2 ≤ lflag then .error .arg else .ok (w.signExtend 64, ap)
  | _ => .error .arg

/-! ## `error_string` -/

/-- `MAXERROR`. -/
def maxError : Int := 8

/-- `E_INVAL`. -/
def eInval : Int := 3

/-- `error_string`. -/
def errorTable : List (Option (List Byte)) :=
  [none,
    some (asciis "unspecified error".toList),
    some (asciis "bad environment".toList),
    some (asciis "invalid parameter".toList),
    some (asciis "out of memory".toList),
    some (asciis "out of environments".toList),
    some (asciis "segmentation fault".toList),
    none]

/-- `err >= MAXERROR || (p = error_string[err]) == NULL` fails with this `p`.  An
entry has four bytes, so `error_string + err` depends on `err` modulo `2 ^ 30`: the
entry read for the one negative `err` that gets here, `INT_MIN`, is entry 0. -/
def errorString (err : Int) : Option (List Byte) :=
  if maxError ≤ err then none else (errorTable[(err % 2 ^ 30).toNat]?).join

/-! ## Numbers -/

section

variable {σ : Type} (putch : Code → σ → σ)

/-- `for (; width > 0; width--) putch(padc, putdat);` and the width it leaves. -/
def padLoop (padc : Code) (width : Int) (s : σ) : Int × σ :=
  if 0 < width then padLoop padc (width - 1) (putch padc s) else (width, s)
termination_by width.toNat

/-- A base that `printnum` can print in. -/
structure Base where
  val : Nat
  two_le : 2 ≤ val
  le_sixteen : val ≤ 16

/-- `"0123456789abcdef"[d]`. -/
def digit (d : Nat) : Code := (((asciis "0123456789abcdef".toList)[d]?).getD 0).setWidth 32

/-- `printnum(putch, putdat, num, base, width, padc)`. -/
def printnum (base : Base) (padc : Code) (num : Nat) (width : Int) (s : σ) : σ :=
  let s :=
    if _h : base.val ≤ num then printnum base padc (num / base.val) (wrap32 (width - 1)) s
    -- print any needed pad characters before first digit
    else (padLoop putch padc (wrap32 (width - 1)) s).2
  putch (digit (num % base.val)) s
termination_by num
decreasing_by
  have := base.two_le
  exact Nat.div_lt_self (by omega) (by omega)

/-! ## Strings -/

/-- `strnlen(s, size)`. -/
def strnlen : List Byte → Nat → Except Stop Nat
  | _, 0 => .ok 0
  | [], _ + 1 => .error .str
  | b :: bs, size + 1 => if b = 0 then .ok 0 else return (← strnlen bs size) + 1

/-- The loop of `%s` over the characters of the string, and the width it leaves. -/
def strLoop (altflag : Bool) : List Byte → Int → Int → σ → Except Stop (Int × σ)
  | [], _, _, _ => .error .str
  | b :: bs, precision, width, s =>
      if b = 0 then .ok (width, s)
      else if precision < 0 ∨ 0 ≤ precision - 1 then
        let ch : Code := b.signExtend 32
        let s :=
          if altflag ∧ (ch.toInt < 0x20 ∨ 0x7E < ch.toInt) then putch 0x3F s else putch ch s
        strLoop altflag bs (if precision < 0 then precision else precision - 1)
          (wrap32 (width - 1)) s
      else .ok (width, s)

end

/-! ## Escapes -/

/-- The characters that `goto reswitch`. -/
inductive Flag where
  | minus
  | zero
  | digit
  | star
  | dot
  | alt
  | long
deriving DecidableEq, Repr

def Flag.ofChar (ch : Byte) : Option Flag :=
  if ch = ascii '-' then some .minus
  else if ch = ascii '0' then some .zero
  else if ascii '1' ≤ ch ∧ ch ≤ ascii '9' then some .digit
  else if ch = ascii '*' then some .star
  else if ch = ascii '.' then some .dot
  else if ch = ascii '#' then some .alt
  else if ch = ascii 'l' then some .long
  else none

/-- The other cases of the switch, but for `'e'` and the default. -/
inductive Conv where
  | c
  | s
  | d
  | u
  | o
  | p
  | x
  | percent
deriving DecidableEq, Repr

def Conv.ofChar (ch : Byte) : Option Conv :=
  if ch = ascii 'c' then some .c
  else if ch = ascii 's' then some .s
  else if ch = ascii 'd' then some .d
  else if ch = ascii 'u' then some .u
  else if ch = ascii 'o' then some .o
  else if ch = ascii 'p' then some .p
  else if ch = ascii 'x' then some .x
  else if ch = ascii '%' then some .percent
  else none

theorem Flag.ofChar_ne_zero {ch : Byte} {f : Flag} (h : Flag.ofChar ch = some f) : ch ≠ 0 := by
  rintro rfl
  exact absurd h (by rw [show Flag.ofChar 0 = none by decide]; simp)

/-- The local variables that an escape sets up. -/
structure Esc where
  padc : Byte := ascii ' '
  width : Int := -1
  precision : Int := -1
  lflag : Nat := 0
  altflag : Bool := false
deriving DecidableEq, Repr

/-- `process_precision`. -/
def Esc.processPrecision (e : Esc) : Esc :=
  if e.width < 0 then { e with width := e.precision, precision := -1 } else e

mutual

/-- The switch from `reswitch` on: the flags, widths and precisions, up to a
character that is none of these, which has then been read. -/
def reswitch (fmt : CString) (i : Nat) (ap : List Arg) (e : Esc) :
    Except Stop (Byte × Nat × List Arg × Esc) :=
  match _hread : fmt.read i with
  | .error stop => .error stop
  | .ok ch =>
      match _hflag : Flag.ofChar ch with
      | some .minus => reswitch fmt (i + 1) ap { e with padc := ascii '-' }
      | some .zero => reswitch fmt (i + 1) ap { e with padc := ascii '0' }
      | some .digit => widthField fmt (i + 1) ap { e with precision := ch.toNat - 0x30 }
      | some .star =>
          match vaInt ap with
          | .error stop => .error stop
          | .ok (n, ap) => reswitch fmt (i + 1) ap { e with precision := n }.processPrecision
      | some .dot => reswitch fmt (i + 1) ap { e with width := if e.width < 0 then 0 else e.width }
      | some .alt => reswitch fmt (i + 1) ap { e with altflag := true }
      | some .long => reswitch fmt (i + 1) ap { e with lflag := e.lflag + 1 }
      | none => .ok (ch, i + 1, ap, e)
termination_by 2 * (fmt.bytes.length - i)
decreasing_by
  all_goals
    have := CString.lt_of_read _hread (Flag.ofChar_ne_zero _hflag)
    omega

/-- The loop over the digits of a width field after its first one. -/
def widthField (fmt : CString) (i : Nat) (ap : List Arg) (e : Esc) :
    Except Stop (Byte × Nat × List Arg × Esc) :=
  match _hread : fmt.read i with
  | .error stop => .error stop
  | .ok ch =>
      if _hch : ch < ascii '0' ∨ ascii '9' < ch then reswitch fmt i ap e.processPrecision
      else
        widthField fmt (i + 1) ap
          { e with precision := wrap32 (e.precision * 10 + ch.toNat - 0x30) }
termination_by 2 * (fmt.bytes.length - i) + 1
decreasing_by
  · omega
  · have := CString.lt_of_read _hread (by rintro rfl; exact _hch (.inl (by decide)))
    omega

end

/-! ## Conversions -/

section

variable {σ : Type} (putch : Code → σ → σ)

/-- The padding before the string in `case 's'`. -/
def padLeft (e : Esc) (p : List Byte) (s : σ) : Except Stop (Int × σ) :=
  if 0 < e.width ∧ e.padc ≠ ascii '-' then do
    let len ← strnlen p (e.precision % 2 ^ 32).toNat
    return padLoop putch (e.padc.setWidth 32) (wrap32 (e.width - len)) s
  else .ok (e.width, s)

/-- The string that `%s` prints. -/
def stringOrNull (p : Option (List Byte)) : List Byte := p.getD (asciis "(null)".toList ++ [0])

/-- `case 's'`. -/
def convStr (e : Esc) (ap : List Arg) (s : σ) : Except Stop (List Arg × σ) := do
  let (p, ap) ← vaStr ap
  let (width, s) ← padLeft putch e (stringOrNull p) s
  let (width, s) ← strLoop putch e.altflag (stringOrNull p) e.precision width s
  return (ap, (padLoop putch 0x20 width s).2)

/-- The code at `number`. -/
def number (e : Esc) (num : BitVec 64) (base : Base) (s : σ) : σ :=
  printnum putch base (e.padc.setWidth 32) num.toNat e.width s

/-- `case 'd'`. -/
def convDecimal (e : Esc) (ap : List Arg) (s : σ) : Except Stop (List Arg × σ) := do
  let (num, ap) ← getint e.lflag ap
  let base : Base := ⟨10, by decide, by decide⟩
  if num.toInt < 0 then return (ap, number putch e (-num) base (putch 0x2D s))
  else return (ap, number putch e num base s)

/-- `case 'u'`, `case 'o'` and `case 'x'`. -/
def convUnsigned (base : Base) (e : Esc) (ap : List Arg) (s : σ) : Except Stop (List Arg × σ) := do
  let (num, ap) ← getuint e.lflag ap
  return (ap, number putch e num base s)

/-- `case 'p'`. -/
def convPointer (e : Esc) (ap : List Arg) (s : σ) : Except Stop (List Arg × σ) :=
  match ap with
  | .word w :: ap =>
      .ok (ap, number putch e (w.setWidth 64) ⟨16, by decide, by decide⟩
        (putch 0x78 (putch 0x30 s)))
  | _ => .error .arg

/-- `case 'c'`. -/
def convChar (ap : List Arg) (s : σ) : Except Stop (List Arg × σ) := do
  let (n, ap) ← vaInt ap
  return (ap, putch (BitVec.ofInt 32 n) s)

/-- The value of `err` in `case 'e'`, and the format and the arguments that `printfmt`
is called with. -/
def convError (ap : List Arg) : Except Stop ((CString × List Arg) × List Arg) := do
  let (err, ap) ← vaInt ap
  let err := if err < 0 then wrap32 (-err) else err
  match errorString err with
  | none => return ((.literal "error %d", [.word (BitVec.ofInt 32 err)]), ap)
  | some p => return ((.literal "%s", [.str (some (p ++ [0]))]), ap)

/-- The conversions but for `%e`. -/
def convert (conv : Conv) (e : Esc) (ap : List Arg) (s : σ) : Except Stop (List Arg × σ) :=
  match conv with
  | .c => convChar putch ap s
  | .s => convStr putch e ap s
  | .d => convDecimal putch e ap s
  | .u => convUnsigned putch ⟨10, by decide, by decide⟩ e ap s
  | .o => convUnsigned putch ⟨8, by decide, by decide⟩ e ap s
  | .p => convPointer putch e ap s
  | .x => convUnsigned putch ⟨16, by decide, by decide⟩ e ap s
  | .percent => .ok (ap, putch 0x25 s)

/-! ## `vprintfmt` -/

/-- The loop up to the next `%` or the NUL: the index after the `%`, if it is one. -/
def printText (fmt : CString) (i : Nat) (s : σ) : Except Stop (Option Nat × σ) :=
  match _hread : fmt.read i with
  | .error stop => .error stop
  | .ok ch =>
      if ch = ascii '%' then .ok (some (i + 1), s)
      else if _hch : ch = 0 then .ok (none, s)
      else printText fmt (i + 1) (putch (ch.setWidth 32) s)
termination_by fmt.bytes.length - i
decreasing_by
  have := CString.lt_of_read _hread _hch
  omega

theorem printText_eq {fmt : CString} {i : Nat} {ch : Byte} (h : fmt.read i = .ok ch) (s : σ) :
    printText putch fmt i s =
      if ch = ascii '%' then .ok (some (i + 1), s)
      else if ch = 0 then .ok (none, s)
      else printText putch fmt (i + 1) (putch (ch.setWidth 32) s) := by
  rw [printText]
  split <;> simp_all

theorem printText_error {fmt : CString} {i : Nat} {stop : Stop} (h : fmt.read i = .error stop)
    (s : σ) : printText putch fmt i s = .error stop := by
  rw [printText]
  split <;> simp_all

/-- `for (; fmt[-1] != '%'; fmt--);` -/
def rewind (fmt : CString) : Nat → Except Stop Nat
  | 0 => .error (.fmt (-1))
  | i + 1 => do
      let b ← fmt.read i
      if b ≠ ascii '%' then rewind fmt i else pure (i + 1)

/-- The rest of a pass of the outer loop after a `%`; `go` is the loop from the next
pass on, and what a call of `printfmt` runs. -/
def escape (go : CString → Nat → List Arg → σ → Except Stop σ) (fmt : CString) (i : Nat)
    (ap : List Arg) (s : σ) : Except Stop σ := do
  let (ch, i, ap, e) ← reswitch fmt i ap {}
  if ch = ascii 'e' then
    let ((fmt', ap'), ap) ← convError ap
    let s ← go fmt' 0 ap' s
    go fmt i ap s
  else
    match Conv.ofChar ch with
    | some conv =>
        let (ap, s) ← convert putch conv e ap s
        go fmt i ap s
    | none =>
        -- unrecognized escape sequence: just print it literally
        let s := putch 0x25 s
        let i ← rewind fmt (i - 1)
        go fmt i ap s

/-- `vprintfmt(putch, putdat, fmt + i, ap)`. -/
def vprintfmt : Nat → CString → Nat → List Arg → σ → Except Stop σ
  | 0, _, _, _, _ => .error .fuel
  | fuel + 1, fmt, i, ap, s => do
      match ← printText putch fmt i s with
      | (none, s) => return s
      | (some i, s) => escape putch (vprintfmt fuel) fmt i ap s

end

end JosKernel.Printf
