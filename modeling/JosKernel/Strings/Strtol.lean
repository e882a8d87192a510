import JosKernel.Lib.Digits
import JosKernel.Printf.Format

/-!
# `strtol`

The parser of numbers of `lib/string.c`.

## The model

* A string is the list of the bytes that can be read from its address on, and
  `*endptr` is the rest of it.  Reading past its end is `none`.
* `char` is signed.  A `long` has 32 bits, and its arithmetic wraps.
-/

namespace JosKernel.Strings

open Printf (wrap32 wrap32_mul_add)

/-! ## The code -/

/-- A space or a tab. -/
def isBlank (b : Byte) : Bool := b = ascii ' ' ∨ b = ascii '\t'

/-- The value of a character as a digit. -/
def digitValue (b : Byte) : Option Int :=
  if 0x30 ≤ b.toInt ∧ b.toInt ≤ 0x39 then some (b.toInt - 0x30)
  else if 0x61 ≤ b.toInt ∧ b.toInt ≤ 0x7A then some (b.toInt - 0x61 + 10)
  else if 0x41 ≤ b.toInt ∧ b.toInt ≤ 0x5A then some (b.toInt - 0x41 + 10)
  else none

/-- The hex or octal base prefix: the base and the string after it. -/
def strtolBase (base : Int) (s : List Byte) : Option (Int × List Byte) :=
  if base = 0 ∨ base = 16 then
    match s with
    | [] => none
    | b :: s' =>
        if b = ascii '0' then
          match s' with
          | [] => none
          | b' :: s'' =>
              if b' = ascii 'x' then some (16, s'')
              else if base = 0 then some (8, s')
              else some (base, s)
        else if base = 0 then some (10, s)
        else some (base, s)
  else some (base, s)

/-- The loop over the digits. -/
def strtolDigits (base : Int) : List Byte → Int → Option (Int × List Byte)
  | [], _ => none
  | b :: s, val =>
      match digitValue b with
      | none => some (val, b :: s)
      | some dig =>
          if base ≤ dig then some (val, b :: s)
          else strtolDigits base s (wrap32 (val * base + dig))

/-- `strtol(s, endptr, base)`: the result, and the string at `*endptr`. -/
def strtol (s : List Byte) (base : Int) : Option (Int × List Byte) := do
  let s := s.dropWhile isBlank
  let b ← s.head?
  let neg := b = ascii '-'
  let s := if b = ascii '+' ∨ b = ascii '-' then s.tail else s
  let (base, s) ← strtolBase base s
  let (val, s) ← strtolDigits base s 0
  return (if neg then wrap32 (-val) else val, s)

/-- The steps of `strtol`, the string after its blanks being `c :: u`. -/
theorem strtol_of_steps {base base' val : Int} {s t u u' rest : List Byte} {c : Byte}
    (hdrop : s.dropWhile isBlank = c :: u)
    (hsign : (if c = ascii '+' ∨ c = ascii '-' then u else c :: u) = u')
    (hbase : strtolBase base u' = some (base', t))
    (hdigits : strtolDigits base' t 0 = some (val, rest)) :
    strtol s base = some (if c = ascii '-' then wrap32 (-val) else val, rest) := by
  simp only [strtol, hdrop, List.head?_cons, Option.bind_eq_bind, Option.bind_some, List.tail_cons,
    hsign, hbase, hdigits]
  rfl

/-! ## Numerals -/

variable {b n : Nat} {rest : List Byte}

theorem digitValue_digitByte {d : Nat} (h : d < 16) :
    digitValue (digitByte d) = some (d : Int) := by
  revert d
  decide

theorem strtolDigits_nul (base val : Int) :
    strtolDigits base (0 :: rest) val = some (val, 0 :: rest) := by
  have hnul : digitValue 0 = none := by decide
  rw [strtolDigits, hnul]

/-- One digit. -/
theorem strtolDigits_cons {d : Nat} (hd : d < b) (hb : b ≤ 16) (val : Int) :
    strtolDigits b (digitByte d :: rest) val = strtolDigits b rest (wrap32 (val * b + d)) := by
  rw [strtolDigits, digitValue_digitByte (by omega)]
  exact if_neg (by omega)

/-- **A numeral is read back.**  Its value comes out modulo `2 ^ 32`. -/
theorem strtolDigits_digits (hb : 1 < b) (hb' : b ≤ 16) :
    strtolDigits b (digits b n ++ rest) 0 = strtolDigits b rest (wrap32 n) := by
  induction n using digits_induction hb generalizing rest with
  | one d hd =>
      rw [digits_of_lt hd, List.singleton_append, strtolDigits_cons hd hb', Int.zero_mul,
        Int.zero_add]
  | snoc n d hn hd ih =>
      rw [digits_snoc hb hn hd, List.append_assoc, ih, List.singleton_append,
        strtolDigits_cons hd hb', wrap32_mul_add]
      push_cast
      rfl

theorem strtolDigits_numeral (hb : 1 < b) (hb' : b ≤ 16) (n : Nat) (rest : List Byte) :
    strtolDigits b (digits b n ++ 0 :: rest) 0 = some (wrap32 n, 0 :: rest) := by
  rw [strtolDigits_digits hb hb', strtolDigits_nul]

end JosKernel.Strings
