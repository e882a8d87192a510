import JosKernel.Lib.Bytes
import Mathlib.Algebra.Ring.Nat
import Mathlib.Tactic.Common

/-!
# Numerals

The characters of the numeral of a natural number in a base up to 16, as they are
written in a string: most significant digit first, and no zero before it.  A numeral is
put together, and taken apart, at its last digit.
-/

namespace JosKernel

universe u

/-- The character of a digit. -/
def digitByte (d : Nat) : Byte := ascii d.digitChar

/-- The characters of the numeral of `n` in base `b`. -/
def digits (b n : Nat) : List Byte := asciis (Nat.toDigits b n)

variable {b n : Nat}

theorem digitByte_toNat {d : Nat} (h : d < 16) :
    (digitByte d).toNat = if d < 10 then 0x30 + d else 0x57 + d := by
  revert d
  decide

theorem digits_of_lt (h : n < b) : digits b n = [digitByte n] := by
  rw [digits, Nat.toDigits_of_lt_base h]
  rfl

/-- The last digit comes off the end. -/
theorem digits_of_le (hb : 1 < b) (h : b ≤ n) :
    digits b n = digits b (n / b) ++ [digitByte (n % b)] := by
  rw [digits, Nat.toDigits_of_base_le hb h, asciis, List.map_append]
  rfl

theorem length_digits_pos (b n : Nat) : 0 < (digits b n).length := by
  rw [digits, asciis, List.length_map]
  exact Nat.length_toDigits_pos

theorem length_digits_le_iff {k : Nat} (hb : 1 < b) (hk : 0 < k) :
    (digits b n).length ≤ k ↔ n < b ^ k := by
  rw [digits, asciis, List.length_map, Nat.length_toDigits_le_iff hb hk]

/-- Induction on the last digit. -/
theorem digits_induction {motive : Nat → Prop} (hb : 1 < b) (one : ∀ d, d < b → motive d)
    (snoc : ∀ n d, 0 < n → d < b → motive n → motive (n * b + d)) (n : Nat) : motive n := by
  by_cases h : b ≤ n
  · have hlt : n / b < n := Nat.div_lt_self (by omega) hb
    have := snoc (n / b) (n % b) (Nat.div_pos h (by omega)) (Nat.mod_lt n (by omega))
      (digits_induction hb one snoc (n / b))
    rwa [Nat.div_add_mod'] at this
  · exact one n (Nat.lt_of_not_le h)
termination_by n
decreasing_by exact hlt

theorem digits_snoc (hb : 1 < b) {d : Nat} (hn : 0 < n) (hd : d < b) :
    digits b (n * b + d) = digits b n ++ [digitByte d] := by
  have hle : b ≤ n * b + d := Nat.le_trans (Nat.le_mul_of_pos_left b hn) (Nat.le_add_right _ d)
  rw [digits_of_le hb hle, Nat.mul_comm, Nat.mul_add_div (by omega), Nat.mul_add_mod,
    Nat.div_eq_of_lt hd, Nat.mod_eq_of_lt hd, Nat.add_zero]

/-- A numeral has digits only. -/
theorem exists_digit_of_mem_digits (hb : 1 < b) {c : Byte} (hc : c ∈ digits b n) :
    ∃ d, d < b ∧ c = digitByte d := by
  induction n using digits_induction hb with
  | one d hd =>
      rw [digits_of_lt hd, List.mem_singleton] at hc
      exact ⟨d, hd, hc⟩
  | snoc n d hn hd ih =>
      rw [digits_snoc hb hn hd, List.mem_append, List.mem_singleton] at hc
      rcases hc with hc | hc
      · exact ih hc
      · exact ⟨d, hd, hc⟩

/-- Reading a numeral, digit by digit, up to a value that follows it. -/
theorem foldl_digits {α : Type u} {f : α → Byte → α} {a : α} {g : Nat → α} (hb : 1 < b)
    (one : ∀ d, 0 < d → d < b → f a (digitByte d) = g d)
    (snoc : ∀ n d, d < b → f (g n) (digitByte d) = g (n * b + d)) (hn : 0 < n) :
    (digits b n).foldl f a = g n := by
  induction n using digits_induction hb with
  | one d hd =>
      rw [digits_of_lt hd]
      exact one d hn hd
  | snoc n d hpos hd ih =>
      rw [digits_snoc hb hpos hd, List.foldl_append, ih hpos]
      exact snoc n d hd

/-- The first digit is not zero. -/
theorem exists_cons_of_digits (hb : 1 < b) (hn : 0 < n) :
    ∃ d ds, 0 < d ∧ d < b ∧ digits b n = digitByte d :: ds := by
  induction n using digits_induction hb with
  | one d hd => exact ⟨d, [], hn, hd, digits_of_lt hd⟩
  | snoc n d hpos hd ih =>
      obtain ⟨d', ds, hpos', hd', hdigits⟩ := ih hpos
      exact ⟨d', ds ++ [digitByte d], hpos', hd', by rw [digits_snoc hb hpos hd, hdigits]; rfl⟩

end JosKernel
