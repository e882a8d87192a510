import JosKernel.Lib.Digits
import Mathlib.Data.Nat.Digits.Lemmas

/-!
# Positional notation

The digits of a natural number, most significant first, as Mathlib's `Nat.digits` has
them the other way round.  They have the value of the number, and no zero comes before
them; 0 itself has one digit.
-/

namespace JosKernel

/-- The digits of `n` in base `b`, most significant first. -/
def positional (b n : Nat) : List Nat := if n = 0 then [0] else (Nat.digits b n).reverse

/-- The value of some digits, most significant first. -/
def horner (b : Nat) (ds : List Nat) : Nat := ds.foldl (fun v d ↦ v * b + d) 0

variable {b n : Nat}

theorem horner_eq_ofDigits (b : Nat) (ds : List Nat) : horner b ds = Nat.ofDigits b ds.reverse := by
  rw [Nat.ofDigits_eq_foldr, List.foldr_reverse, horner]
  simp only [Nat.cast_id, Nat.mul_comm, Nat.add_comm]

/-- The digits have the value of the number. -/
theorem horner_positional (b n : Nat) : horner b (positional b n) = n := by
  rw [positional]
  split_ifs with hn
  · rw [hn]
    simp [horner]
  · rw [horner_eq_ofDigits, List.reverse_reverse, Nat.ofDigits_digits]

theorem lt_of_mem_positional (hb : 1 < b) {d : Nat} (hd : d ∈ positional b n) : d < b := by
  rw [positional] at hd
  split_ifs at hd
  · rw [List.mem_singleton.mp hd]
    omega
  · exact Nat.digits_lt_base hb (List.mem_reverse.mp hd)

/-- No zero comes first, but for the one digit of 0. -/
theorem positional_of_head (h : (positional b n).head? = some 0) : positional b n = [0] := by
  by_cases hn : n = 0
  · rw [hn]
    rfl
  · have hne : Nat.digits b n ≠ [] := Nat.digits_ne_nil_iff_ne_zero.mpr hn
    rw [positional, if_neg hn, List.head?_reverse, List.getLast?_eq_some_getLast hne] at h
    exact absurd (Option.some.inj h) (Nat.getLast_digit_ne_zero b hn)

theorem positional_of_lt (hn : n < b) : positional b n = [n] := by
  rw [positional]
  split_ifs with hzero
  · rw [hzero]
  · rw [Nat.digits_of_lt b n hzero hn]
    rfl

theorem positional_snoc (hb : 1 < b) {d : Nat} (hn : 0 < n) (hd : d < b) :
    positional b (n * b + d) = positional b n ++ [d] := by
  have hpos : 0 < n * b := Nat.mul_pos hn (by omega)
  rw [positional, positional, if_neg (by omega), if_neg (by omega), Nat.add_comm, Nat.mul_comm,
    Nat.digits_add b hb d n hd (.inr (by omega)), List.reverse_cons]

/-- The characters of a numeral are those of its digits. -/
theorem digits_eq_map (hb : 1 < b) (n : Nat) : digits b n = (positional b n).map digitByte := by
  induction n using digits_induction hb with
  | one d hd => rw [digits_of_lt hd, positional_of_lt hd, List.map_singleton]
  | snoc n d hn hd ih =>
      rw [digits_snoc hb hn hd, positional_snoc hb hn hd, ih, List.map_append, List.map_singleton]

end JosKernel
