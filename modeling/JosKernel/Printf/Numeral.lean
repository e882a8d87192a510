import JosKernel.Lib.Positional
import JosKernel.Printf.Escape

/-!
# Numerals

What `printnum` prints is padding and then the numeral of the number.  The numeric
conversions put the sign before that: the sign is not part of the width, and it comes
before the padding (`Numeric.escapes`).
-/

namespace JosKernel.Printf

/-! ## Numerals -/

/-- The codes of the numeral of `n` in base `b`. -/
def numeral (b n : Nat) : List Code := codes (digits b n)

theorem digit_eq {d : Nat} (h : d < 16) : digit d = (digitByte d).setWidth 32 := by
  revert d
  decide

theorem numeral_of_lt {b n : Nat} (hb : b ≤ 16) (h : n < b) : numeral b n = [digit n] := by
  rw [numeral, digits_of_lt h, digit_eq (by omega)]
  rfl

/-- The last digit comes off the end, as in `printnum`. -/
theorem numeral_of_le {b n : Nat} (hb : 1 < b) (hb' : b ≤ 16) (h : b ≤ n) :
    numeral b n = numeral b (n / b) ++ [digit (n % b)] := by
  have hlt : n % b < b := Nat.mod_lt n (by omega)
  rw [numeral, digits_of_le hb h, digit_eq (by omega), numeral, codes, codes, List.map_append]
  rfl

theorem length_numeral (b n : Nat) : (numeral b n).length = (digits b n).length := by
  rw [numeral, codes, List.length_map]

theorem length_numeral_pos (b n : Nat) : 0 < (numeral b n).length := by
  rw [length_numeral]
  exact length_digits_pos b n

/-- A 64-bit number has at most 64 digits. -/
theorem length_numeral_le {b n : Nat} (hb : 1 < b) (h : n < 2 ^ 64) :
    (numeral b n).length ≤ 64 := by
  rw [length_numeral, length_digits_le_iff hb (by decide)]
  exact h.trans_le (Nat.pow_le_pow_left hb 64)

/-- A numeral has digits only. -/
theorem exists_digit_of_mem_numeral {b n : Nat} (hb : 1 < b) (hb' : b ≤ 16) {c : Code}
    (hc : c ∈ numeral b n) : ∃ d, d < b ∧ c = digit d := by
  obtain ⟨byte, hbyte, rfl⟩ := List.mem_map.mp hc
  obtain ⟨d, hd, rfl⟩ := exists_digit_of_mem_digits hb hbyte
  exact ⟨d, hd, (digit_eq (by omega)).symm⟩

/-! ## `printnum` -/

/-- **What `printnum` prints.** -/
theorem printnum_eq {σ : Type} (putch : Code → σ → σ) (base : Base) (padc : Code) {num : Nat}
    {width : Int} (hlo : (numeral base.val num).length - 2 ^ 31 ≤ width) (hhi : width < 2 ^ 31)
    (s : σ) :
    printnum putch base padc num width s =
      emit putch (padding padc width (numeral base.val num).length ++ numeral base.val num) s := by
  have htwo := base.two_le
  rw [printnum]
  by_cases h : base.val ≤ num
  · have hnum := numeral_of_le htwo base.le_sixteen h
    have hlen := congrArg List.length hnum
    have hpos := length_numeral_pos base.val (num / base.val)
    rw [List.length_append, List.length_singleton] at hlen
    have hwrap : wrap32 (width - 1) = width - 1 := wrap32_of_range (by omega)
    have hlt : num / base.val < num := Nat.div_lt_self (by omega) htwo
    rw [dif_pos h, hwrap, printnum_eq putch base padc (by omega) (by omega), hlen, hnum,
      ← List.append_assoc, emit_append _ [_]]
    rw [padding, padding, show width - 1 - (numeral base.val (num / base.val)).length =
      width - ((numeral base.val (num / base.val)).length + 1 : Nat) by omega]
    rfl
  · have hnum := numeral_of_lt base.le_sixteen (Nat.lt_of_not_le h)
    have hwrap : wrap32 (width - 1) = width - 1 := by
      rw [hnum] at hlo
      exact wrap32_of_range (by rw [List.length_singleton] at hlo; omega)
    rw [dif_neg h, hwrap, padLoop_eq, hnum, Nat.mod_eq_of_lt (Nat.lt_of_not_le h), emit_append]
    rfl
termination_by num

/-- The codes of a numeral are those of its digits. -/
theorem numeral_eq_map (base : Base) (n : Nat) :
    numeral base.val n = (positional base.val n).map digit := by
  rw [numeral, codes, digits_eq_map base.two_le, List.map_map]
  refine List.map_congr_left fun d hd ↦ ?_
  have hlt := lt_of_mem_positional base.two_le hd
  have hle := base.le_sixteen
  exact (digit_eq (by omega)).symm

/-- **`printnum` prints the numeral.**  Padding up to the width, and then the digits of the
number, which have its value and no zero before them. -/
theorem printnum_digits {σ : Type} (putch : Code → σ → σ) (base : Base) (padc : Code)
    (num : BitVec 64) {width : Int} (hlo : -1 ≤ width) (hhi : width < 2 ^ 31) :
    let ds := positional base.val num.toNat
    (∀ s, printnum putch base padc num.toNat width s =
      emit putch (List.replicate (max 0 (width - ds.length)).toNat padc ++ ds.map digit) s) ∧
      (∀ d ∈ ds, d < base.val) ∧ (ds.head? = some 0 → ds = [0]) ∧
        horner base.val ds = num.toNat := by
  intro ds
  have hnum : numeral base.val num.toNat = ds.map digit := numeral_eq_map base num.toNat
  have hlen := length_numeral_le base.two_le num.isLt
  refine ⟨fun s ↦ ?_, fun d ↦ lt_of_mem_positional base.two_le, positional_of_head,
    horner_positional base.val num.toNat⟩
  rw [printnum_eq putch base padc (by omega) hhi, padding, hnum, List.length_map]
  congr 3
  omega

theorem printnum_seven :
    let ds := positional 10 7
    (∀ s, printnum record ⟨10, by decide, by decide⟩ 0x20 7 3 s =
      emit record (List.replicate (max 0 ((3 : Int) - ds.length)).toNat 0x20 ++ ds.map digit) s) ∧
      (∀ d ∈ ds, d < 10) ∧ (ds.head? = some 0 → ds = [0]) ∧ horner 10 ds = 7 :=
  printnum_digits record ⟨10, by decide, by decide⟩ 0x20 7 (by decide) (by decide)

/-! ## The numeric conversions -/

/-- The sign of a number, which the conversion prints itself. -/
def sign (v : Int) : List Code := if v < 0 then [0x2D] else []

/-- The numeral of a number, with its sign. -/
def signedNumeral (b : Nat) (v : Int) : List Code := sign v ++ numeral b v.natAbs

theorem length_sign (v : Int) : (sign v).length = if v < 0 then 1 else 0 := by
  unfold sign
  split_ifs <;> rfl

theorem sign_of_nonneg {v : Int} (h : 0 ≤ v) : sign v = [] := if_neg (by omega)

theorem sign_of_neg {v : Int} (h : v < 0) : sign v = [0x2D] := if_pos h

theorem signedNumeral_of_nonneg {b : Nat} {v : Int} (h : 0 ≤ v) :
    signedNumeral b v = numeral b v.natAbs := by
  rw [signedNumeral, sign_of_nonneg h, List.nil_append]

/-- The conversion takes the number `v` from the arguments and prints it in a base. -/
inductive Numeric (lflag : Nat) (ap ap' : List Arg) : Conv → Base → Int → Prop where
  | d {num : BitVec 64} (h : getint lflag ap = .ok (num, ap')) :
      Numeric lflag ap ap' .d ⟨10, by decide, by decide⟩ num.toInt
  | u {num : BitVec 64} (h : getuint lflag ap = .ok (num, ap')) :
      Numeric lflag ap ap' .u ⟨10, by decide, by decide⟩ num.toNat
  | o {num : BitVec 64} (h : getuint lflag ap = .ok (num, ap')) :
      Numeric lflag ap ap' .o ⟨8, by decide, by decide⟩ num.toNat
  | x {num : BitVec 64} (h : getuint lflag ap = .ok (num, ap')) :
      Numeric lflag ap ap' .x ⟨16, by decide, by decide⟩ num.toNat

section

variable {σ : Type} (putch : Code → σ → σ) {e : Esc} {ap ap' : List Arg}

/-- The code at `number`. -/
theorem number_eq (he : e.InRange) (hwidth : -1 ≤ e.width) (num : BitVec 64) (base : Base) (s : σ) :
    number putch e num base s =
      emit putch (padding (e.padc.setWidth 32) e.width (numeral base.val num.toNat).length ++
        numeral base.val num.toNat) s := by
  have hlen := length_numeral_le base.two_le num.isLt
  exact printnum_eq putch base _ (by omega) he.width.2 s

/-- The absolute value that `%d` prints, `-num` for a negative `num`. -/
theorem toNat_neg_of_neg {num : BitVec 64} (h : num.toInt < 0) :
    (-num).toNat = num.toInt.natAbs := by
  have := BitVec.toInt_eq_toNat_cond num
  split_ifs at this <;> bv_omega

theorem toNat_of_nonneg {num : BitVec 64} (h : 0 ≤ num.toInt) : num.toNat = num.toInt.natAbs := by
  have := BitVec.toInt_eq_toNat_cond num
  split_ifs at this <;> omega

/-- **What a numeric conversion prints.**  The sign comes first and is not part of the
width. -/
theorem Numeric.convert_eq {conv : Conv} {base : Base} {v : Int}
    (h : Numeric e.lflag ap ap' conv base v) (he : e.InRange) (hwidth : -1 ≤ e.width) (s : σ) :
    convert putch conv e ap s = .ok (ap', emit putch (sign v ++
      (padding (e.padc.setWidth 32) e.width (numeral base.val v.natAbs).length ++
        numeral base.val v.natAbs)) s) := by
  cases h with
  | d h =>
      rename_i num
      simp only [convert, convDecimal, h, Result.ok_bind, number_eq putch he hwidth]
      split_ifs with hneg
      · rw [toNat_neg_of_neg hneg, sign_of_neg hneg, List.cons_append, emit_cons]
        rfl
      · rw [toNat_of_nonneg (by omega), sign_of_nonneg (by omega)]
        rfl
  | u h | o h | x h =>
      simp only [convert, convUnsigned, h, Result.ok_bind, number_eq putch he hwidth,
        sign_of_nonneg (Int.natCast_nonneg _), Int.natAbs_natCast, List.nil_append]
      rfl

end

/-- **An escape that ends in a numeric conversion.** -/
theorem Numeric.escapes {fmt : CString} {i i' : Nat} {ap ap' ap'' : List Arg} {ch : Byte} {e : Esc}
    {conv : Conv} {base : Base} {v : Int} (hread : fmt.read i = .ok (ascii '%'))
    (hswitch : reswitch fmt (i + 1) ap {} = .ok (ch, i', ap', e)) (hch : Conv.ofChar ch = some conv)
    (h : Numeric e.lflag ap' ap'' conv base v) (hwidth : -1 ≤ e.width) :
    Escapes fmt i ap (sign v ++
      (padding (e.padc.setWidth 32) e.width (numeral base.val v.natAbs).length ++
        numeral base.val v.natAbs)) i' ap'' :=
  escapes_of_convert hread hswitch hch fun _ putch s ↦
    h.convert_eq putch (reswitch_inRange hswitch) hwidth s

end JosKernel.Printf
