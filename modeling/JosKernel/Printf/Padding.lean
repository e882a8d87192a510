import JosKernel.Printf.Numeral

/-!
# Padding numbers

The numeric conversions print the sign of a number before the padding, and do not
count it.  So a field of a negative number is one character too long when there is
padding (`decimal_field_iff`).

They pad with the character that the flags leave in `padc`, and always on the left:
with the flag `-`, which is to pad on the right, they put dashes before the digits
(`minus_pads_right_iff`).
-/

namespace JosKernel.Printf

variable {fmt : CString} {i i' : Nat} {ap ap' ap'' : List Arg} {ch : Byte} {e : Esc}

theorem length_signedNumeral (b : Nat) (v : Int) :
    (signedNumeral b v).length = (if v < 0 then 1 else 0) + (numeral b v.natAbs).length := by
  rw [signedNumeral, List.length_append, length_sign]

/-! ## Signed decimals -/

/-- The field that a signed decimal is to fill: spaces before the sign, or zeros behind
it. -/
def decimalField (e : Esc) (v : Int) : List Code :=
  if e.padc = ascii '0' then
    sign v ++ padding 0x30 e.width (signedNumeral 10 v).length ++ numeral 10 v.natAbs
  else padding 0x20 e.width (signedNumeral 10 v).length ++ signedNumeral 10 v

/-- The field is as wide as it is to be. -/
theorem length_decimalField (e : Esc) (v : Int) :
    (decimalField e v).length = max e.width.toNat (signedNumeral 10 v).length := by
  unfold decimalField
  split_ifs <;>
    simp only [List.length_append, length_padding, length_signedNumeral, length_sign] <;> omega

/-- What `%d` prints is the field, unless there is padding and a sign. -/
theorem decimalField_eq_iff (hpad : e.padc = ascii ' ' ∨ e.padc = ascii '0') (v : Int) :
    sign v ++ (padding (e.padc.setWidth 32) e.width (numeral 10 v.natAbs).length ++
        numeral 10 v.natAbs) = decimalField e v ↔
      0 ≤ v ∨ e.width < (signedNumeral 10 v).length := by
  have hlen := length_signedNumeral 10 v
  by_cases hv : 0 ≤ v
  · refine iff_of_true ?_ (.inl hv)
    rw [decimalField, signedNumeral_of_nonneg hv, sign_of_nonneg hv]
    rcases hpad with hpad | hpad <;> rw [hpad] <;> rfl
  · rw [if_pos (by omega)] at hlen
    constructor
    · intro h
      have := congrArg List.length h
      rw [length_decimalField, List.length_append, List.length_append, length_padding, length_sign,
        if_pos (by omega)] at this
      omega
    · intro h
      have hwidth : e.width < (signedNumeral 10 v).length := h.resolve_left hv
      rw [decimalField, padding_of_le (by omega), padding_of_le (by omega),
        padding_of_le (by omega),
        List.append_nil, List.nil_append, List.nil_append, signedNumeral, ite_self]

/-- **Signed decimals and the field width.**  `%d` fills the field with padding and the
number exactly when the number is not negative or the field is narrower than the
number with its sign. -/
theorem decimal_field_iff {num : BitVec 64} (hread : fmt.read i = .ok (ascii '%'))
    (hswitch : reswitch fmt (i + 1) ap {} = .ok (ascii 'd', i', ap', e))
    (hnum : getint e.lflag ap' = .ok (num, ap''))
    (hpad : e.padc = ascii ' ' ∨ e.padc = ascii '0') (hwidth : -1 ≤ e.width) :
    Escapes fmt i ap (decimalField e num.toInt) i' ap'' ↔
      0 ≤ num.toInt ∨ e.width < (signedNumeral 10 num.toInt).length := by
  have hcode := Numeric.escapes hread hswitch (by decide) (.d hnum) hwidth
  rw [hcode.iff_eq]
  exact decimalField_eq_iff hpad num.toInt

/-- A field of three characters for `-5`. -/
def threeWide : CString := .literal "%3d"

theorem threeWide_field_iff :
    Escapes threeWide 0 [.word (-5)] (decimalField { width := 3 } (-5)) 3 [] ↔
      (0 : Int) ≤ -5 ∨ (3 : Int) < (signedNumeral 10 (-5)).length := by
  have hswitch : reswitch threeWide 1 [.word (-5)] {} =
      .ok (ascii 'd', 3, [.word (-5)], { width := 3 }) := by decide +kernel
  have hnum : getint 0 [.word (-5)] = .ok (-5, []) := by decide
  have hread : threeWide.read 0 = .ok (ascii '%') := by decide
  have hiff := decimal_field_iff hread hswitch hnum (.inl rfl) (by decide)
  rwa [show (-5 : BitVec 64).toInt = -5 by decide] at hiff

/-- The field is to hold `" -5"`, and `"-  5"` is printed. -/
theorem threeWide_not_field :
    vprintfmt record 2 threeWide 0 [.word (-5)] [] = .ok (codes (asciis "-  5".toList)) ∧
      decimalField { width := 3 } (-5) = codes (asciis " -5".toList) ∧
      ¬ Escapes threeWide 0 [.word (-5)] (decimalField { width := 3 } (-5)) 3 [] := by
  have hrun : vprintfmt record 2 threeWide 0 [.word (-5)] [] =
      .ok (codes (asciis "-  5".toList)) := by decide +kernel
  have hfield : decimalField { width := 3 } (-5) = codes (asciis " -5".toList) := by decide +kernel
  refine ⟨hrun, hfield, ?_⟩
  intro h
  have hrest : vprintfmt record 1 threeWide 3 []
    (emit record (decimalField { width := 3 } (-5)) []) =
      .ok (codes (asciis " -5".toList)) := by decide +kernel
  rw [h.vprintfmt_eq record 1, hrest] at hrun
  exact absurd hrun (by decide)

/-! ## The flag `-` -/

/-- The flags of an escape without the numbers among them.  In a number, or not, at the
start. -/
def bareFlags : Bool → List Byte → List Byte
  | _, [] => []
  | inNumber, b :: flags =>
      if ascii '1' ≤ b ∧ b ≤ ascii '9' ∨ b = ascii '0' ∧ inNumber then bareFlags true flags
      else b :: bareFlags false flags

theorem Esc.processPrecision_padc (e : Esc) : e.processPrecision.padc = e.padc := by
  unfold Esc.processPrecision
  split_ifs <;> rfl

theorem Flag.ofChar_digit {b : Byte} :
    Flag.ofChar b = some .digit ↔ ascii '1' ≤ b ∧ b ≤ ascii '9' := by
  revert b
  decide

theorem Flag.ofChar_minus {b : Byte} : Flag.ofChar b = some .minus ↔ b = ascii '-' := by
  revert b
  decide

theorem Flag.ofChar_zero {b : Byte} : Flag.ofChar b = some .zero ↔ b = ascii '0' := by
  revert b
  decide

theorem digit_iff {b : Byte} {inNumber : Bool} :
    ascii '1' ≤ b ∧ b ≤ ascii '9' ∨ b = ascii '0' ∧ inNumber ↔
      inNumber ∧ ascii '0' ≤ b ∧ b ≤ ascii '9' ∨ ascii '1' ≤ b ∧ b ≤ ascii '9' := by
  revert b inNumber
  decide

namespace Scan

variable {s : Scan} {b : Byte} {flags : List Byte}

theorem leave_padc (s : Scan) : s.leave.esc.padc = s.esc.padc := by
  unfold leave
  split_ifs
  · exact s.esc.processPrecision_padc
  · rfl

/-- A digit of a number. -/
theorem step_digit (h : ascii '1' ≤ b ∧ b ≤ ascii '9' ∨ b = ascii '0' ∧ s.inNumber) :
    (s.step b).inNumber = true ∧ (s.step b).esc.padc = s.esc.padc := by
  rw [digit_iff] at h
  unfold step
  split_ifs with hdigit
  · exact ⟨hdigit.1, rfl⟩
  · rw [Flag.ofChar_digit.mpr (h.resolve_left hdigit)]
    exact ⟨rfl, s.leave_padc⟩

/-- A flag that is not a digit of a number. -/
theorem step_bare (h : ¬ (ascii '1' ≤ b ∧ b ≤ ascii '9' ∨ b = ascii '0' ∧ s.inNumber))
    (hflag : isFlag b) (hzero : b ≠ ascii '0') :
    (s.step b).inNumber = false ∧
      (s.step b).esc.padc = if b = ascii '-' then ascii '-' else s.esc.padc := by
  rw [digit_iff, not_or] at h
  obtain ⟨f, hf⟩ := Option.isSome_iff_exists.mp hflag
  have hleave := s.leave_inNumber
  have hpadc := s.leave_padc
  rw [step, if_neg h.1, hf]
  by_cases hminus : b = ascii '-'
  · rw [Flag.ofChar_minus.mpr hminus] at hf
    cases hf
    exact ⟨hleave, (if_pos hminus).symm⟩
  rw [if_neg hminus]
  cases f with
  | minus => exact absurd (Flag.ofChar_minus.mp hf) hminus
  | zero => exact absurd (Flag.ofChar_zero.mp hf) hzero
  | digit => exact absurd (Flag.ofChar_digit.mp hf) h.2
  | star =>
      simp only [flag]
      split
      · exact ⟨hleave, (Esc.processPrecision_padc _).trans hpadc⟩
      · exact ⟨hleave, hpadc⟩
  | _ => exact ⟨hleave, hpadc⟩

/-- The pad character, if no flag is a `0`. -/
theorem foldl_padc (hflags : ∀ b ∈ flags, isFlag b)
    (hzero : ascii '0' ∉ bareFlags s.inNumber flags) :
    (flags.foldl step s).esc.padc = if ascii '-' ∈ flags then ascii '-' else s.esc.padc := by
  induction flags generalizing s with
  | nil => rfl
  | cons b flags ih =>
      obtain ⟨hb, hflags⟩ := List.forall_mem_cons.mp hflags
      rw [bareFlags] at hzero
      rw [List.foldl_cons]
      split_ifs at hzero with hdigit
      · obtain ⟨hnum, hpadc⟩ := step_digit hdigit
        have hne : ascii '-' ≠ b := by
          rintro rfl
          revert hdigit
          generalize s.inNumber = num
          revert num
          decide
        rw [ih hflags (by rwa [hnum]), hpadc]
        simp only [List.mem_cons, hne, false_or]
      · rw [List.mem_cons, not_or] at hzero
        obtain ⟨hnum, hpadc⟩ := step_bare hdigit hb (Ne.symm hzero.1)
        rw [ih hflags (by rw [hnum]; exact hzero.2), hpadc]
        by_cases hmem : ascii '-' ∈ flags
        · rw [if_pos hmem, if_pos (List.mem_cons_of_mem _ hmem)]
        · simp only [List.mem_cons, hmem, or_false, if_false, eq_comm (a := b)]

end Scan

theorem not_isFlag_of_conv {ch : Byte} {conv : Conv} (h : Conv.ofChar ch = some conv) :
    ¬ isFlag ch := by
  have hsome : (Conv.ofChar ch).isSome := Option.isSome_of_mem h
  clear h
  revert ch
  decide

/-- The flag `-`, without a `0`, makes `padc` a dash. -/
theorem padc_of_minus {flags rest : List Byte} {ch' : Byte} (hflags : ∀ b ∈ flags, isFlag b)
    (hminus : ascii '-' ∈ flags) (hzero : ascii '0' ∉ bareFlags false flags) (hch : ¬ isFlag ch)
    (hat : fmt.At i (flags ++ ch :: rest))
    (hswitch : reswitch fmt i ap {} = .ok (ch', i', ap', e)) : e.padc = ascii '-' := by
  obtain ⟨-, rfl⟩ := reswitch_flags hflags hch hat hswitch
  rw [Scan.leave_padc, Scan.foldl_padc hflags hzero, if_pos hminus]

theorem digit_ne_minus {d : Nat} (h : d < 16) : digit d ≠ 0x2D := by
  revert d
  decide

/-- Dashes before the digits are not spaces behind them. -/
theorem padded_eq_iff (base : Base) (v width : Int) :
    sign v ++ (padding 0x2D width (numeral base.val v.natAbs).length ++
        numeral base.val v.natAbs) =
      signedNumeral base.val v ++ padding 0x20 width (signedNumeral base.val v).length ↔
      width ≤ (numeral base.val v.natAbs).length := by
  have hlen := length_signedNumeral base.val v
  rw [signedNumeral, List.append_assoc, List.append_cancel_left_eq, ← signedNumeral]
  constructor
  · intro h
    by_contra hwidth
    obtain ⟨n, hn⟩ : ∃ n, (width - (numeral base.val v.natAbs).length).toNat = n + 1 :=
      ⟨(width - (numeral base.val v.natAbs).length).toNat - 1, by omega⟩
    obtain ⟨c, cs, hnum⟩ := List.exists_cons_of_length_pos (length_numeral_pos base.val v.natAbs)
    obtain ⟨d, hd, rfl⟩ : ∃ d, d < base.val ∧ c = digit d :=
      exists_digit_of_mem_numeral base.two_le base.le_sixteen (hnum ▸ List.mem_cons_self)
    rw [padding, hn, List.replicate_succ, hnum] at h
    exact digit_ne_minus (hd.trans_le base.le_sixteen) (List.cons.inj h).1.symm
  · intro hwidth
    rw [padding_of_le hwidth, padding_of_le (by omega), List.nil_append, List.append_nil]

/-- **The flag `-` and numbers.**  With the flag `-` and no `0`, a number is followed by
spaces up to the width, and by nothing else, exactly when the field is no wider than
the digits. -/
theorem minus_pads_right_iff {flags rest : List Byte} {ch' : Byte} {conv : Conv} {base : Base}
    {v : Int} (hflags : ∀ b ∈ flags, isFlag b) (hminus : ascii '-' ∈ flags)
    (hzero : ascii '0' ∉ bareFlags false flags) (hch : Conv.ofChar ch = some conv)
    (hat : fmt.At i (ascii '%' :: flags ++ ch :: rest))
    (hswitch : reswitch fmt (i + 1) ap {} = .ok (ch', i', ap', e))
    (hnum : Numeric e.lflag ap' ap'' conv base v) (hwidth : -1 ≤ e.width) :
    Escapes fmt i ap (signedNumeral base.val v ++
        padding 0x20 e.width (signedNumeral base.val v).length) i' ap'' ↔
      e.width ≤ (numeral base.val v.natAbs).length := by
  have hstop := not_isFlag_of_conv hch
  have hpadc := padc_of_minus hflags hminus hzero hstop hat.tail hswitch
  obtain ⟨rfl, -⟩ := reswitch_flags hflags hstop hat.tail hswitch
  have hcode := Numeric.escapes hat.read hswitch hch hnum hwidth
  rw [hcode.iff_eq, hpadc]
  exact padded_eq_iff base v e.width

/-- A field of five characters, padded on the right. -/
def leftAligned : CString := .literal "%-5u"

theorem leftAligned_iff :
    Escapes leftAligned 0 [.word 42]
        (signedNumeral 10 42 ++ padding 0x20 5 (signedNumeral 10 42).length) 4 [] ↔
      (5 : Int) ≤ (numeral 10 42).length := by
  have hat : leftAligned.At 0 (ascii '%' :: asciis "-5".toList ++ ascii 'u' :: []) := .start _
  have hswitch : reswitch leftAligned 1 [.word 42] {} =
      .ok (ascii 'u', 4, [.word 42], { padc := ascii '-', width := 5 }) := by decide +kernel
  have hnum : getuint 0 [.word 42] = .ok (42, []) := by decide
  exact minus_pads_right_iff (by decide) (by decide) (by decide) (by decide) hat hswitch (.u hnum)
    (by decide)

/-- The field is to hold `"42   "`, and `"---42"` is printed. -/
theorem leftAligned_not_padded :
    vprintfmt record 2 leftAligned 0 [.word 42] [] = .ok (codes (asciis "---42".toList)) ∧
      ¬ Escapes leftAligned 0 [.word 42] (codes (asciis "42   ".toList)) 4 [] := by
  have hrun : vprintfmt record 2 leftAligned 0 [.word 42] [] =
      .ok (codes (asciis "---42".toList)) := by decide +kernel
  refine ⟨hrun, ?_⟩
  intro h
  have hrest : vprintfmt record 1 leftAligned 4 []
      (emit record (codes (asciis "42   ".toList)) []) =
      .ok (codes (asciis "42   ".toList)) := by decide +kernel
  rw [h.vprintfmt_eq record 1, hrest] at hrun
  exact absurd hrun (by decide)

end JosKernel.Printf
