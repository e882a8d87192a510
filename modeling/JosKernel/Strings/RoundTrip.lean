import JosKernel.Printf.Numeral
import JosKernel.Printf.Snprintf
import JosKernel.Strings.Strtol

/-!
# Numbers are read back

What `snprintf` prints of a 32-bit number, `strtol` reads back, up to its NUL
(`snprintf_strtol`).  With base 0 it has to guess the base, and there is a numeral that
it takes for one in another base: the decimal `0`, which is an octal prefix and no
digits.
-/

namespace JosKernel.Strings

open Printf

variable {base : Int} {n : Nat} {junk : List Byte} {ch : Byte} {w : BitVec 32}

/-! ## The base -/

theorem digitByte_ne_zero {d : Nat} (h : d < 16) (hpos : d ≠ 0) : digitByte d ≠ ascii '0' := by
  revert d
  decide

theorem digitByte_ne_sign {d : Nat} (h : d < 16) :
    isBlank (digitByte d) = false ∧ digitByte d ≠ ascii '+' ∧ digitByte d ≠ ascii '-' := by
  revert d
  decide

/-- The base of a decimal numeral is guessed, but for `0`. -/
theorem strtolBase_decimal (hn : 0 < n) :
    strtolBase 0 (digits 10 n ++ 0 :: junk) = some (10, digits 10 n ++ 0 :: junk) := by
  obtain ⟨d, ds, hpos, hd, hdigits⟩ := exists_cons_of_digits (b := 10) (by decide) hn
  have hzero : digitByte d ≠ ascii '0' := digitByte_ne_zero (by omega) (by omega)
  rw [hdigits, List.cons_append]
  simp only [strtolBase, true_or, if_true, if_neg hzero]

/-- A numeral in base 16 is not taken for a prefix. -/
theorem strtolBase_hex (n : Nat) :
    strtolBase 16 (digits 16 n ++ 0 :: junk) = some (16, digits 16 n ++ 0 :: junk) := by
  rcases Nat.eq_zero_or_pos n with rfl | hn
  · rfl
  · obtain ⟨d, ds, hpos, hd, hdigits⟩ := exists_cons_of_digits (b := 16) (by decide) hn
    have hzero : digitByte d ≠ ascii '0' := digitByte_ne_zero hd (by omega)
    have hbase : ¬ (16 : Int) = 0 := by decide
    rw [hdigits, List.cons_append]
    simp only [strtolBase, or_true, if_true, if_neg hzero, if_neg hbase]

/-- The digits of a decimal numeral are read, whether the base is given or guessed. -/
theorem strtol_decimal_digits (hbase : base = 10 ∨ base = 0) (n : Nat) (junk : List Byte) :
    ∃ b s, strtolBase base (digits 10 n ++ 0 :: junk) = some (b, s) ∧
      strtolDigits b s 0 = some (wrap32 n, 0 :: junk) := by
  have hread := strtolDigits_numeral (b := 10) (by decide) (by decide) n junk
  rcases hbase with rfl | rfl
  · exact ⟨10, _, rfl, hread⟩
  · rcases Nat.eq_zero_or_pos n with rfl | hn
    -- the digit is taken for the octal prefix
    · exact ⟨8, 0 :: junk, rfl, strtolDigits_nul 8 0⟩
    · exact ⟨10, _, strtolBase_decimal hn, hread⟩

/-! ## The whole text -/

/-- A text without a sign. -/
theorem strtol_of_head {b : Byte} {s s' rest : List Byte} {base' val : Int}
    (hblank : isBlank b = false) (hplus : b ≠ ascii '+') (hminus : b ≠ ascii '-')
    (hbase : strtolBase base (b :: s) = some (base', s'))
    (hdigits : strtolDigits base' s' 0 = some (val, rest)) :
    strtol (b :: s) base = some (val, rest) := by
  have hdrop : (b :: s).dropWhile isBlank = b :: s := by
    rw [List.dropWhile_cons, hblank]
    rfl
  have hsign := not_or.mpr ⟨hplus, hminus⟩
  rw [strtol_of_steps hdrop (if_neg hsign) hbase hdigits, if_neg hminus]

/-- A numeral without a sign. -/
theorem strtol_numeral {b : Nat} {base' : Int} {s : List Byte} (hb : 1 < b) (hb' : b ≤ 16)
    (hbase : strtolBase base (digits b n ++ 0 :: junk) = some (base', s))
    (hdigits : strtolDigits base' s 0 = some (wrap32 n, 0 :: junk)) :
    strtol (digits b n ++ 0 :: junk) base = some (wrap32 n, 0 :: junk) := by
  obtain ⟨c, cs, hcons⟩ := List.exists_cons_of_length_pos (length_digits_pos b n)
  obtain ⟨d, hd, rfl⟩ : ∃ d, d < b ∧ c = digitByte d :=
    exists_digit_of_mem_digits hb (hcons ▸ List.mem_cons_self)
  obtain ⟨hblank, hplus, hminus⟩ := digitByte_ne_sign (d := d) (by omega)
  rw [hcons, List.cons_append] at hbase ⊢
  exact strtol_of_head hblank hplus hminus hbase hdigits

/-- A decimal numeral with a sign. -/
theorem strtol_minus (hbase : base = 10 ∨ base = 0) (n : Nat) (junk : List Byte) :
    strtol (ascii '-' :: (digits 10 n ++ 0 :: junk)) base = some (wrap32 (-n), 0 :: junk) := by
  obtain ⟨b, s, hs, hdigits⟩ := strtol_decimal_digits hbase n junk
  have hblank : isBlank (ascii '-') = false := by decide
  have hdrop : (ascii '-' :: (digits 10 n ++ 0 :: junk)).dropWhile isBlank =
      ascii '-' :: (digits 10 n ++ 0 :: junk) := by
    rw [List.dropWhile_cons, hblank]
    rfl
  rw [strtol_of_steps hdrop (if_pos (.inr rfl)) hs hdigits, if_pos rfl, wrap32_neg]

/-- A numeral behind the prefix `0x`. -/
theorem strtol_pointer (hbase : base = 16 ∨ base = 0) :
    strtol (ascii '0' :: ascii 'x' :: (digits 16 n ++ 0 :: junk)) base =
      some (wrap32 n, 0 :: junk) := by
  have hread := strtolDigits_numeral (b := 16) (by decide) (by decide) n junk
  refine strtol_of_head (by decide) (by decide) (by decide) ?_ hread
  rcases hbase with rfl | rfl <;> rfl

/-! ## The conversions -/

/-- A conversion of a 32-bit number, and a base in which `strtol` reads it back. -/
inductive Readable : Byte → Int → Prop where
  | d {base : Int} (hbase : base = 10 ∨ base = 0) : Readable (ascii 'd') base
  | u {base : Int} (hbase : base = 10 ∨ base = 0) : Readable (ascii 'u') base
  | x : Readable (ascii 'x') 16
  | o : Readable (ascii 'o') 8
  | p {base : Int} (hbase : base = 16 ∨ base = 0) : Readable (ascii 'p') base

/-- The format prints this text of a number, and `strtol` reads it back. -/
structure PrintsText (fmt : CString) (base : Int) (w : BitVec 32) (text : List Byte) : Prop where
  escapes : Escapes fmt 0 [.word w] (codes text) 2 []
  length_le : text.length ≤ 66
  strtol_eq : ∀ junk, strtol (text ++ 0 :: junk) base = some (w.toInt, 0 :: junk)

theorem wrap32_toNat (w : BitVec 32) : wrap32 w.toNat = w.toInt :=
  (BitVec.toInt_eq_toNat_bmod w).symm

theorem wrap32_toInt (w : BitVec 32) : wrap32 w.toInt = w.toInt :=
  wrap32_of_range ⟨BitVec.le_toInt w, BitVec.toInt_lt⟩

section

variable {fmt : CString} {conv : Conv} {b : Base} {v : Int}

theorem reswitch_single (hfmt : fmt.At 0 [ascii '%', ch]) (hch : ¬ isFlag ch) (ap : List Arg) :
    reswitch fmt 1 ap {} = .ok (ch, 2, ap, {}) :=
  reswitch_stop hfmt.tail.read hch ap {}

/-- What a numeric conversion prints without a width. -/
theorem numeric_escapes (hfmt : fmt.At 0 [ascii '%', ch]) (hch : Conv.ofChar ch = some conv)
    (hflag : ¬ isFlag ch) (hnum : Numeric 0 [.word w] [] conv b v) :
    Escapes fmt 0 [.word w] (sign v ++ numeral b.val v.natAbs) 2 [] := by
  have hwidth : (-1 : Int) ≤ (numeral b.val v.natAbs).length := by omega
  have hcode := Numeric.escapes hfmt.read (reswitch_single hfmt hflag _) hch hnum (by decide)
  rwa [padding_of_le hwidth, List.nil_append] at hcode

theorem length_digits_le {b n : Nat} (hb : 1 < b) (hn : n < 2 ^ 64) : (digits b n).length ≤ 64 := by
  rw [← length_numeral]
  exact length_numeral_le hb hn

/-- An unsigned conversion. -/
theorem unsigned_printsText (hfmt : fmt.At 0 [ascii '%', ch]) (hch : Conv.ofChar ch = some conv)
    (hflag : ¬ isFlag ch) (hnum : Numeric 0 [.word w] [] conv b (w.setWidth 64).toNat)
    (hread : ∀ junk, strtol (digits b.val w.toNat ++ 0 :: junk) base =
      some (wrap32 w.toNat, 0 :: junk)) :
    PrintsText fmt base w (digits b.val w.toNat) where
  escapes := by
    have hcode := numeric_escapes hfmt hch hflag hnum
    rwa [sign_of_nonneg (Int.natCast_nonneg _), Int.natAbs_natCast, List.nil_append,
      BitVec.toNat_setWidth_of_le (by decide)] at hcode
  length_le := by
    have := length_digits_le b.two_le (n := w.toNat) (by omega)
    omega
  strtol_eq := by
    intro junk
    rw [hread, wrap32_toNat]

/-- `%d`, with the sign. -/
theorem signed_printsText (hfmt : fmt.At 0 [ascii '%', ascii 'd']) (hbase : base = 10 ∨ base = 0) :
    ∃ text, PrintsText fmt base w text := by
  have hnum : getint 0 [.word w] = .ok (w.signExtend 64, []) := rfl
  have hv : (w.signExtend 64).toInt = w.toInt := BitVec.toInt_signExtend_of_le (by decide)
  have hcode := numeric_escapes hfmt (by decide) (by decide) (.d hnum)
  have hrange := BitVec.le_toInt w
  have hlen := length_digits_le (b := 10) (n := w.toInt.natAbs) (by decide)
    (by have := BitVec.toInt_lt (x := w); omega)
  rw [hv] at hcode
  by_cases hneg : w.toInt < 0
  · rw [sign_of_neg hneg] at hcode
    refine ⟨ascii '-' :: digits 10 w.toInt.natAbs, hcode, ?_, ?_⟩
    · rw [List.length_cons]
      omega
    · intro junk
      have hread := strtol_minus hbase w.toInt.natAbs junk
      rwa [show -(w.toInt.natAbs : Int) = w.toInt by omega, wrap32_toInt] at hread
  · rw [sign_of_nonneg (by omega), List.nil_append] at hcode
    refine ⟨digits 10 w.toInt.natAbs, hcode, by omega, ?_⟩
    intro junk
    obtain ⟨b, s, hs, hdigits⟩ := strtol_decimal_digits hbase w.toInt.natAbs junk
    have hread := strtol_numeral (by decide) (by decide) hs hdigits
    rwa [show (w.toInt.natAbs : Int) = w.toInt by omega, wrap32_toInt] at hread

/-- `%p`, with its prefix. -/
theorem pointer_printsText (hfmt : fmt.At 0 [ascii '%', ascii 'p']) (hbase : base = 16 ∨ base = 0) :
    PrintsText fmt base w (ascii '0' :: ascii 'x' :: digits 16 w.toNat) where
  escapes := by
    have hch : Conv.ofChar (ascii 'p') = some .p := by decide
    refine escapes_of_convert hfmt.read (reswitch_single hfmt (by decide) _) hch ?_
    intro σ putch s
    have hnum : (w.setWidth 64).toNat = w.toNat := BitVec.toNat_setWidth_of_le (by decide)
    have hwidth : (-1 : Int) ≤ (numeral 16 w.toNat).length := by omega
    simp only [convert, convPointer, number_eq _ Esc.inRange_default (by decide), hnum,
      padding_of_le hwidth]
    rfl
  length_le := by
    have := length_digits_le (b := 16) (n := w.toNat) (by decide) (by omega)
    rw [List.length_cons, List.length_cons]
    omega
  strtol_eq := by
    intro junk
    rw [List.cons_append, List.cons_append, strtol_pointer hbase, wrap32_toNat]

/-- Every such conversion prints a text that is read back. -/
theorem Readable.exists_text (h : Readable ch base) (hfmt : fmt.At 0 [ascii '%', ch])
    (w : BitVec 32) : ∃ text, PrintsText fmt base w text := by
  have hnum : getuint 0 [.word w] = .ok (w.setWidth 64, []) := rfl
  cases h with
  | d hbase => exact signed_printsText hfmt hbase
  | u hbase =>
      have hch : Conv.ofChar (ascii 'u') = some .u := by decide
      refine ⟨_, unsigned_printsText hfmt hch (by decide) (.u hnum) ?_⟩
      intro junk
      obtain ⟨b, s, hs, hdigits⟩ := strtol_decimal_digits hbase w.toNat junk
      exact strtol_numeral (by decide) (by decide) hs hdigits
  | x =>
      have hch : Conv.ofChar (ascii 'x') = some .x := by decide
      refine ⟨_, unsigned_printsText hfmt hch (by decide) (.x hnum) ?_⟩
      intro junk
      exact strtol_numeral (by decide) (by decide) (strtolBase_hex _)
        (strtolDigits_numeral (by decide) (by decide) _ junk)
  | o =>
      have hch : Conv.ofChar (ascii 'o') = some .o := by decide
      refine ⟨_, unsigned_printsText hfmt hch (by decide) (.o hnum) ?_⟩
      intro junk
      exact strtol_numeral (by decide) (by decide) rfl
        (strtolDigits_numeral (by decide) (by decide) _ junk)
  | p hbase => exact ⟨_, pointer_printsText hfmt hbase⟩

end

/-! ## Through a buffer -/

theorem chars_codes (text : List Byte) : chars (codes text) = text := by
  rw [chars, codes, List.map_map]
  exact List.map_id'' (fun b ↦ by simp) text

/-- A text that fits into the buffer is there, with its NUL. -/
theorem PrintsText.snprintf_eq {fmt : CString} {text : List Byte}
    (h : PrintsText fmt base w text) (hend : fmt.At 2 []) {fuel : Nat} (hfuel : 2 ≤ fuel)
    (mem : Mem)
    {buf n : BitVec 32} (hbuf : buf ≠ 0) (hn : 1 ≤ n.toInt) (hfits : buf.toNat + n.toNat ≤ 2 ^ 32)
    (hlen : text.length < n.toNat) :
    snprintf fuel mem buf n fmt [.word w] =
      .ok (text.length, mem.storeAll buf (text ++ [0])) := by
  obtain ⟨fuel, rfl⟩ := Nat.exists_eq_add_of_le' hfuel
  have hlength : (codes text).length = text.length := List.length_map ..
  have hle := h.length_le
  have hW : vprintfmt record (fuel + 2) fmt 0 [.word w] [] = .ok (codes text) := by
    rw [h.escapes.vprintfmt_eq record, vprintfmt_nul hend.read, emit_record, List.nil_append]
  rw [snprintf, vsnprintf_eq hbuf hn hfits hW (by omega), List.take_of_length_le (by omega),
    chars_codes, hlength, Nat.min_eq_left (by omega), ← Mem.storeAll_concat]

/-- **Numbers are read back.**  `snprintf` with `%d`, `%u`, `%x`, `%o` or `%p` prints a
32-bit number, with at most 66 characters, such that in any buffer that holds them and a NUL
`strtol` with the base of the conversion, or for a decimal or a pointer with base 0, returns
the number as a `long` and leaves `*endptr` at the NUL. -/
theorem snprintf_strtol {fmt : CString} (h : Readable ch base) (hfmt : fmt.bytes = [ascii '%', ch])
    (w : BitVec 32) :
    ∃ len : Nat, len ≤ 66 ∧ ∀ (fuel : Nat) (mem : Mem) (buf n : BitVec 32), 2 ≤ fuel → buf ≠ 0 →
      1 ≤ n.toInt → buf.toNat + n.toNat ≤ 2 ^ 32 → len < n.toNat →
      ∃ mem', snprintf fuel mem buf n fmt [.word w] = .ok (len, mem') ∧
        strtol (mem'.bytesAt buf n.toNat) base =
          some (w.toInt, (mem'.bytesAt buf n.toNat).drop len) ∧
        ((mem'.bytesAt buf n.toNat).drop len).head? = some 0 := by
  have hat : fmt.At 0 [ascii '%', ch] := hfmt ▸ .start fmt
  obtain ⟨text, htext⟩ := h.exists_text hat w
  refine ⟨text.length, htext.length_le, ?_⟩
  intro fuel mem buf n hfuel hbuf hn hfits hlen
  refine ⟨_, htext.snprintf_eq hat.tail.tail hfuel mem hbuf hn hfits hlen, ?_⟩
  have hroom : (text ++ [0]).length ≤ n.toNat := by
    rw [List.length_append, List.length_singleton]
    omega
  obtain ⟨junk, hbytes⟩ := Mem.bytesAt_storeAll mem buf hroom (by omega)
  rw [hbytes, List.append_assoc, List.singleton_append, List.drop_left]
  exact ⟨htext.strtol_eq junk, rfl⟩

/-- The format `%d`. -/
def decimalFormat : CString := .literal "%d"

/-- The least `int`, in a buffer of 67 bytes. -/
theorem intMin_strtol :
    ∃ len : Nat, len ≤ 66 ∧ ∃ mem',
      snprintf 2 (fun _ ↦ 0) 0xf0200000 67 decimalFormat [.word 0x80000000] = .ok (len, mem') ∧
        strtol (mem'.bytesAt 0xf0200000 67) 0 =
          some (-2147483648, (mem'.bytesAt 0xf0200000 67).drop len) ∧
        ((mem'.bytesAt 0xf0200000 67).drop len).head? = some 0 := by
  have hfmt : decimalFormat.bytes = [ascii '%', ascii 'd'] := rfl
  obtain ⟨len, hlen, h⟩ := snprintf_strtol (.d (.inr rfl)) hfmt 0x80000000
  have hroom : len < (67 : BitVec 32).toNat := Nat.lt_succ_of_le hlen
  exact ⟨len, hlen, h 2 (fun _ ↦ 0) 0xf0200000 67 (by decide) (by decide) (by decide) (by decide)
    hroom⟩

end JosKernel.Strings
