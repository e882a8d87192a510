import JosKernel.Lib.Digits
import JosKernel.Printf.Text

/-!
# Widths and precisions in the format

A width and a precision can be written in the format, `%5.3s`, or passed as arguments,
`%*.*s`.  A numeral is read up to its last digit (`Scan.foldl_digits`) and ends up in
`width` or `precision` as an argument does, with one exception: the numeral `0` is the
flag `0`.  As a width that makes no difference for strings, as a precision it does
(`literal_eq_star_iff`).
-/

namespace JosKernel.Printf

/-! ## Reading a numeral -/

theorem ofChar_digitByte {d : Nat} (hd : d < 10) (hpos : d ≠ 0) :
    Flag.ofChar (digitByte d) = some .digit := by
  revert d
  decide

theorem isFlag_digitByte {d : Nat} (hd : d < 10) : isFlag (digitByte d) := by
  revert d
  decide

theorem digitByte_range {d : Nat} (hd : d < 10) :
    ascii '0' ≤ digitByte d ∧ digitByte d ≤ ascii '9' := by
  revert d
  decide

theorem isFlag_of_mem_digits {n : Nat} {b : Byte} (hb : b ∈ digits 10 n) : isFlag b := by
  obtain ⟨d, hd, rfl⟩ := exists_digit_of_mem_digits (by decide) hb
  exact isFlag_digitByte hd

/-- A further digit of a number. -/
theorem Scan.step_number {b : Byte} (h : ascii '0' ≤ b ∧ b ≤ ascii '9') (ap : List Arg) (e : Esc)
    {m n : Int} (hn : wrap32 (m * 10 + b.toNat - 0x30) = n) :
    Scan.step ⟨true, ap, { e with precision := m }⟩ b = ⟨true, ap, { e with precision := n }⟩ := by
  rw [Scan.step, if_pos ⟨rfl, h⟩, hn]

theorem wrap32_digit {d : Nat} (hd : d < 10) (n : Nat) :
    wrap32 (wrap32 n * 10 + (digitByte d).toNat - 0x30) = wrap32 (n * 10 + d : Nat) := by
  have hbyte := digitByte_toNat (d := d) (by omega)
  rw [if_pos hd] at hbyte
  rw [show wrap32 n * 10 + (digitByte d).toNat - 0x30 = wrap32 n * 10 + d by omega, wrap32_mul_add]
  push_cast
  rfl

/-- **The digits of a number.** -/
theorem Scan.foldl_digits {n : Nat} (hn : 0 < n) (ap : List Arg) (e : Esc) :
    (digits 10 n).foldl Scan.step ⟨false, ap, e⟩ =
      ⟨true, ap, { e with precision := wrap32 n }⟩ := by
  have hsnoc : ∀ n d, d < 10 → Scan.step ⟨true, ap, { e with precision := wrap32 (n : Nat) }⟩
      (digitByte d) = ⟨true, ap, { e with precision := wrap32 (n * 10 + d : Nat) }⟩ :=
    fun n d hd ↦ step_number (digitByte_range hd) ap e (wrap32_digit hd n)
  refine JosKernel.foldl_digits (by decide) ?_ hsnoc hn
  intro d hpos hd
  have hbyte := digitByte_toNat (d := d) (by omega)
  rw [if_pos hd] at hbyte
  have hwrap : wrap32 d = d := wrap32_of_range (by omega)
  have hdigit : ((digitByte d).toNat : Int) - 0x30 = wrap32 d := by omega
  rw [Scan.step, if_neg (by simp), ofChar_digitByte hd (by omega), ← hdigit]
  rfl

/-! ## The two formats -/

/-- The flags of `%w.ps`, with `w` and `p` as numerals. -/
def literalFlags (w p : Nat) : List Byte := digits 10 w ++ ascii '.' :: digits 10 p

theorem isFlag_of_mem_literalFlags {w p : Nat} {b : Byte} (hb : b ∈ literalFlags w p) :
    isFlag b := by
  rcases List.mem_append.mp hb with hb | hb
  · exact isFlag_of_mem_digits hb
  · rcases List.mem_cons.mp hb with rfl | hb
    · decide
    · exact isFlag_of_mem_digits hb

theorem ne_zero_of_isFlag {b : Byte} (h : isFlag b) : b ≠ 0 := by
  rintro rfl
  exact not_isFlag_zero h

/-- The format `%w.ps`, with `w` and `p` as numerals. -/
def literalSpec (w p : Nat) : CString where
  bytes := ascii '%' :: literalFlags w p ++ [ascii 's']
  ne_zero := by
    intro b hb
    rcases List.mem_append.mp hb with hb | hb
    · rcases List.mem_cons.mp hb with rfl | hb
      · decide
      · exact ne_zero_of_isFlag (isFlag_of_mem_literalFlags hb)
    · rw [List.mem_singleton.mp hb]
      decide

/-- The format `%*.*s`. -/
def starSpec : CString := .literal "%*.*s"

/-- The local variables after the flags of `literalSpec w p`. -/
def literalEsc (w p : Nat) : Esc :=
  if p = 0 then { padc := ascii '0', width := w }
  else { padc := if w = 0 then ascii '0' else ascii ' ', width := w, precision := p }

theorem digits_zero : digits 10 0 = [ascii '0'] := digits_of_lt (by decide)

/-- The dot does nothing when there is a width. -/
theorem Scan.step_dot {s : Scan} (h : 0 ≤ s.leave.esc.width) : s.step (ascii '.') = s.leave := by
  have hdigit : ¬ (ascii '0' ≤ ascii '.' ∧ ascii '.' ≤ ascii '9') := by decide
  rw [step, if_neg fun h ↦ hdigit h.2, show Flag.ofChar (ascii '.') = some .dot by decide]
  simp only [flag, if_neg (Int.not_lt.mpr h)]

/-- The digits of a number and the dot behind it: the number is the width, but for `0`,
which is a flag. -/
theorem Scan.foldl_width {w : Nat} (hw : w < 2 ^ 31) (ap : List Arg) :
    (digits 10 w ++ [ascii '.']).foldl Scan.step ⟨false, ap, {}⟩ =
      ⟨false, ap, { padc := if w = 0 then ascii '0' else ascii ' ', width := w }⟩ := by
  rw [List.foldl_append]
  by_cases h : w = 0
  · subst h
    rw [digits_zero]
    rfl
  · have hwrap : wrap32 w = w := wrap32_of_range (by omega)
    have hleave : Scan.leave ⟨true, ap, { precision := w }⟩ = ⟨false, ap, { width := w }⟩ := rfl
    have hwidth : 0 ≤ (Scan.leave ⟨true, ap, { precision := w }⟩).esc.width := Int.natCast_nonneg w
    rw [foldl_digits (by omega), hwrap, if_neg h, List.foldl_cons, List.foldl_nil, step_dot hwidth,
      hleave]

/-- The digits of a number after a width. -/
theorem Scan.foldl_precision {p : Nat} (hp : p < 2 ^ 31) (ap : List Arg) {e : Esc}
    (hwidth : 0 ≤ e.width) :
    ((digits 10 p).foldl Scan.step ⟨false, ap, e⟩).leave.esc =
      if p = 0 then { e with padc := ascii '0' } else { e with precision := p } := by
  by_cases h : p = 0
  · subst h
    rw [digits_zero]
    rfl
  · have hwrap : wrap32 p = p := wrap32_of_range (by omega)
    rw [foldl_digits (by omega), hwrap, if_neg h, Scan.leave, if_pos rfl]
    exact if_neg (by dsimp only; omega)

theorem literal_esc {w p : Nat} (hw : w < 2 ^ 31) (hp : p < 2 ^ 31) (ap : List Arg) :
    ((literalFlags w p).foldl Scan.step ⟨false, ap, {}⟩).leave.esc = literalEsc w p := by
  rw [literalFlags, List.append_cons, List.foldl_append, Scan.foldl_width hw,
    Scan.foldl_precision hp ap (by dsimp only; omega), literalEsc]

theorem starDemands_literalFlags (w p : Nat) : starDemands (literalFlags w p) = [] := by
  have hdigits : ∀ n, ascii '*' ∉ digits 10 n := by
    intro n hmem
    obtain ⟨d, hd, hstar⟩ := exists_digit_of_mem_digits (by decide) hmem
    revert d
    decide
  have hstar : ascii '*' ∉ literalFlags w p := by
    rw [literalFlags, List.mem_append, List.mem_cons, not_or, not_or]
    exact ⟨hdigits w, by decide, hdigits p⟩
  rw [starDemands, List.map_eq_nil_iff, List.filter_eq_nil_iff]
  intro b hb
  rw [decide_eq_true_eq]
  rintro rfl
  exact hstar hb

theorem literalSpec_at (w p : Nat) :
    (literalSpec w p).At 0 (ascii '%' :: literalFlags w p ++ [ascii 's']) := .start _

theorem literalSpec_reswitch {w p : Nat} (hw : w < 2 ^ 31) (hp : p < 2 ^ 31) (ap : List Arg) :
    reswitch (literalSpec w p) 1 ap {} =
      .ok (ascii 's', 1 + (literalFlags w p).length + 1, ap, literalEsc w p) := by
  have hat : (literalSpec w p).At 1 (literalFlags w p ++ [ascii 's']) := (literalSpec_at w p).tail
  have hstop : ¬ isFlag ([ascii 's'].headD 0) := by decide
  have hstars : Meets (starDemands (literalFlags w p)) ap := by
    rw [starDemands_literalFlags]
    trivial
  have hscan := Scan.resume_flags (s := ⟨false, ap, {}⟩) (fun _ ↦ isFlag_of_mem_literalFlags) hstop
    hat hstars
  rw [literal_esc hw hp, starDemands_literalFlags] at hscan
  exact hscan

theorem toInt_ofNat {n : Nat} (h : n < 2 ^ 31) : (BitVec.ofNat 32 n).toInt = n := by
  rw [BitVec.toInt_eq_toNat_of_lt (by rw [BitVec.toNat_ofNat]; omega), BitVec.toNat_ofNat]
  omega

theorem starSpec_reswitch {w p : Nat} (hw : w < 2 ^ 31) (hp : p < 2 ^ 31) (ap : List Arg) :
    reswitch starSpec 1 (.word (BitVec.ofNat 32 w) :: .word (BitVec.ofNat 32 p) :: ap) {} =
      .ok (ascii 's', 5, ap, { width := w, precision := p }) := by
  have hat : starSpec.At 1 (asciis "*.*".toList ++ [ascii 's']) := (CString.At.start starSpec).tail
  have hstop : ¬ isFlag ([ascii 's'].headD 0) := by decide
  have hflags : ∀ b ∈ asciis "*.*".toList, isFlag b := by decide
  have hwidth : ({ precision := w } : Esc).processPrecision = { width := w } := rfl
  have hprec : ({ width := w, precision := p } : Esc).processPrecision =
      { width := w, precision := p } := if_neg (Int.not_lt.mpr (Int.natCast_nonneg w))
  have hdot : Scan.step ⟨false, .word (BitVec.ofNat 32 p) :: ap, { width := w }⟩ (ascii '.') =
      ⟨false, .word (BitVec.ofNat 32 p) :: ap, { width := w }⟩ :=
    Scan.step_dot (Int.natCast_nonneg w)
  have hesc : ((asciis "*.*".toList).foldl Scan.step
      ⟨false, .word (BitVec.ofNat 32 w) :: .word (BitVec.ofNat 32 p) :: ap, {}⟩).leave.esc =
      { width := w, precision := p } := by
    rw [show asciis "*.*".toList = [ascii '*', ascii '.', ascii '*'] from rfl, List.foldl_cons,
      Scan.step_star, toInt_ofNat hw, hwidth, List.foldl_cons, hdot, List.foldl_cons,
      Scan.step_star, toInt_ofNat hp, hprec]
    rfl
  have hscan := Scan.resume_flags
    (s := ⟨false, .word (BitVec.ofNat 32 w) :: .word (BitVec.ofNat 32 p) :: ap, {}⟩)
    hflags hstop hat ⟨trivial, trivial, trivial⟩
  rw [hesc] at hscan
  exact hscan

/-! ## What they print -/

/-- Without a width there is no padding, whatever the pad character. -/
theorem string_of_no_width {e : Esc} (h : e.width ≤ 0) (padc : Byte) (s : List Byte) :
    { e with padc }.string s = e.string s := by
  have hbefore : { e with padc }.before s = e.before s := by
    rw [Esc.before, Esc.before, if_neg fun hleft ↦ Int.not_lt.mpr h hleft.1,
      if_neg fun hleft ↦ Int.not_lt.mpr h hleft.1]
  rw [Esc.string, Esc.string, hbefore]
  rfl

/-- A precision other than `0` is the same either way. -/
theorem literalEsc_string {p : Nat} (hp : 0 < p) (w : Nat) (s : List Byte) :
    (literalEsc w p).string s = ({ width := w, precision := p } : Esc).string s := by
  rw [literalEsc, if_neg (by omega)]
  by_cases hw : w = 0
  · rw [if_pos hw]
    exact string_of_no_width (e := { width := w, precision := p }) (by dsimp only; omega) _ s
  · rw [if_neg hw]

/-- The precision `0`: nothing of the string, and a field of spaces. -/
theorem string_of_zero_precision {w : Nat} (hw : w < 2 ^ 31) (s : List Byte) :
    ({ width := w, precision := 0 } : Esc).string s = List.replicate w 0x20 := by
  have he : ({ width := w, precision := 0 } : Esc).InRange :=
    ⟨⟨by dsimp only; omega, by dsimp only; omega⟩,
      (by decide : (-2 ^ 31 : Int) ≤ 0 ∧ (0 : Int) < 2 ^ 31)⟩
  have hlen : ({ width := w, precision := 0 } : Esc).textLength s = 0 := Nat.min_zero s.length
  have hprec : (-1 : Int) ≤ 0 := by decide
  rw [stringField_eq he (by dsimp only; omega) hprec (by rw [hlen]; decide), stringField,
    if_neg (show ascii ' ' ≠ ascii '-' by decide), Esc.text, hlen, List.take_zero, List.map_nil,
    List.append_nil, padding, Int.ofNat_zero, Int.sub_zero, Int.toNat_natCast]
  rfl

theorem shown_eq_space {b : Byte} : shown false b = 0x20 ↔ b = ascii ' ' := by
  revert b
  decide

section

variable {e : Esc} {w : Nat} {s : List Byte}

/-- Before a string that is shorter than the field there is a pad character. -/
theorem before_of_short (hwidth : e.width = w) (hw : w < 2 ^ 31) (hpadc : e.padc ≠ ascii '-')
    (hprec : e.precision = -1) (hlt : s.length < w) :
    e.padc.setWidth 32 ∈ (e.before s).2 := by
  have hstrnlen : min s.length ((-1 : Int) % 2 ^ 32).toNat = s.length := by omega
  have hwrap : wrap32 (w - s.length) = w - s.length := wrap32_of_range (by omega)
  rw [Esc.before, if_pos ⟨by omega, hpadc⟩, hwidth, hprec]
  simp only [hstrnlen, hwrap]
  exact List.mem_replicate.mpr ⟨by omega, rfl⟩

/-- Before a string that fills the field there is nothing. -/
theorem before_of_full (hwidth : e.width = w) (hw : w < 2 ^ 31) (hprec : e.precision = -1)
    (hlen : s.length = w) : (e.before s).2 = [] ∧ 0 ≤ (e.before s).1 ∧ (e.before s).1 ≤ w := by
  have hstrnlen : min w ((-1 : Int) % 2 ^ 32).toNat = w := by omega
  have hwrap : wrap32 0 = 0 := by decide
  rw [Esc.before, hwidth, hprec, hlen]
  simp only [hstrnlen, Int.sub_self, hwrap]
  split_ifs
  · exact ⟨rfl, Int.le_refl 0, Int.natCast_nonneg w⟩
  · exact ⟨rfl, Int.natCast_nonneg w, Int.le_refl w⟩

theorem text_of_no_precision (hprec : e.precision = -1) :
    e.text s = s.map (shown e.altflag) ∧ e.textLength s = s.length := by
  have hlen : e.textLength s = s.length := if_pos (by omega)
  rw [Esc.text, hlen, List.take_length]
  exact ⟨rfl, rfl⟩

/-- The flag `0` in place of a precision: the whole string, with zeros before it. -/
theorem string_eq_spaces_iff (hwidth : e.width = w) (hw : w < 2 ^ 31) (hpadc : e.padc = ascii '0')
    (hprec : e.precision = -1) (halt : e.altflag = false) :
    e.string s = List.replicate w 0x20 ↔ s = List.replicate w (ascii ' ') := by
  obtain ⟨htext, hlen⟩ := text_of_no_precision (s := s) hprec
  have hpadc' : e.padc ≠ ascii '-' := by rw [hpadc]; decide
  rw [halt] at htext
  rw [Esc.string, htext, hlen]
  constructor
  · intro h
    have hspace : ∀ c, c ∈ (e.before s).2 ∨ c ∈ s.map (shown false) → c = 0x20 := by
      intro c hc
      refine List.eq_of_mem_replicate (n := w) ?_
      rw [← h, List.mem_append, List.mem_append]
      exact .inl hc
    have hle : s.length ≤ w := by
      have := congrArg List.length h
      rw [List.length_append, List.length_append, List.length_map, List.length_replicate,
        List.length_replicate] at this
      omega
    have hge : ¬ s.length < w := by
      intro hlt
      have hzero := hspace _ (.inl (before_of_short hwidth hw hpadc' hprec hlt))
      rw [hpadc] at hzero
      exact absurd hzero (by decide)
    rw [show w = s.length by omega]
    refine List.eq_replicate_of_mem fun b hb ↦ shown_eq_space.mp ?_
    exact hspace _ (.inr (List.mem_map_of_mem hb))
  · intro h
    have hfull : s.length = w := by rw [h, List.length_replicate]
    obtain ⟨hbefore, hlo, hhi⟩ := before_of_full hwidth hw hprec hfull
    have hafter : wrap32 ((e.before s).1 - s.length) = (e.before s).1 - s.length :=
      wrap32_of_range (by omega)
    rw [hbefore, hafter, Int.toNat_of_nonpos (by omega), h, List.map_replicate,
      shown_eq_space.mpr rfl, List.replicate_zero, List.nil_append, List.append_nil]

end

theorem literalSpec_prints {w p : Nat} (hw : w < 2 ^ 31) (hp : p < 2 ^ 31)
    {ptr : Option (List Byte)} {s junk : List Byte} (hptr : stringOrNull ptr = s ++ 0 :: junk)
    (hzero : 0 ∉ s) : Prints (literalSpec w p) 0 [.str ptr] ((literalEsc w p).string s) := by
  have hat := literalSpec_at w p
  have hescape := string_escapes hat.read (literalSpec_reswitch hw hp [.str ptr]) hptr hzero
  have hend : (literalSpec w p).At (0 + 1 + (literalFlags w p).length + 1) [] :=
    hat.tail.append.tail
  have hprints := hescape.prints (prints_nil (by rwa [Nat.zero_add] at hend) [])
  rwa [List.append_nil] at hprints

theorem starSpec_prints {w p : Nat} (hw : w < 2 ^ 31) (hp : p < 2 ^ 31)
    {ptr : Option (List Byte)} {s junk : List Byte} (hptr : stringOrNull ptr = s ++ 0 :: junk)
    (hzero : 0 ∉ s) :
    Prints starSpec 0 [.word (BitVec.ofNat 32 w), .word (BitVec.ofNat 32 p), .str ptr]
      (({ width := w, precision := p } : Esc).string s) := by
  have hread : starSpec.read 0 = .ok (ascii '%') := by decide
  have hescape := string_escapes hread (starSpec_reswitch hw hp [.str ptr]) hptr hzero
  have hend : starSpec.At 5 [] := ⟨by decide, by decide⟩
  have hprints := hescape.prints (prints_nil hend [])
  rwa [List.append_nil] at hprints

/-- **Widths and precisions as numerals and as arguments.**  `%w.ps` with numerals prints
the same of a string as `%*.*s` with arguments exactly when the precision is not `0`, or
the string is the field of spaces that the arguments ask for. -/
theorem literal_eq_star_iff {w p : Nat} (hw : w < 2 ^ 31) (hp : p < 2 ^ 31)
    {ptr : Option (List Byte)} {s junk : List Byte} (hptr : stringOrNull ptr = s ++ 0 :: junk)
    (hzero : 0 ∉ s) :
    ∃ W W', Prints (literalSpec w p) 0 [.str ptr] W ∧
      Prints starSpec 0 [.word (BitVec.ofNat 32 w), .word (BitVec.ofNat 32 p), .str ptr] W' ∧
      (W = W' ↔ 0 < p ∨ s = List.replicate w (ascii ' ')) := by
  refine ⟨_, _, literalSpec_prints hw hp hptr hzero, starSpec_prints hw hp hptr hzero, ?_⟩
  rcases Nat.eq_zero_or_pos p with rfl | hpos
  · rw [Int.ofNat_zero, string_of_zero_precision hw s, or_iff_right (Nat.lt_irrefl 0)]
    exact string_eq_spaces_iff rfl hw rfl rfl rfl
  · exact iff_of_true (literalEsc_string hpos w s) (.inl hpos)

theorem fiveTwo_eq_star_iff :
    ∃ W W', Prints (literalSpec 5 2) 0 [.str (some [97, 98, 99, 0])] W ∧
      Prints starSpec 0 [.word 5, .word 2, .str (some [97, 98, 99, 0])] W' ∧
      (W = W' ↔ 0 < 2 ∨ [97, 98, 99] = List.replicate 5 (ascii ' ')) := by
  have hptr : stringOrNull (some [97, 98, 99, 0]) = [97, 98, 99] ++ 0 :: [] := by decide
  exact literal_eq_star_iff (by decide) (by decide) hptr (by decide)

/-- `%5.0s` prints all of `ab`, behind zeros. -/
theorem fiveZero_ne_star :
    (literalSpec 5 0).bytes = asciis "%5.0s".toList ∧
      vprintfmt record 2 (literalSpec 5 0) 0 [.str (some [97, 98, 0])] [] =
        .ok (codes (asciis "000ab".toList)) ∧
      vprintfmt record 2 starSpec 0 [.word 5, .word 0, .str (some [97, 98, 0])] [] =
        .ok (codes (asciis "     ".toList)) ∧
      codes (asciis "000ab".toList) ≠ codes (asciis "     ".toList) := by
  refine ⟨by decide +kernel, by decide +kernel, by decide +kernel, by decide⟩

end JosKernel.Printf
