import JosKernel.Printf.Literal
import JosKernel.Printf.Numeral

/-!
# The texts of `%e`

`%e` takes an error number of either sign, and prints the text that the table has for its
absolute value, or the value.  `INT_MIN` has no absolute value in an `int`: the code finds
it less than `MAXERROR`, and takes it for an index.
-/

namespace JosKernel.Printf

variable {err : BitVec 32} {cs cs' : List Code}

/-! ## The conversion -/

/-- The value of `err` after `if (err < 0) err = -err;`. -/
def magnitude (err : BitVec 32) : Int := if err.toInt < 0 then wrap32 (-err.toInt) else err.toInt

/-- The index that `error_string` is read at, if it is. -/
def errorIndex (err : BitVec 32) : Option Int :=
  if maxError ≤ magnitude err then none else some (magnitude err)

/-- The text for an error number without its sign. -/
def errorText (n : Nat) : List Code :=
  match errorTable[n]?.join with
  | some p => codes p
  | none => codes (asciis "error ".toList) ++ numeral 10 n

/-- The text that the code prints. -/
def codeText (err : BitVec 32) : List Code :=
  match errorString (magnitude err) with
  | some p => codes p
  | none => codes (asciis "error ".toList) ++ signedNumeral 10 (magnitude err)

/-- Any `%e`, whatever its flags, hands the codes to the callback when its argument is
`err`, and the format goes on behind it. -/
def EmitsError (err : BitVec 32) (cs : List Code) : Prop :=
  ∀ (fmt : CString) (i i' : Nat) (ap ap' : List Arg) (e : Esc), fmt.read i = .ok (ascii '%') →
    reswitch fmt (i + 1) ap {} = .ok (ascii 'e', i', .word err :: ap', e) →
      ∀ (σ : Type) (putch : Code → σ → σ) (fuel : Nat) (s : σ), 2 ≤ fuel →
        vprintfmt putch (fuel + 1) fmt i ap s = vprintfmt putch fuel fmt i' ap' (emit putch cs s)

/-! ## The calls of `printfmt` -/

/-- A format that ends in an escape. -/
theorem vprintfmt_single {fmt : CString} {l : List Byte} {ch : Byte} {ap : List Arg}
    (hat : fmt.At 0 (l ++ [ascii '%', ch])) (hl : ascii '%' ∉ l)
    (h : Escapes fmt (0 + l.length) ap cs (0 + l.length + 2) []) {σ : Type} (putch : Code → σ → σ)
    {fuel : Nat} (hfuel : 2 ≤ fuel) (s : σ) :
    vprintfmt putch fuel fmt 0 ap s = .ok (emit putch (codes l ++ cs) s) := by
  obtain ⟨fuel, rfl⟩ := Nat.exists_eq_add_of_le' hfuel
  have hend : fmt.read (0 + l.length + 2) = .ok 0 := hat.append.tail.tail.read
  rw [vprintfmt_literal hat hl, h.vprintfmt_eq, vprintfmt_nul hend, emit_append]

/-- The texts of the table are printed as they are. -/
theorem errorTable_texts : ∀ entry ∈ errorTable, ∀ p ∈ entry,
    0 ∉ p ∧ ({} : Esc).string p = codes p := by
  decide +kernel

theorem errorString_mem {n : Int} {p : List Byte} (h : errorString n = some p) :
    some p ∈ errorTable := by
  unfold errorString at h
  split_ifs at h
  exact List.mem_of_getElem? (Option.join_eq_some_iff.mp h)

section

variable {fmt : CString} {σ : Type} {putch : Code → σ → σ} {fuel : Nat}

/-- `printfmt(putch, putdat, "%s", p)`. -/
theorem vprintfmt_string {n : Int} {p : List Byte} (h : errorString n = some p)
    (hat : fmt.At 0 ([] ++ [ascii '%', ascii 's'])) (hfuel : 2 ≤ fuel) (s : σ) :
    vprintfmt putch fuel fmt 0 [.str (some (p ++ [0]))] s = .ok (emit putch (codes p) s) := by
  obtain ⟨hzero, hstring⟩ := errorTable_texts _ (errorString_mem h) p rfl
  have hp : stringOrNull (some (p ++ [0])) = p ++ 0 :: [] := rfl
  have hswitch := reswitch_stop hat.tail.read (by decide) [.str (some (p ++ [0]))] {}
  have hescapes := string_escapes hat.read hswitch hp hzero
  rw [hstring] at hescapes
  exact vprintfmt_single hat (by decide) hescapes putch hfuel s

/-- `printfmt(putch, putdat, "error %d", err)`. -/
theorem vprintfmt_number {n : Int} (hn : wrap32 n = n)
    (hat : fmt.At 0 (asciis "error ".toList ++ [ascii '%', ascii 'd'])) (hfuel : 2 ≤ fuel) (s : σ) :
    vprintfmt putch fuel fmt 0 [.word (BitVec.ofInt 32 n)] s =
      .ok (emit putch (codes (asciis "error ".toList) ++ signedNumeral 10 n) s) := by
  have hswitch := reswitch_stop hat.append.tail.read (by decide) [.word (BitVec.ofInt 32 n)] {}
  have hnum : getint 0 [.word (BitVec.ofInt 32 n)] = .ok ((BitVec.ofInt 32 n).signExtend 64, []) :=
    rfl
  have hvalue : ((BitVec.ofInt 32 n).signExtend 64).toInt = n := by
    rw [BitVec.toInt_signExtend_of_le (by decide), BitVec.toInt_ofInt]
    exact hn
  have hescapes := Numeric.escapes hat.append.read hswitch (by decide) (.d hnum) (by decide)
  rw [hvalue, padding_of_le (by dsimp only; omega), List.nil_append] at hescapes
  exact vprintfmt_single hat (by decide) hescapes putch hfuel s

end

/-- Any number but `INT_MIN` has an absolute value. -/
theorem magnitude_of_ne (h : err ≠ BitVec.intMin 32) : magnitude err = err.toInt.natAbs := by
  have hlo := BitVec.le_toInt err
  have hhi := BitVec.toInt_lt (x := err)
  have hne : err.toInt ≠ -2 ^ 31 := fun hmin ↦ h (BitVec.eq_of_toInt_eq hmin)
  rw [magnitude]
  split_ifs with hneg
  · rw [wrap32_of_range (by omega)]
    omega
  · omega

theorem magnitude_neg (err : BitVec 32) : magnitude (-err) = magnitude err := by
  by_cases h : err = BitVec.intMin 32
  · rw [h, BitVec.neg_intMin]
  · have hneg : -err ≠ BitVec.intMin 32 := by
      rwa [ne_eq, BitVec.neg_eq_intMin]
    rw [magnitude_of_ne h, magnitude_of_ne hneg, BitVec.toInt_neg_of_ne_intMin h, Int.natAbs_neg]

theorem wrap32_magnitude (err : BitVec 32) : wrap32 (magnitude err) = magnitude err := by
  rw [magnitude]
  split_ifs
  · exact wrap32_of_range (wrap32_range _)
  · exact wrap32_of_range ⟨BitVec.le_toInt err, BitVec.toInt_lt⟩

/-- What `%e` calls `printfmt` with, and what that prints. -/
theorem convError_text (err : BitVec 32) (ap : List Arg) :
    ∃ fmt ap', convError (.word err :: ap) = .ok ((fmt, ap'), ap) ∧
      ∀ (σ : Type) (putch : Code → σ → σ) (fuel : Nat) (s : σ), 2 ≤ fuel →
        vprintfmt putch fuel fmt 0 ap' s = .ok (emit putch (codeText err) s) := by
  have herror : vaInt (.word err :: ap) = .ok (err.toInt, ap) := rfl
  have hmag : (if err.toInt < 0 then wrap32 (-err.toInt) else err.toInt) = magnitude err := rfl
  simp only [convError, codeText, herror, Result.ok_bind, hmag]
  cases herr : errorString (magnitude err) with
  | none =>
      refine ⟨_, _, rfl, fun σ putch fuel s hfuel ↦ ?_⟩
      exact vprintfmt_number (wrap32_magnitude err) (.start _) hfuel s
  | some p =>
      refine ⟨_, _, rfl, fun σ putch fuel s hfuel ↦ ?_⟩
      exact vprintfmt_string herr (.start _) hfuel s

/-! ## What `%e` prints -/

/-- **The conversion** prints the text of the code. -/
theorem emitsError_codeText (err : BitVec 32) : EmitsError err (codeText err) := by
  intro fmt i i' ap ap' e hread hswitch σ putch fuel s hfuel
  obtain ⟨fmt', args, hconv, hprints⟩ := convError_text err ap'
  rw [vprintfmt_percent hread, escape, hswitch, Result.ok_bind]
  simp only [if_true, hconv, Result.ok_bind, hprints σ putch fuel s hfuel]

/-- The format `%e`. -/
def plainError : CString := .literal "%e"

/-- The codes are determined. -/
theorem EmitsError.unique (h : EmitsError err cs) (h' : EmitsError err cs') : cs = cs' := by
  have hat : plainError.At 0 [ascii '%', ascii 'e'] := .start _
  have hswitch : reswitch plainError (0 + 1) [.word err] {} = .ok (ascii 'e', 2, [.word err], {}) :=
    reswitch_stop hat.tail.read (by decide) _ _
  have hrec := (h plainError 0 2 _ [] {} hat.read hswitch _ record 2 [] (Nat.le_refl 2)).symm.trans
    (h' plainError 0 2 _ [] {} hat.read hswitch _ record 2 [] (Nat.le_refl 2))
  rw [vprintfmt_nul hat.tail.tail.read, vprintfmt_nul hat.tail.tail.read] at hrec
  simpa only [emit_record, List.nil_append] using Except.ok.inj hrec

theorem emitsError_iff : EmitsError err cs ↔ cs = codeText err := by
  constructor
  · exact fun h ↦ h.unique (emitsError_codeText err)
  · rintro rfl
    exact emitsError_codeText err

/-! ## Which error numbers have a text -/

/-- What `%e` is to do with an error number: read the table inside it, not look at the
sign, and print the text of the absolute value. -/
structure ErrorMeets (err : BitVec 32) : Prop where
  index : ∀ i ∈ errorIndex err, 0 ≤ i ∧ i < maxError
  sign : ∀ cs, EmitsError (-err) cs ↔ EmitsError err cs
  text : EmitsError err (errorText err.toInt.natAbs)

/-- The table and the text for an absolute value. -/
theorem errorString_natCast (n : Nat) : errorString n = errorTable[n]?.join := by
  have hlen : errorTable.length = 8 := rfl
  have hmax : maxError = 8 := rfl
  rw [errorString]
  split_ifs with h
  · rw [List.getElem?_eq_none (by omega)]
    rfl
  · have hindex : ((n : Int) % 2 ^ 30).toNat = n := by omega
    rw [hindex]

theorem codeText_of_ne (h : err ≠ BitVec.intMin 32) :
    codeText err = errorText err.toInt.natAbs := by
  rw [codeText, errorText, magnitude_of_ne h, errorString_natCast,
    signedNumeral_of_nonneg (Int.natCast_nonneg _), Int.natAbs_natCast]

/-- The index of `INT_MIN` is below the table. -/
theorem ErrorMeets.ne_intMin (h : ErrorMeets err) : err ≠ BitVec.intMin 32 := by
  rintro rfl
  have hindex := h.index (-2 ^ 31) (by decide)
  exact absurd hindex.1 (by decide)

/-- **The texts of `%e`** are what they should be for any error number but `INT_MIN`. -/
theorem errorMeets_iff (err : BitVec 32) : ErrorMeets err ↔ err ≠ BitVec.intMin 32 := by
  constructor
  · exact ErrorMeets.ne_intMin
  · intro h
    refine ⟨?_, ?_, ?_⟩
    · intro i hi
      rw [errorIndex, magnitude_of_ne h] at hi
      split_ifs at hi with hmax
      · cases hi
      · cases hi
        exact ⟨Int.natCast_nonneg _, Int.not_le.mp hmax⟩
    · intro cs
      rw [emitsError_iff, emitsError_iff, codeText, codeText, magnitude_neg]
    · rw [emitsError_iff, codeText_of_ne h]

/-- `INT_MIN` is taken for an index, and printed with its sign. -/
theorem intMin_not_meets :
    ¬ (∀ err : BitVec 32, ErrorMeets err) ∧ errorIndex (BitVec.intMin 32) = some (-2 ^ 31) ∧
      EmitsError (BitVec.intMin 32) (codes (asciis "error -2147483648".toList)) := by
  refine ⟨fun h ↦ (h (BitVec.intMin 32)).ne_intMin rfl, by decide, ?_⟩
  rw [emitsError_iff]
  decide +kernel

end JosKernel.Printf
