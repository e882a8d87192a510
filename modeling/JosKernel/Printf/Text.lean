import JosKernel.Printf.Escape

/-!
# Strings

What `%s` prints of a string: its first characters, as many as the precision allows,
and padding before or behind them (`string_field_iff`).

The one counter `width` is lowered by the length of the string before the padding on
the left, and then once more for each character.  `string_escapes` says what is printed
in any case, with the counter wrapped as it is.
-/

namespace JosKernel.Printf

variable {s : List Byte} {e : Esc} {b : Byte} {junk : List Byte}

/-! ## The string -/

/-- The code that `%s` prints for a character. -/
def shown (altflag : Bool) (b : Byte) : Code :=
  let ch : Code := b.signExtend 32
  if altflag ∧ (ch.toInt < 0x20 ∨ 0x7E < ch.toInt) then 0x3F else ch

/-- The number of characters of a string that are printed. -/
def Esc.textLength (e : Esc) (s : List Byte) : Nat :=
  if e.precision < 0 then s.length else min s.length e.precision.toNat

/-- The characters of a string that are printed. -/
def Esc.text (e : Esc) (s : List Byte) : List Code :=
  (s.take (e.textLength s)).map (shown e.altflag)

theorem Esc.textLength_le (e : Esc) (s : List Byte) : e.textLength s ≤ s.length := by
  unfold Esc.textLength
  split_ifs <;> omega

theorem strnlen_eq (hzero : 0 ∉ s) (size : Nat) :
    strnlen (s ++ 0 :: junk) size = .ok (min s.length size) := by
  induction s generalizing size with
  | nil => cases size <;> simp [strnlen]
  | cons b s ih =>
      rw [List.mem_cons, not_or] at hzero
      obtain ⟨hb, hs⟩ := hzero
      cases size with
      | zero => rfl
      | succ size =>
          rw [List.cons_append, strnlen, if_neg (Ne.symm hb), ih hs, List.length_cons,
            Nat.add_min_add_right]
          rfl

section

variable {σ : Type} (putch : Code → σ → σ)

/-- One character of the string. -/
theorem strLoop_cons (hb : b ≠ 0) {precision : Int} (hprec : precision < 0 ∨ 0 < precision)
    (altflag : Bool) (bs : List Byte) (width : Int) (st : σ) :
    strLoop putch altflag (b :: bs) precision width st =
      strLoop putch altflag bs (if precision < 0 then precision else precision - 1)
        (wrap32 (width - 1)) (putch (shown altflag b) st) := by
  rw [strLoop, if_neg hb, if_pos (by omega), shown, apply_ite (fun c ↦ putch c st)]

/-- The loop stops at the NUL, or when the precision is used up. -/
theorem strLoop_stop {precision : Int} (hstop : b = 0 ∨ precision = 0) (altflag : Bool)
    (bs : List Byte) (width : Int) (st : σ) :
    strLoop putch altflag (b :: bs) precision width st = .ok (width, st) := by
  by_cases hb : b = 0
  · rw [strLoop, if_pos hb]
  · have hprec : precision = 0 := hstop.resolve_left hb
    rw [strLoop, if_neg hb, if_neg (by omega)]

/-- The loop over some characters of the string. -/
theorem strLoop_append {l rest : List Byte} (hzero : 0 ∉ l) {precision width : Int}
    (hprec : precision < 0 ∨ l.length ≤ precision) (hwidth : wrap32 width = width)
    (altflag : Bool) (st : σ) :
    strLoop putch altflag (l ++ rest) precision width st =
      strLoop putch altflag rest (if precision < 0 then precision else precision - l.length)
        (wrap32 (width - l.length)) (emit putch (l.map (shown altflag)) st) := by
  induction l generalizing precision width st with
  | nil =>
      rw [List.length_nil, Int.ofNat_zero, Int.sub_zero, Int.sub_zero, ite_self, hwidth]
      rfl
  | cons b l ih =>
      rw [List.mem_cons, not_or] at hzero
      obtain ⟨hb, hl⟩ := hzero
      rw [List.length_cons] at hprec ⊢
      have hwrap : wrap32 (wrap32 (width - 1)) = wrap32 (width - 1) :=
        wrap32_of_range (wrap32_range _)
      rw [List.cons_append, strLoop_cons putch (Ne.symm hb) (by omega),
        ih hl (by split_ifs <;> omega)
        hwrap, wrap32_sub, List.map_cons, emit_cons]
      congr 1
      · split_ifs <;> omega
      · congr 1
        omega

/-- **The loop of `%s`.** -/
theorem strLoop_eq (hzero : 0 ∉ s) {width : Int} (hwidth : wrap32 width = width) (st : σ) :
    strLoop putch e.altflag (s ++ 0 :: junk) e.precision width st =
      .ok (wrap32 (width - e.textLength s), emit putch (e.text s) st) := by
  have hlen := e.textLength_le s
  have htake : (s.take (e.textLength s)).length = e.textLength s := List.length_take_of_le hlen
  have hsplit : s ++ 0 :: junk =
      s.take (e.textLength s) ++ (s.drop (e.textLength s) ++ 0 :: junk) := by
    rw [← List.append_assoc, List.take_append_drop]
  have hprec : e.precision < 0 ∨ ((s.take (e.textLength s)).length : Int) ≤ e.precision := by
    rw [htake, Esc.textLength]
    split_ifs <;> omega
  rw [hsplit, strLoop_append putch (fun h ↦ hzero (List.mem_of_mem_take h)) hprec hwidth, htake,
    ← Esc.text]
  cases hdrop : s.drop (e.textLength s) with
  | nil => exact strLoop_stop putch (.inl rfl) _ _ _ _
  | cons b rest =>
      -- characters are left, so it is the precision that is used up
      have hlt : e.textLength s < s.length := by
        have := congrArg List.length hdrop
        rw [List.length_drop, List.length_cons] at this
        omega
      refine strLoop_stop putch (.inr ?_) _ _ _ _
      rw [Esc.textLength] at hlt ⊢
      split_ifs at hlt ⊢ <;> omega

/-! ## The padding -/

/-- The padding before the string, and the width it leaves. -/
def Esc.before (e : Esc) (s : List Byte) : Int × List Code :=
  if 0 < e.width ∧ e.padc ≠ ascii '-' then
    let width := wrap32 (e.width - (min s.length (e.precision % 2 ^ 32).toNat : Nat))
    (min width 0, List.replicate width.toNat (e.padc.setWidth 32))
  else (e.width, [])

/-- The width that the padding leaves is a value of type `int`. -/
theorem Esc.InRange.before (he : e.InRange) (s : List Byte) :
    wrap32 (e.before s).1 = (e.before s).1 := by
  refine wrap32_of_range ?_
  unfold Esc.before
  split_ifs
  · have := wrap32_range (e.width - (min s.length (e.precision % 2 ^ 32).toNat : Nat))
    dsimp only
    omega
  · exact he.width

theorem padLeft_eq (hzero : 0 ∉ s) (st : σ) :
    padLeft putch e (s ++ 0 :: junk) st = .ok ((e.before s).1, emit putch (e.before s).2 st) := by
  unfold padLeft Esc.before
  split_ifs
  · rw [strnlen_eq hzero, Result.ok_bind, padLoop_eq]
    rfl
  · rfl

/-- What `%s` prints. -/
def Esc.string (e : Esc) (s : List Byte) : List Code :=
  (e.before s).2 ++ e.text s ++
    List.replicate (wrap32 ((e.before s).1 - e.textLength s)).toNat 0x20

theorem convStr_eq {p : Option (List Byte)} (hp : stringOrNull p = s ++ 0 :: junk) (hzero : 0 ∉ s)
    (he : e.InRange) (ap : List Arg) (st : σ) :
    convStr putch e (.str p :: ap) st = .ok (ap, emit putch (e.string s) st) := by
  rw [convStr, vaStr, Result.ok_bind]
  simp only [hp, padLeft_eq putch hzero, strLoop_eq putch hzero (he.before s), Result.ok_bind,
    padLoop_eq]
  rw [Esc.string, emit_append, emit_append]
  rfl

end

theorem Conv.ofChar_s {ch : Byte} : Conv.ofChar ch = some .s ↔ ch = ascii 's' := by
  revert ch
  decide

/-- **An escape that ends in `%s`.** -/
theorem string_escapes {fmt : CString} {i i' : Nat} {ap ap' : List Arg} {p : Option (List Byte)}
    (hread : fmt.read i = .ok (ascii '%'))
    (hswitch : reswitch fmt (i + 1) ap {} = .ok (ascii 's', i', .str p :: ap', e))
    (hp : stringOrNull p = s ++ 0 :: junk) (hzero : 0 ∉ s) :
    Escapes fmt i ap (e.string s) i' ap' := by
  have he := reswitch_inRange hswitch
  have hch : Conv.ofChar (ascii 's') = some .s := Conv.ofChar_s.mpr rfl
  exact escapes_of_convert hread hswitch hch fun _ putch st ↦ convStr_eq putch hp hzero he ap' st

/-! ## The field -/

/-- The field that a string is to fill: spaces behind it with the flag `-`, or else
padding before it. -/
def stringField (e : Esc) (s : List Byte) : List Code :=
  if e.padc = ascii '-' then e.text s ++ padding 0x20 e.width (e.textLength s)
  else padding (e.padc.setWidth 32) e.width (e.textLength s) ++ e.text s

/-! ## The counter -/

/-- An `int` that has been lowered to `n`, modulo `2 ^ 32`, is not positive. -/
def Spent (n : Int) : Prop := n % 2 ^ 32 = 0 ∨ 2 ^ 31 ≤ n % 2 ^ 32

instance (n : Int) : Decidable (Spent n) :=
  inferInstanceAs (Decidable (n % 2 ^ 32 = 0 ∨ 2 ^ 31 ≤ n % 2 ^ 32))

theorem spent_iff (n : Int) : wrap32 n ≤ 0 ↔ Spent n := by
  unfold Spent wrap32
  rw [Int.bmod_def]
  split_ifs <;> omega

theorem spent_of_range {n : Int} (h : -2 ^ 31 ≤ n ∧ n ≤ 0) : Spent n := by
  rw [← spent_iff, wrap32_of_range (by omega)]
  exact h.2

/-- The string is not longer than its field, or the counter `width` does not come round to
a positive value: not when `strnlen`, which is at most `2 ^ 32 - 1`, is taken off before the
padding on the left, nor by the characters. -/
def Esc.CounterFits (e : Esc) (s : List Byte) : Prop :=
  e.textLength s ≤ e.width ∨
    if 0 < e.width ∧ e.padc ≠ ascii '-' then
      Spent (e.width - min (e.textLength s : Int) (2 ^ 32 - 1)) ∧
        Spent (e.width - min (e.textLength s : Int) (2 ^ 32 - 1) - e.textLength s)
    else Spent (e.width - e.textLength s)

/-- The counter fits if the string is not too long. -/
theorem Esc.counterFits_of_le (hwidth : -1 ≤ e.width) (hlen : e.textLength s ≤ 2 ^ 30) :
    e.CounterFits s := by
  by_cases hle : e.textLength s ≤ e.width
  · exact .inl hle
  refine .inr ?_
  rw [Int.min_eq_left (by omega)]
  split_ifs
  · exact ⟨spent_of_range (by omega), spent_of_range (by omega)⟩
  · exact spent_of_range (by omega)

/-- What `strnlen` returns for the precision converted to a `size_t`. -/
theorem Esc.strnlen_textLength (he : e.InRange) (hprec : -1 ≤ e.precision) (s : List Byte) :
    ((min s.length (e.precision % 2 ^ 32).toNat : Nat) : Int) =
      min (e.textLength s : Int) (2 ^ 32 - 1) := by
  have := he.precision
  unfold Esc.textLength
  split_ifs
  · rw [show e.precision = -1 by omega]
    omega
  · rw [Int.emod_eq_of_lt (by omega) (by omega)]
    omega

theorem append_eq_self_iff {l t r : List Code} : l ++ t ++ r = t ↔ l = [] ∧ r = [] := by
  constructor
  · intro h
    have hlen := congrArg List.length h
    rw [List.length_append, List.length_append] at hlen
    exact ⟨List.length_eq_zero_iff.mp (by omega), List.length_eq_zero_iff.mp (by omega)⟩
  · rintro ⟨rfl, rfl⟩
    rw [List.nil_append, List.append_nil]

theorem replicate_toNat_eq_nil {n : Int} {c : Code} : List.replicate n.toNat c = [] ↔ n ≤ 0 := by
  rw [List.replicate_eq_nil_iff, Int.toNat_eq_zero]

/-- A string that is longer than its field is to be printed without padding. -/
theorem stringField_of_lt (h : e.width < e.textLength s) : stringField e s = e.text s := by
  have hpad : ∀ c, padding c e.width (e.textLength s) = [] := padding_of_le (by omega)
  unfold stringField
  rw [hpad, hpad, List.append_nil, List.nil_append, ite_self]

/-- A string that is not longer than its field fills it. -/
theorem string_of_le (he : e.InRange) (hprec : -1 ≤ e.precision)
    (hle : e.textLength s ≤ e.width) : e.string s = stringField e s := by
  have hrange := he.width
  have hwrap : wrap32 (e.width - e.textLength s) = e.width - e.textLength s :=
    wrap32_of_range (by omega)
  rw [Esc.string, Esc.before, Esc.strnlen_textLength he hprec, Int.min_eq_left (by omega)]
  by_cases hleft : 0 < e.width ∧ e.padc ≠ ascii '-'
  · have hafter : wrap32 (min (e.width - e.textLength s) 0 - e.textLength s) ≤ 0 := by
      rw [spent_iff]
      exact spent_of_range (by omega)
    simp only [if_pos hleft, hwrap, replicate_toNat_eq_nil.mpr hafter, List.append_nil]
    rw [stringField, if_neg hleft.2]
    rfl
  · simp only [if_neg hleft, hwrap, List.nil_append]
    rw [stringField]
    split_ifs with hpadc
    · rfl
    · have hzero : e.width = 0 ∧ e.textLength s = 0 := by
        have : ¬ 0 < e.width := fun h ↦ hleft ⟨h, hpadc⟩
        omega
      rw [hzero.1, hzero.2, padding_of_le (by omega), List.nil_append]
      exact List.append_nil _

/-- **The field of a string.**  `%s` fills it exactly when the counter fits. -/
theorem string_eq_field_iff (he : e.InRange) (hprec : -1 ≤ e.precision) :
    e.string s = stringField e s ↔ e.CounterFits s := by
  by_cases hle : e.textLength s ≤ e.width
  · exact iff_of_true (string_of_le he hprec hle) (.inl hle)
  rw [stringField_of_lt (by omega), Esc.CounterFits, or_iff_right hle, Esc.string,
    append_eq_self_iff, replicate_toNat_eq_nil, Esc.before, Esc.strnlen_textLength he hprec]
  split_ifs with hleft
  · rw [replicate_toNat_eq_nil, spent_iff]
    refine and_congr_right ?_
    intro hspent
    dsimp only
    rw [Int.min_eq_left ((spent_iff _).mpr hspent), wrap32_sub, spent_iff]
  · rw [spent_iff]
    exact and_iff_right rfl

theorem stringField_eq (he : e.InRange) (hwidth : -1 ≤ e.width) (hprec : -1 ≤ e.precision)
    (hlen : e.textLength s ≤ 2 ^ 30) : e.string s = stringField e s :=
  (string_eq_field_iff he hprec).mpr (Esc.counterFits_of_le hwidth hlen)

/-- **Strings fill their field.**  `%s` prints the characters of a string in its field
exactly when the counter `width`, an `int`, does not overflow to a positive value. -/
theorem string_field_iff {fmt : CString} {i i' : Nat} {ap ap' : List Arg}
    {p : Option (List Byte)} (hread : fmt.read i = .ok (ascii '%'))
    (hswitch : reswitch fmt (i + 1) ap {} = .ok (ascii 's', i', .str p :: ap', e))
    (hp : stringOrNull p = s ++ 0 :: junk) (hzero : 0 ∉ s) (hprec : -1 ≤ e.precision) :
    Escapes fmt i ap (stringField e s) i' ap' ↔ e.CounterFits s := by
  have hcode := string_escapes hread hswitch hp hzero
  rw [hcode.iff_eq]
  exact string_eq_field_iff (reswitch_inRange hswitch) hprec

/-- Three characters of a string in a field of six. -/
def shortField : CString := .literal "%#6.3s"

theorem shortField_field_iff :
    Escapes shortField 0 [.str (some [97, 7, 98, 99, 0])]
        (stringField { width := 6, precision := 3, altflag := true } [97, 7, 98, 99]) 6 [] ↔
      Esc.CounterFits { width := 6, precision := 3, altflag := true } [97, 7, 98, 99] := by
  have hswitch : reswitch shortField 1 [.str (some [97, 7, 98, 99, 0])] {} =
      .ok (ascii 's', 6, [.str (some [97, 7, 98, 99, 0])],
        { width := 6, precision := 3, altflag := true }) := by decide +kernel
  have hread : shortField.read 0 = .ok (ascii '%') := by decide
  have hp : stringOrNull (some [97, 7, 98, 99, 0]) = [97, 7, 98, 99] ++ 0 :: [] := by decide
  exact string_field_iff hread hswitch hp (by decide) (by decide)

/-! ## A string that is too long -/

/-- What `%s` prints of `n` letters. -/
theorem string_replicate (n : Nat) : Esc.string {} (List.replicate n (ascii 'a')) =
    List.replicate n 0x61 ++ List.replicate (wrap32 (-1 - n)).toNat 0x20 := by
  have hbefore : Esc.before {} (List.replicate n (ascii 'a')) = (-1, []) := if_neg (by decide)
  have hlen : Esc.textLength {} (List.replicate n (ascii 'a')) = n :=
    (if_pos (by decide)).trans List.length_replicate
  rw [Esc.string, hbefore, Esc.text, hlen, List.take_replicate, Nat.min_self, List.map_replicate]
  rfl

/-- The format `%s`. -/
def plainString : CString := .literal "%s"

theorem plainString_escapes (n : Nat) :
    Escapes plainString 0 [.str (some (List.replicate n (ascii 'a') ++ [0]))]
      (List.replicate n 0x61 ++ List.replicate (wrap32 (-1 - n)).toNat 0x20) 2 [] := by
  have hat : plainString.At 0 [ascii '%', ascii 's'] := .start plainString
  have hswitch := reswitch_stop hat.tail.read (by decide)
    [.str (some (List.replicate n (ascii 'a') ++ [0]))] {}
  have hzero : 0 ∉ List.replicate n (ascii 'a') :=
    fun h ↦ absurd (List.eq_of_mem_replicate h) (by decide)
  rw [← string_replicate]
  exact string_escapes hat.read hswitch rfl hzero

/-- The field of `2 ^ 31` letters without a width is to hold only them.  The counter, at -1
before them, is at `2 ^ 31 - 1` behind them, and as many spaces follow. -/
theorem plainString_not_field :
    Escapes plainString 0 [.str (some (List.replicate (2 ^ 31) (ascii 'a') ++ [0]))]
        (List.replicate (2 ^ 31) 0x61 ++ List.replicate (2 ^ 31 - 1) 0x20) 2 [] ∧
      ¬ Escapes plainString 0 [.str (some (List.replicate (2 ^ 31) (ascii 'a') ++ [0]))]
        (stringField {} (List.replicate (2 ^ 31) (ascii 'a'))) 2 [] := by
  have hescapes := plainString_escapes (2 ^ 31)
  have hwrap : (wrap32 (-1 - (2 ^ 31 : Nat))).toNat = 2 ^ 31 - 1 := by decide
  have hlen : Esc.textLength {} (List.replicate (2 ^ 31) (ascii 'a')) = 2 ^ 31 :=
    (if_pos (by decide)).trans List.length_replicate
  refine ⟨hwrap ▸ hescapes, ?_⟩
  rw [hescapes.iff_eq, ← string_replicate, string_eq_field_iff Esc.inRange_default (by decide),
    Esc.CounterFits, hlen]
  decide

end JosKernel.Printf
