import JosKernel.Printf.Verbatim

/-!
# One escape

An escape hands some codes to the callback, whatever the callback is, and then the
format goes on behind it: `Escapes` says which codes, and where.  The codes are
determined by the format and the arguments (`Escapes.unique`), and the pieces of a
format are put together from them (`Escapes.prints`).

The scan of an escape keeps `width` and `precision` in the range of an `int`
(`reswitch_inRange`).
-/

namespace JosKernel.Printf

variable {fmt : CString} {i i' : Nat} {ap ap' : List Arg} {cs cs' : List Code}

/-! ## What an escape prints -/

/-- The escape at index `i` hands over the codes `cs`, and whatever comes next goes on
at `i'` with the arguments `ap'`. -/
structure Escapes (fmt : CString) (i : Nat) (ap : List Arg) (cs : List Code) (i' : Nat)
    (ap' : List Arg) : Prop where
  percent : fmt.read i = .ok (ascii '%')
  emits : ∀ (σ : Type) (putch : Code → σ → σ) (go : CString → Nat → List Arg → σ → Except Stop σ)
    (s : σ), escape putch go fmt (i + 1) ap s = go fmt i' ap' (emit putch cs s)

/-- A pass of `vprintfmt` that starts with the escape. -/
theorem Escapes.vprintfmt_eq (h : Escapes fmt i ap cs i' ap') {σ : Type} (putch : Code → σ → σ)
    (fuel : Nat) (s : σ) :
    vprintfmt putch (fuel + 1) fmt i ap s = vprintfmt putch fuel fmt i' ap' (emit putch cs s) := by
  rw [vprintfmt_percent h.percent]
  exact h.emits σ putch _ s

/-- The codes of an escape are determined. -/
theorem Escapes.unique (h : Escapes fmt i ap cs i' ap') (h' : Escapes fmt i ap cs' i' ap') :
    cs = cs' := by
  have hrec := (h.emits _ record (fun _ _ _ s ↦ .ok s) []).symm.trans (h'.emits _ record _ [])
  simpa only [emit_record, List.nil_append] using Except.ok.inj hrec

/-- Other codes are those of the escape exactly when they are the same. -/
theorem Escapes.iff_eq (h : Escapes fmt i ap cs i' ap') :
    Escapes fmt i ap cs' i' ap' ↔ cs = cs' := by
  constructor
  · exact h.unique
  · rintro rfl
    exact h

/-- The escape, and then the rest of the format. -/
theorem Escapes.prints (h : Escapes fmt i ap cs i' ap') (hrest : Prints fmt i' ap' cs') :
    Prints fmt i ap (cs ++ cs') := by
  obtain ⟨n, hn⟩ := hrest
  refine .of_escape h.percent (n := n) ?_
  intro fuel hfuel σ putch s
  rw [h.emits, hn fuel hfuel, emit_append]

/-- What a format prints is determined. -/
theorem Prints.unique (h : Prints fmt i ap cs) (h' : Prints fmt i ap cs') : cs = cs' := by
  obtain ⟨n, hn⟩ := h
  obtain ⟨n', hn'⟩ := h'
  have hrec := (hn (max n n') (le_max_left _ _) _ record []).symm.trans
    (hn' (max n n') (le_max_right _ _) _ record [])
  simpa only [emit_record, List.nil_append] using Except.ok.inj hrec

/-- An escape that ends in a conversion. -/
theorem escapes_of_convert {ch : Byte} {conv : Conv} {e : Esc} {ap'' : List Arg}
    (hread : fmt.read i = .ok (ascii '%'))
    (hswitch : reswitch fmt (i + 1) ap {} = .ok (ch, i', ap', e)) (hch : Conv.ofChar ch = some conv)
    (h : ∀ (σ : Type) (putch : Code → σ → σ) (s : σ),
      convert putch conv e ap' s = .ok (ap'', emit putch cs s)) :
    Escapes fmt i ap cs i' ap'' := by
  refine ⟨hread, ?_⟩
  intro σ putch go s
  have he : ch ≠ ascii 'e' := by
    rintro rfl
    cases hch
  rw [escape, hswitch, Result.ok_bind]
  simp only [if_neg he, hch, h, Result.ok_bind]

/-! ## Padding -/

/-- The padding of a field of width `width` around `len` codes. -/
def padding (padc : Code) (width : Int) (len : Nat) : List Code :=
  List.replicate (width - len).toNat padc

theorem length_padding (padc : Code) (width : Int) (len : Nat) :
    (padding padc width len).length = (width - len).toNat := List.length_replicate

theorem padding_of_le {width : Int} {len : Nat} (h : width ≤ len) (padc : Code) :
    padding padc width len = [] := by
  rw [padding, Int.toNat_of_nonpos (by omega)]
  rfl

/-! ## Ranges -/

/-- `width` and `precision` are values of type `int`. -/
structure Esc.InRange (e : Esc) : Prop where
  width : -2 ^ 31 ≤ e.width ∧ e.width < 2 ^ 31
  precision : -2 ^ 31 ≤ e.precision ∧ e.precision < 2 ^ 31

theorem Esc.inRange_default : Esc.InRange {} := ⟨by decide, by decide⟩

theorem Esc.InRange.processPrecision {e : Esc} (h : e.InRange) : e.processPrecision.InRange := by
  unfold Esc.processPrecision
  split_ifs
  · exact ⟨h.precision, (by decide : (-2 ^ 31 : Int) ≤ -1 ∧ (-1 : Int) < 2 ^ 31)⟩
  · exact h

/-- An `int` argument is a word. -/
theorem vaInt_ok {n : Int} (h : vaInt ap = .ok (n, ap')) : ∃ w : BitVec 32, n = w.toInt := by
  match ap, h with
  | .word w :: ap, h =>
      cases h
      exact ⟨w, rfl⟩

theorem vaInt_of_not_meets (h : ¬ Meets [.word] ap) : vaInt ap = .error .arg := by
  match ap, h with
  | [], _ => rfl
  | .word _ :: _, h => exact absurd ⟨trivial, trivial⟩ h
  | .dword _ :: _, _ => rfl
  | .str _ :: _, _ => rfl

theorem Scan.leave_inRange {s : Scan} (h : s.esc.InRange) : s.leave.esc.InRange := by
  unfold Scan.leave
  split_ifs
  · exact h.processPrecision
  · exact h

theorem Scan.flag_inRange {s : Scan} (h : s.esc.InRange) (b : Byte) (f : Flag) :
    (s.flag b f).esc.InRange := by
  have hwidth := h.width
  have hprec := h.precision
  cases f with
  | digit =>
      have := b.isLt
      exact ⟨h.width, by dsimp only [Scan.flag]; omega⟩
  | star =>
      simp only [Scan.flag]
      split
      next n ap hva =>
        refine Esc.InRange.processPrecision ⟨h.width, ?_⟩
        obtain ⟨w, rfl⟩ := vaInt_ok hva
        exact ⟨BitVec.le_toInt w, BitVec.toInt_lt⟩
      next => exact h
  | dot =>
      refine ⟨?_, h.precision⟩
      simp only [Scan.flag]
      split_ifs <;> omega
  | _ => exact ⟨h.width, h.precision⟩

theorem Scan.step_inRange {s : Scan} (h : s.esc.InRange) (b : Byte) : (s.step b).esc.InRange := by
  unfold Scan.step
  split_ifs
  · exact ⟨h.width, wrap32_range _⟩
  · split
    · exact Scan.flag_inRange (Scan.leave_inRange h) b _
    · exact h

/-- A star without an argument. -/
theorem Scan.resume_star {s : Scan} (hread : fmt.read i = .ok (ascii '*'))
    (h : ¬ Meets [.word] s.ap) : s.resume fmt i = .error .arg := by
  have hswitch := reswitch_flag hread (Flag.ofChar_star.mpr rfl) s.leave.ap s.leave.esc
  rw [s.leave_ap, vaInt_of_not_meets h] at hswitch
  rw [Scan.resume_leave hread (by decide), Scan.resume, s.leave_inNumber, s.leave_ap]
  exact hswitch

/-- A scan that returns has stopped at a character that is no flag, or goes on after a
flag. -/
theorem Scan.resume_cases {s : Scan} {r : Byte × Nat × List Arg × Esc}
    (h : s.resume fmt i = .ok r) :
    r.2.2.2 = s.leave.esc ∨
      i < fmt.bytes.length ∧ ∃ b, (s.step b).resume fmt (i + 1) = .ok r := by
  cases hread : fmt.read i with
  | error stop =>
      obtain ⟨num, ap, e⟩ := s
      cases num <;> simp only [Scan.resume] at h
      · rw [reswitch] at h
        split at h <;> simp_all
      · rw [widthField] at h
        split at h <;> simp_all
  | ok b =>
      by_cases hflag : isFlag b
      · have hlt : i < fmt.bytes.length := by
          refine CString.lt_of_read hread ?_
          rintro rfl
          exact not_isFlag_zero hflag
        by_cases hstar : b = ascii '*' → Meets [.word] s.ap
        · exact .inr ⟨hlt, b, (Scan.resume_step hread hflag hstar).symm.trans h⟩
        · obtain ⟨rfl, hword⟩ := Classical.not_imp.mp hstar
          cases (Scan.resume_star hread hword).symm.trans h
      · have hdigit : b < ascii '0' ∨ ascii '9' < b :=
          not_not.mp fun hdigit ↦ hflag (isFlag_of_digit hdigit).1
        rw [Scan.resume_leave hread hdigit, Scan.resume, s.leave_inNumber] at h
        have := (reswitch_stop hread hflag _ _).symm.trans h
        cases this
        exact .inl rfl

theorem Scan.resume_inRange {i : Nat} {s : Scan} {r : Byte × Nat × List Arg × Esc}
    (h : s.resume fmt i = .ok r) (hs : s.esc.InRange) : r.2.2.2.InRange := by
  rcases Scan.resume_cases h with hstop | ⟨hlt, b, hrest⟩
  · rw [hstop]
    exact Scan.leave_inRange hs
  · exact Scan.resume_inRange hrest (Scan.step_inRange hs b)
termination_by fmt.bytes.length - i

/-- **The scan of an escape stays in range.** -/
theorem reswitch_inRange {ch : Byte} {e : Esc}
    (h : reswitch fmt i ap {} = .ok (ch, i', ap', e)) : e.InRange :=
  Scan.resume_inRange (s := ⟨false, ap, {}⟩) h Esc.inRange_default

/-- A scan that returns had the arguments for its stars. -/
theorem Scan.meets_of_resume {flags rest : List Byte} {s : Scan}
    {r : Byte × Nat × List Arg × Esc} (hflags : ∀ b ∈ flags, isFlag b)
    (hat : fmt.At i (flags ++ rest)) (h : s.resume fmt i = .ok r) :
    Meets (starDemands flags) s.ap := by
  induction flags generalizing s i with
  | nil => trivial
  | cons b flags ih =>
      obtain ⟨hb, hflags⟩ := List.forall_mem_cons.mp hflags
      have hread : fmt.read i = .ok b := hat.read
      have hstar : b = ascii '*' → Meets [.word] s.ap := by
        rintro rfl
        by_contra hword
        cases (Scan.resume_star hread hword).symm.trans h
      rw [Scan.resume_step hread hb hstar] at h
      have hrest := ih hflags hat.tail h
      rw [Scan.step_ap hb hstar] at hrest
      rw [starDemands_cons]
      split_ifs at hrest ⊢ with hb'
      · obtain ⟨w, ap, hap, -⟩ := (hstar hb').word
        rw [hap] at hrest ⊢
        exact ⟨trivial, hrest⟩
      · exact hrest

/-- **What a scan returns.**  The character after the flags, and what the flags have done
to the local variables. -/
theorem reswitch_flags {flags rest : List Byte} {ch ch' : Byte} {e : Esc}
    (hflags : ∀ b ∈ flags, isFlag b) (hch : ¬ isFlag ch) (hat : fmt.At i (flags ++ ch :: rest))
    (h : reswitch fmt i ap {} = .ok (ch', i', ap', e)) :
    ch' = ch ∧ e = (flags.foldl Scan.step ⟨false, ap, {}⟩).leave.esc := by
  have hap := Scan.meets_of_resume (s := ⟨false, ap, {}⟩) hflags hat h
  have hstop : ¬ isFlag ((ch :: rest).headD 0) := hch
  have hscan := Scan.resume_flags (s := ⟨false, ap, {}⟩) hflags hstop hat hap
  cases hscan.symm.trans h
  exact ⟨rfl, rfl⟩

end JosKernel.Printf
