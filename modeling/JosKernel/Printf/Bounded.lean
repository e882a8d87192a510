import JosKernel.Printf.Text

/-!
# Strings without a NUL

`mon_backtrace` prints a function name, which has no NUL, with `%.*s`, and the precision
is to keep `%s` within the name.  `strnlen` tests its size before it reads a character,
but the loop that prints reads the character before it counts the precision down.  So
it reads one character past the name when the precision is the size of all that can be
read (`precision_bounds_iff`).
-/

namespace JosKernel.Printf

variable {s : List Byte} {e : Esc}

/-! ## The precision of `%.*s` -/

section

variable {fmt : CString} {i : Nat} {ap ap' : List Arg} {flags rest : List Byte}

/-- After a dot there is a width, so that the next number is the precision. -/
theorem Scan.width_dot (s : Scan) : (s.step (ascii '.')).inNumber = false ∧
    (s.step (ascii '.')).ap = s.ap ∧ 0 ≤ (s.step (ascii '.')).esc.width := by
  have hdigit : ¬ (s.inNumber ∧ ascii '0' ≤ ascii '.' ∧ ascii '.' ≤ ascii '9') :=
    fun h ↦ absurd h.2 (by decide)
  rw [Scan.step, if_neg hdigit]
  refine ⟨s.leave_inNumber, s.leave_ap, ?_⟩
  change 0 ≤ if s.leave.esc.width < 0 then 0 else s.leave.esc.width
  split_ifs <;> omega

theorem Scan.precision_star {s : Scan} {p : BitVec 32} (hnum : s.inNumber = false)
    (hap : s.ap = .word p :: ap') (hwidth : 0 ≤ s.esc.width) :
    (s.step (ascii '*')).leave.esc.precision = p.toInt := by
  obtain ⟨num, ap, e⟩ := s
  obtain rfl : num = false := hnum
  obtain rfl : ap = .word p :: ap' := hap
  have hesc : Esc.processPrecision { e with precision := p.toInt } =
      { e with precision := p.toInt } := if_neg (Int.not_lt.mpr hwidth)
  rw [Scan.step_star, hesc]
  rfl

theorem starDemands_append (l l' : List Byte) :
    starDemands (l ++ l') = starDemands l ++ starDemands l' := by
  simp [starDemands]

theorem not_isFlag_s : ¬ isFlag (ascii 's') := by decide

/-- The scan of an escape `%.*s` with any flags before the dot. -/
theorem reswitch_precision {p : BitVec 32} {q : Option (List Byte)}
    (hat : fmt.At i (flags ++ asciis ".*s".toList ++ rest)) (hflags : ∀ b ∈ flags, isFlag b)
    (hstars : Meets (starDemands flags) ap)
    (hap : ap.drop (starDemands flags).length = .word p :: .str q :: ap') :
    ∃ e, reswitch fmt i ap {} =
        .ok (ascii 's', i + flags.length + 3, .str q :: ap', e) ∧ e.precision = p.toInt := by
  have hflags' : ∀ b ∈ flags ++ asciis ".*".toList, isFlag b := by
    rw [List.forall_mem_append]
    exact ⟨hflags, by decide⟩
  have hat' : fmt.At i ((flags ++ asciis ".*".toList) ++ (ascii 's' :: rest)) := by
    have hs : asciis ".*s".toList = asciis ".*".toList ++ [ascii 's'] := by decide
    rw [hs] at hat
    simpa using hat
  have hdemands : starDemands (flags ++ asciis ".*".toList) = starDemands flags ++ [.word] :=
    starDemands_append _ _
  have hstars' : Meets (starDemands (flags ++ asciis ".*".toList)) ap := by
    rw [hdemands, meets_append, hap]
    exact ⟨hstars, trivial, trivial⟩
  have hstop : ¬ isFlag ((ascii 's' :: rest).headD 0) := not_isFlag_s
  have hscan := Scan.resume_flags (s := ⟨false, ap, {}⟩) hflags' hstop hat' hstars'
  refine ⟨((flags ++ asciis ".*".toList).foldl Scan.step ⟨false, ap, {}⟩).leave.esc,
    hscan.trans ?_, ?_⟩
  · have hdrop : ap.drop (starDemands flags ++ [Demand.word]).length = .str q :: ap' := by
      rw [List.length_append, ← List.drop_drop, hap]
      rfl
    rw [hdemands, hdrop, List.length_append]
    rfl
  · have hfold := Scan.foldl_ap (s := ⟨false, ap, {}⟩) hflags hstars
    obtain ⟨hnum, hap', hwidth⟩ := Scan.width_dot (flags.foldl Scan.step ⟨false, ap, {}⟩)
    rw [List.foldl_append]
    exact Scan.precision_star hnum (hap'.trans (hfold.trans hap)) hwidth

end

/-! ## The reads of `%s` -/

theorem strnlen_of_le (hzero : 0 ∉ s) {size : Nat} (h : size ≤ s.length) :
    strnlen s size = .ok size := by
  induction s generalizing size with
  | nil =>
      rw [List.length_nil, Nat.le_zero] at h
      rw [h]
      rfl
  | cons b s ih =>
      rw [List.mem_cons, not_or] at hzero
      obtain ⟨hb, hs⟩ := hzero
      cases size with
      | zero => rfl
      | succ size =>
          rw [List.length_cons, Nat.succ_le_succ_iff] at h
          rw [strnlen, if_neg (Ne.symm hb), ih hs h]
          rfl

section

variable {σ : Type} (putch : Code → σ → σ)

theorem padLeft_of_le (hzero : 0 ∉ s) (he : e.InRange) (h0 : 0 ≤ e.precision)
    (hle : e.precision ≤ s.length) (st : σ) :
    padLeft putch e s st = .ok ((e.before s).1, emit putch (e.before s).2 st) := by
  have hsize : (e.precision % 2 ^ 32).toNat = e.precision.toNat := by
    have := he.precision
    rw [Int.emod_eq_of_lt h0 (by omega)]
  unfold padLeft Esc.before
  split_ifs
  · rw [hsize, strnlen_of_le hzero (by omega), Nat.min_eq_right (by omega), Result.ok_bind,
      padLoop_eq]
    rfl
  · rfl

/-- Before the end, it is the precision that stops the loop. -/
theorem strLoop_of_lt (hzero : 0 ∉ s) (h0 : 0 ≤ e.precision) (hlt : e.precision < s.length)
    {width : Int} (hwidth : wrap32 width = width) (st : σ) :
    strLoop putch e.altflag s e.precision width st =
      .ok (wrap32 (width - e.textLength s), emit putch (e.text s) st) := by
  have hlen : e.textLength s = e.precision.toNat := by
    rw [Esc.textLength, if_neg (by omega), Nat.min_eq_right (by omega)]
  have htake : (s.take e.precision.toNat).length = e.precision.toNat :=
    List.length_take_of_le (by omega)
  have hdrop : s.drop e.precision.toNat ≠ [] := by
    intro hnil
    have := congrArg List.length hnil
    rw [List.length_drop, List.length_nil] at this
    omega
  obtain ⟨b, rest, hrest⟩ := List.exists_cons_of_ne_nil hdrop
  have hsplit : s = s.take e.precision.toNat ++ b :: rest := by
    rw [← hrest, List.take_append_drop]
  conv_lhs => rw [hsplit]
  rw [strLoop_append putch (fun h ↦ hzero (List.mem_of_mem_take h)) (by omega) hwidth,
    strLoop_stop putch (.inr (by rw [if_neg (by omega)]; omega)), htake, Esc.text, hlen]

/-- At the end, the loop reads on. -/
theorem strLoop_of_eq (hzero : 0 ∉ s) (heq : e.precision = s.length) {width : Int}
    (hwidth : wrap32 width = width) (st : σ) :
    strLoop putch e.altflag s e.precision width st = .error .str := by
  conv_lhs => rw [← List.append_nil s]
  rw [strLoop_append putch hzero (.inr (by omega)) hwidth]
  rfl

theorem convStr_of_lt (hzero : 0 ∉ s) (he : e.InRange) (h0 : 0 ≤ e.precision)
    (hlt : e.precision < s.length) (ap : List Arg) (st : σ) :
    convStr putch e (.str (some s) :: ap) st = .ok (ap, emit putch (e.string s) st) := by
  rw [convStr, vaStr, Result.ok_bind]
  simp only [stringOrNull, Option.getD_some, padLeft_of_le putch hzero he h0 (Int.le_of_lt hlt),
    strLoop_of_lt putch hzero h0 hlt (he.before s), Result.ok_bind, padLoop_eq]
  rw [Esc.string, emit_append, emit_append]
  rfl

theorem convStr_of_eq (hzero : 0 ∉ s) (he : e.InRange) (heq : e.precision = s.length)
    (ap : List Arg) (st : σ) : convStr putch e (.str (some s) :: ap) st = .error .str := by
  rw [convStr, vaStr, Result.ok_bind]
  simp only [stringOrNull, Option.getD_some, padLeft_of_le putch hzero he (by omega) (by omega),
    strLoop_of_eq putch hzero heq (he.before s), Result.ok_bind, Result.error_bind]

end

/-! ## What is printed -/

/-- The codes of `%s` are those of the first characters, and padding around them. -/
theorem Esc.string_shape (h0 : 0 ≤ e.precision) (s : List Byte) :
    ∃ left right, (∀ c ∈ left, c = e.padc.setWidth 32) ∧ (∀ c ∈ right, c = 0x20) ∧
      e.string s = left ++ (s.take e.precision.toNat).map (shown e.altflag) ++ right := by
  refine ⟨(e.before s).2, List.replicate (wrap32 ((e.before s).1 - e.textLength s)).toNat 0x20, ?_,
    fun c hc ↦ List.eq_of_mem_replicate hc, ?_⟩
  · intro c hc
    unfold Esc.before at hc
    split_ifs at hc
    · exact List.eq_of_mem_replicate hc
    · cases hc
  · rw [Esc.string, Esc.text, Esc.textLength, if_neg (by omega), Nat.min_comm,
      ← List.take_eq_take_min]

/-- The bytes up to the first NUL, and what comes from it on. -/
theorem takeWhile_nul (h : 0 ∈ s) :
    ∃ junk, s = s.takeWhile (· ≠ 0) ++ 0 :: junk ∧ 0 ∉ s.takeWhile (· ≠ 0) := by
  have hnot : 0 ∉ s.takeWhile (· ≠ 0) := fun hmem ↦ by simpa using List.mem_takeWhile_imp hmem
  cases hdrop : s.dropWhile (· ≠ 0) with
  | nil =>
      rw [List.dropWhile_eq_nil_iff] at hdrop
      exact absurd (hdrop 0 h) (by decide)
  | cons b junk =>
      have hb : b = 0 := by
        have := List.head?_dropWhile_not (· ≠ (0 : Byte)) s
        rw [hdrop] at this
        simpa using this
      have hsplit := s.takeWhile_append_dropWhile (p := (· ≠ 0))
      rw [hdrop, hb] at hsplit
      exact ⟨junk, hsplit.symm, hnot⟩

theorem takeWhile_of_not_mem (h : 0 ∉ s) : s.takeWhile (· ≠ 0) = s := by
  rw [List.takeWhile_eq_self_iff]
  intro b hb
  have hne : b ≠ 0 := fun hb' ↦ h (hb' ▸ hb)
  simpa using hne

section

variable {fmt : CString} {i i' : Nat} {ap ap' : List Arg}

/-- `%s` with a precision prints the string up to its first NUL, if it stops in time. -/
theorem string_escapes_of_lt (hread : fmt.read i = .ok (ascii '%'))
    (hswitch : reswitch fmt (i + 1) ap {} = .ok (ascii 's', i', .str (some s) :: ap', e))
    (h0 : 0 ≤ e.precision) (h : e.precision < s.length ∨ 0 ∈ s) :
    Escapes fmt i ap (e.string (s.takeWhile (· ≠ 0))) i' ap' := by
  by_cases hzero : 0 ∈ s
  · obtain ⟨junk, hsplit, hnot⟩ := takeWhile_nul hzero
    exact string_escapes hread hswitch hsplit hnot
  · have he := reswitch_inRange hswitch
    have hlt : e.precision < s.length := h.resolve_right hzero
    rw [takeWhile_of_not_mem hzero]
    exact escapes_of_convert hread hswitch (Conv.ofChar_s.mpr rfl) fun _ putch st ↦
      convStr_of_lt putch hzero he h0 hlt ap' st

/-- A conversion that stops prints nothing. -/
theorem not_escapes_of_error {ch : Byte} {conv : Conv} {stop : Stop} {cs : List Code}
    {ap'' : List Arg} (hswitch : reswitch fmt (i + 1) ap {} = .ok (ch, i', ap', e))
    (hch : Conv.ofChar ch = some conv)
    (h : ∀ (σ : Type) (putch : Code → σ → σ) (s : σ), convert putch conv e ap' s = .error stop) :
    ¬ Escapes fmt i ap cs i' ap'' := by
  intro hesc
  have he : ch ≠ ascii 'e' := by
    rintro rfl
    cases hch
  have hrun := hesc.emits _ record (fun _ _ _ s ↦ .ok s) []
  rw [escape, hswitch, Result.ok_bind] at hrun
  simp only [if_neg he, hch, h, Result.error_bind] at hrun
  cases hrun

end

/-- **Strings without a NUL.**  Let `s` be the bytes that can be read, and `p` a
precision that is not above their number.  Then `%.*s`, with any flags before the dot,
prints the first `p` bytes up to the first NUL in their field, and reads nothing else,
exactly when `p` is below the number of bytes or one of them is a NUL. -/
theorem precision_bounds_iff {fmt : CString} {i : Nat} {ap ap' : List Arg}
    {flags rest : List Byte} {p : BitVec 32}
    (hat : fmt.At i (ascii '%' :: flags ++ asciis ".*s".toList ++ rest))
    (hflags : ∀ b ∈ flags, isFlag b) (hstars : Meets (starDemands flags) ap)
    (hap : ap.drop (starDemands flags).length = .word p :: .str (some s) :: ap')
    (h0 : 0 ≤ p.toInt) (hp : p.toInt ≤ s.length) :
    ∃ e, reswitch fmt (i + 1) ap {} =
        .ok (ascii 's', i + 1 + flags.length + 3, .str (some s) :: ap', e) ∧
      e.precision = p.toInt ∧
      ∃ left right, (∀ c ∈ left, c = e.padc.setWidth 32) ∧ (∀ c ∈ right, c = 0x20) ∧
        e.string (s.takeWhile (· ≠ 0)) =
          left ++ ((s.takeWhile (· ≠ 0)).take p.toInt.toNat).map (shown e.altflag) ++ right ∧
        (Escapes fmt i ap (e.string (s.takeWhile (· ≠ 0))) (i + 1 + flags.length + 3) ap' ↔
          p.toInt < s.length ∨ 0 ∈ s) := by
  have hread : fmt.read i = .ok (ascii '%') := hat.read
  obtain ⟨e, hswitch, hprec⟩ := reswitch_precision hat.tail hflags hstars hap
  obtain ⟨left, right, hleft, hright, hshape⟩ :=
    Esc.string_shape (by omega : 0 ≤ e.precision) (s.takeWhile (· ≠ 0))
  rw [hprec] at hshape
  refine ⟨e, hswitch, hprec, left, right, hleft, hright, hshape, ?_⟩
  constructor
  · intro hesc
    by_contra hend
    obtain ⟨hge, hzero⟩ := not_or.mp hend
    have herror : ∀ (σ : Type) (putch : Code → σ → σ) (st : σ),
        convert putch .s e (.str (some s) :: ap') st = .error .str := by
      intro _ putch st
      exact convStr_of_eq putch hzero (reswitch_inRange hswitch) (by omega) ap' st
    exact not_escapes_of_error hswitch (Conv.ofChar_s.mpr rfl) herror hesc
  · intro h
    exact string_escapes_of_lt hread hswitch (by omega) (by rwa [hprec])

/-- `"%.*s"`. -/
def precisionFormat : CString := .literal "%.*s"

theorem precisionFormat_bounds_iff :
    ∃ e, reswitch precisionFormat 1 [.word 1, .str (some [97, 98])] {} =
        .ok (ascii 's', 4, [.str (some [97, 98])], e) ∧
      e.precision = (1 : BitVec 32).toInt ∧
      ∃ left right, (∀ c ∈ left, c = e.padc.setWidth 32) ∧ (∀ c ∈ right, c = 0x20) ∧
        e.string [97, 98] = left ++ [97].map (shown e.altflag) ++ right ∧
        (Escapes precisionFormat 0 [.word 1, .str (some [97, 98])] (e.string [97, 98]) 4 [] ↔
          (1 : BitVec 32).toInt < 2 ∨ (0 : Byte) ∈ [97, 98]) := by
  have hat : precisionFormat.At 0 (ascii '%' :: [] ++ asciis ".*s".toList ++ []) := .start _
  have hap : [Arg.word 1, Arg.str (some [97, 98])].drop (starDemands []).length =
      [Arg.word 1, Arg.str (some [97, 98])] := rfl
  exact precision_bounds_iff hat (by simp) trivial hap (by decide) (by decide)

/-- The name `ab` of two bytes, printed with precision 2, is read past its end. -/
theorem precisionFormat_reads_past :
    vprintfmt record 2 precisionFormat 0 [.word 2, .str (some [97, 98])] [] = .error .str ∧
      ¬ ∃ cs i' ap', Escapes precisionFormat 0 [.word 2, .str (some [97, 98])] cs i' ap' := by
  have hrun : ∀ go : CString → Nat → List Arg → List Code → Except Stop (List Code),
      escape record go precisionFormat 1 [.word 2, .str (some [97, 98])] [] = .error .str := by
    intro go
    have hswitch : reswitch precisionFormat 1 [.word 2, .str (some [97, 98])] {} =
        .ok (ascii 's', 4, [.str (some [97, 98])], { width := 0, precision := 2 }) := by
      decide +kernel
    have hconv : convStr record { width := 0, precision := 2 } [.str (some [97, 98])] [] =
        .error .str := by decide +kernel
    rw [escape, hswitch]
    exact congrArg (· >>= fun r ↦ go precisionFormat 4 r.1 r.2) hconv
  refine ⟨?_, ?_⟩
  · rw [vprintfmt_percent (by decide : precisionFormat.read 0 = .ok (ascii '%'))]
    exact hrun _
  · rintro ⟨cs, i', ap', hesc⟩
    have hgo := hesc.emits _ record (fun _ _ _ s ↦ .ok s) []
    rw [hrun] at hgo
    cases hgo

end JosKernel.Printf
