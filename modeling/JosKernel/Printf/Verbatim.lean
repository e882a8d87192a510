import JosKernel.Printf.Output
import JosKernel.Printf.Scan

/-!
# Termination and verbatim output

With arguments that are enough for the format, `vprintfmt` returns, and the pieces of
the format come out one after another; an escape that ends in an unrecognized
character, or in the NUL, comes out as it is written.
-/

namespace JosKernel.Printf

/-! ## Conversions return -/

section

variable {σ : Type} (putch : Code → σ → σ)

theorem strnlen_total {bs : List Byte} (h : 0 ∈ bs) (size : Nat) :
    ∃ len, strnlen bs size = .ok len := by
  induction bs generalizing size with
  | nil => cases h
  | cons b bs ih =>
      cases size with
      | zero => exact ⟨0, rfl⟩
      | succ size =>
          by_cases hb : b = 0
          · exact ⟨0, by rw [strnlen, if_pos hb]⟩
          · obtain ⟨len, hlen⟩ := ih ((List.mem_cons.mp h).resolve_left (Ne.symm hb)) size
            exact ⟨len + 1, by rw [strnlen, if_neg hb, hlen]; rfl⟩

theorem strLoop_total {bs : List Byte} (h : 0 ∈ bs) (altflag : Bool) (precision width : Int)
    (s : σ) : ∃ r, strLoop putch altflag bs precision width s = .ok r := by
  induction bs generalizing precision width s with
  | nil => cases h
  | cons b bs ih =>
      by_cases hb : b = 0
      · exact ⟨_, by rw [strLoop, if_pos hb]⟩
      · rw [strLoop, if_neg hb]
        split
        · exact ih ((List.mem_cons.mp h).resolve_left (Ne.symm hb)) _ _ _
        · exact ⟨_, rfl⟩

theorem padLeft_total {bs : List Byte} (h : 0 ∈ bs) (e : Esc) (s : σ) :
    ∃ r, padLeft putch e bs s = .ok r := by
  unfold padLeft
  split_ifs
  · obtain ⟨len, hlen⟩ := strnlen_total h (e.precision % 2 ^ 32).toNat
    exact ⟨_, by rw [hlen]; rfl⟩
  · exact ⟨_, rfl⟩

theorem convStr_total {p : Option (List Byte)} (hp : ∀ bs ∈ p, 0 ∈ bs) (e : Esc) (ap : List Arg)
    (s : σ) : ∃ s', convStr putch e (.str p :: ap) s = .ok (ap, s') := by
  have h : 0 ∈ stringOrNull p := by
    cases p with
    | none => decide
    | some bs => exact hp bs rfl
  obtain ⟨⟨width, s₁⟩, hleft⟩ := padLeft_total putch h e s
  obtain ⟨⟨width', s₂⟩, hloop⟩ := strLoop_total putch h e.altflag e.precision width s₁
  exact ⟨_, by simp only [convStr, vaStr, Result.ok_bind, hleft, hloop]; rfl⟩

/-- The argument of a number, unsigned or signed. -/
theorem number_arg_total {lflag : Nat} {ap : List Arg}
    (h : Meets (if 2 ≤ lflag then [.dword] else [.word]) ap) :
    (∃ num, getuint lflag ap = .ok (num, ap.drop 1)) ∧
      ∃ num, getint lflag ap = .ok (num, ap.drop 1) := by
  split_ifs at h with hl
  · match ap, h with
    | .dword w :: ap, h => simp [getuint, getint, hl]
  · match ap, h with
    | .word w :: ap, h => simp [getuint, getint, hl]

theorem length_number_demands (lflag : Nat) :
    (if 2 ≤ lflag then [Demand.dword] else [.word]).length = 1 := by
  split_ifs <;> rfl

theorem convert_total {conv : Conv} {e : Esc} {ap : List Arg}
    (h : Meets (conv.demands e.lflag) ap) (s : σ) :
    ∃ s', convert putch conv e ap s = .ok (ap.drop (conv.demands e.lflag).length, s') := by
  have hunsigned : ∀ base, Meets (if 2 ≤ e.lflag then [.dword] else [.word]) ap →
      ∃ s', convUnsigned putch base e ap s = .ok (ap.drop 1, s') := by
    intro base h
    obtain ⟨⟨num, hnum⟩, -⟩ := number_arg_total h
    exact ⟨_, by rw [convUnsigned, hnum]; rfl⟩
  cases conv with
  | c =>
      obtain ⟨w, ap, rfl, -⟩ := Meets.word h
      exact ⟨_, rfl⟩
  | s =>
      match ap, h with
      | .str p :: ap, h => exact convStr_total putch h.1 e ap s
  | d =>
      obtain ⟨-, num, hnum⟩ := number_arg_total h
      simp only [convert, convDecimal, hnum, Result.ok_bind, Conv.demands, length_number_demands]
      split_ifs <;> exact ⟨_, rfl⟩
  | p =>
      obtain ⟨w, ap, rfl, -⟩ := Meets.word h
      exact ⟨_, rfl⟩
  | percent => exact ⟨_, rfl⟩
  | _ =>
      simp only [convert, Conv.demands, length_number_demands]
      exact hunsigned _ h

end

/-- A conversion returns, and hands some codes to the callback. -/
theorem convert_prints {conv : Conv} {e : Esc} {ap : List Arg}
    (h : Meets (conv.demands e.lflag) ap) :
    ∃ cs, ∀ (σ : Type) (putch : Code → σ → σ) (s : σ),
      convert putch conv e ap s =
        .ok (ap.drop (conv.demands e.lflag).length, emit putch cs s) := by
  obtain ⟨r, hr⟩ := convert_emits conv e ap
  obtain ⟨s', hs'⟩ := convert_total (fun _ (u : Unit) ↦ u) h ()
  have := (hr Unit _ ()).symm.trans hs'
  cases r with
  | error stop => cases this
  | ok p =>
      obtain ⟨ap', cs⟩ := p
      cases this
      exact ⟨cs, hr⟩

/-! ## One pass of the loop -/

section

variable {σ : Type} {putch : Code → σ → σ} {fmt : CString} {i : Nat}

theorem vprintfmt_text {ch : Byte} (hread : fmt.read i = .ok ch) (hpercent : ch ≠ ascii '%')
    (hzero : ch ≠ 0) (fuel : Nat) (ap : List Arg) (s : σ) :
    vprintfmt putch fuel fmt i ap s =
      vprintfmt putch fuel fmt (i + 1) ap (putch (ch.setWidth 32) s) := by
  cases fuel with
  | zero => rfl
  | succ fuel =>
      rw [vprintfmt, vprintfmt, printText_eq putch hread, if_neg hpercent, if_neg hzero]

/-- The codes of characters of the format. -/
def codes (l : List Byte) : List Code := l.map (·.setWidth 32)

/-- Characters of text are handed over one by one. -/
theorem vprintfmt_literal {l rest : List Byte} (hat : fmt.At i (l ++ rest)) (hl : ascii '%' ∉ l)
    (fuel : Nat) (ap : List Arg) (s : σ) :
    vprintfmt putch fuel fmt i ap s =
      vprintfmt putch fuel fmt (i + l.length) ap (emit putch (codes l) s) := by
  induction l generalizing i s with
  | nil => rfl
  | cons b l ih =>
      rw [vprintfmt_text hat.read (List.ne_of_not_mem_cons hl).symm (hat.ne_zero (by simp)),
        ih hat.tail (List.not_mem_of_not_mem_cons hl), List.length_cons, Nat.add_comm l.length,
        ← Nat.add_assoc]
      rfl

theorem vprintfmt_nul (hread : fmt.read i = .ok 0) (fuel : Nat) (ap : List Arg) (s : σ) :
    vprintfmt putch (fuel + 1) fmt i ap s = .ok s := by
  rw [vprintfmt, printText_eq putch hread, if_neg (by decide), if_pos rfl]
  rfl

theorem vprintfmt_percent (hread : fmt.read i = .ok (ascii '%')) (fuel : Nat) (ap : List Arg)
    (s : σ) :
    vprintfmt putch (fuel + 1) fmt i ap s =
      escape putch (vprintfmt putch fuel) fmt (i + 1) ap s := by
  rw [vprintfmt, printText_eq putch hread, if_pos rfl]
  rfl

end

/-- From index `i` on, `vprintfmt` returns once it has handed the codes to the callback;
any fuel from some amount on is enough. -/
def Prints (fmt : CString) (i : Nat) (ap : List Arg) (cs : List Code) : Prop :=
  ∃ n, ∀ fuel, n ≤ fuel → ∀ (σ : Type) (putch : Code → σ → σ) (s : σ),
    vprintfmt putch fuel fmt i ap s = .ok (emit putch cs s)

section

variable {fmt : CString} {i : Nat} {ap : List Arg} {cs : List Code}

theorem prints_nil (hat : fmt.At i []) (ap : List Arg) : Prints fmt i ap [] := by
  refine ⟨1, ?_⟩
  intro fuel hfuel σ putch s
  obtain ⟨fuel, rfl⟩ := Nat.exists_eq_add_of_le' hfuel
  exact vprintfmt_nul hat.read fuel ap s

/-- Characters of text, and then the rest of the format. -/
theorem Prints.literal {l rest : List Byte} (hat : fmt.At i (l ++ rest))
    (hl : ascii '%' ∉ l) (h : Prints fmt (i + l.length) ap cs) :
    Prints fmt i ap (codes l ++ cs) := by
  obtain ⟨n, hn⟩ := h
  refine ⟨n, fun fuel hfuel σ putch s ↦ ?_⟩
  rw [vprintfmt_literal hat hl, hn fuel hfuel, emit_append]

/-- A pass that starts with a `%`. -/
theorem Prints.of_escape {n : Nat} (hread : fmt.read i = .ok (ascii '%'))
    (h : ∀ fuel, n ≤ fuel → ∀ (σ : Type) (putch : Code → σ → σ) (s : σ),
      escape putch (vprintfmt putch fuel) fmt (i + 1) ap s = .ok (emit putch cs s)) :
    Prints fmt i ap cs := by
  refine ⟨n + 1, ?_⟩
  intro fuel hfuel σ putch s
  obtain ⟨fuel, rfl⟩ := Nat.exists_eq_add_of_le' (Nat.le_of_add_left_le hfuel)
  rw [vprintfmt_percent hread]
  exact h fuel (Nat.le_of_add_le_add_right hfuel) σ putch s

end

/-! ## Escapes -/

section

variable {fmt : CString} {i : Nat} {ap : List Arg} {cs : List Code} {flags rest : List Byte}
  {ch : Byte}

/-- The index after an escape. -/
def afterEscape (i : Nat) (flags : List Byte) : Nat := i + 1 + flags.length + 1

theorem CString.At.afterEscape (hat : fmt.At i (ascii '%' :: flags ++ ch :: rest)) :
    fmt.At (afterEscape i flags) rest :=
  hat.tail.append.tail

/-- An escape that ends in a conversion other than `%e`. -/
theorem Prints.convert {conv : Conv} (hat : fmt.At i (ascii '%' :: flags ++ ch :: rest))
    (hflags : ∀ b ∈ flags, isFlag b) (hch : ¬ isFlag ch) (hconv : Conv.ofChar ch = some conv)
    (hap : Meets (starDemands flags ++ conv.demands (longs flags)) ap)
    (h : Prints fmt (afterEscape i flags)
      (ap.drop (starDemands flags ++ conv.demands (longs flags)).length) cs) :
    ∃ cs', Prints fmt i ap (cs' ++ cs) := by
  obtain ⟨hstars, hap⟩ := meets_append.mp hap
  have hstop : ¬ isFlag ((ch :: rest).headD 0) := hch
  obtain ⟨⟨e, hswitch, he⟩, -⟩ := readFlags hflags hstop hat.tail hstars {}
  rw [show longs flags = e.lflag by rw [he, Nat.zero_add]] at hap h
  obtain ⟨cs', hcs'⟩ := convert_prints hap
  obtain ⟨n, hn⟩ := h
  have he' : ch ≠ ascii 'e' := by rintro rfl; cases hconv
  refine ⟨cs', .of_escape hat.read (n := n) ?_⟩
  intro fuel hfuel σ putch s
  rw [escape, hswitch, Result.ok_bind]
  simp only [List.headD_cons, if_neg he', hconv, hcs', Result.ok_bind]
  rw [emit_append, ← hn fuel hfuel, List.drop_drop, List.length_append]
  rfl

/-- The format and the arguments of the call of `printfmt` in `case 'e'`. -/
theorem convError_prints {ap : List Arg} (h : Meets [.word] ap) :
    ∃ fmt' ap', convError ap = .ok ((fmt', ap'), ap.drop 1) ∧ ∃ cs, Prints fmt' 0 ap' cs := by
  obtain ⟨w, ap, rfl, -⟩ := h.word
  simp only [convError, vaInt, Result.ok_bind]
  generalize (if w.toInt < 0 then wrap32 (-w.toInt) else w.toInt) = err
  cases errorString err with
  | none =>
      have hat : CString.At (.literal "error %d") 0
          (asciis "error ".toList ++ (ascii '%' :: [] ++ ascii 'd' :: [])) := .start _
      have hap : Meets (starDemands [] ++ Conv.demands (longs []) .d)
          [.word (BitVec.ofInt 32 err)] := ⟨trivial, trivial⟩
      obtain ⟨cs, h⟩ := Prints.convert hat.append (by simp) (by decide) rfl hap
        (prints_nil hat.append.afterEscape _)
      exact ⟨_, _, rfl, _, .literal hat (by decide) h⟩
  | some p =>
      have hat : CString.At (.literal "%s") 0
          (ascii '%' :: [] ++ ascii 's' :: []) := .start _
      have hap : Meets (starDemands [] ++ Conv.demands (longs []) .s) [.str (some (p ++ [0]))] :=
        ⟨by rintro bs ⟨⟩; simp, trivial⟩
      obtain ⟨cs, h⟩ := Prints.convert hat (by simp) (by decide) rfl hap
        (prints_nil hat.afterEscape _)
      exact ⟨_, _, rfl, _, h⟩

/-- An escape that ends in `%e`. -/
theorem Prints.error (hat : fmt.At i (ascii '%' :: flags ++ ascii 'e' :: rest))
    (hflags : ∀ b ∈ flags, isFlag b) (hap : Meets (starDemands flags ++ [Demand.word]) ap)
    (h : Prints fmt (afterEscape i flags)
      (ap.drop (starDemands flags ++ [Demand.word]).length) cs) :
    ∃ cs', Prints fmt i ap (cs' ++ cs) := by
  obtain ⟨hstars, hap⟩ := meets_append.mp hap
  have hstop : ¬ isFlag ((ascii 'e' :: rest).headD 0) := not_isFlag_e
  obtain ⟨⟨e, hswitch, -⟩, -⟩ := readFlags hflags hstop hat.tail hstars {}
  obtain ⟨fmt', ap', herror, cs', n', hn'⟩ := convError_prints hap
  obtain ⟨n, hn⟩ := h
  refine ⟨cs', .of_escape hat.read (n := max n n') ?_⟩
  intro fuel hfuel σ putch s
  rw [escape, hswitch, Result.ok_bind]
  simp only [List.headD_cons, if_true, herror, Result.ok_bind]
  rw [hn' fuel (Nat.max_le.mp hfuel).2, Result.ok_bind, emit_append,
    ← hn fuel (Nat.max_le.mp hfuel).1, List.drop_drop, List.length_append]
  rfl

/-- **An escape that is not recognized** is printed as it is written.  The character
after its flags is the NUL when `rest` is empty. -/
theorem Prints.bad (hat : fmt.At i (ascii '%' :: flags ++ rest)) (hflags : ∀ b ∈ flags, isFlag b)
    (hrest : ¬ isFlag (rest.headD 0)) (hconv : ¬ isConv (rest.headD 0))
    (hap : Meets (starDemands flags) ap)
    (h : Prints fmt (i + 1 + flags.length) (ap.drop (starDemands flags).length) cs) :
    Prints fmt i ap (codes (ascii '%' :: flags) ++ cs) := by
  have hpercent : ascii '%' ∉ flags := fun hmem ↦ not_isFlag_percent (hflags _ hmem)
  obtain ⟨n, hn⟩ := Prints.literal hat.tail hpercent h
  obtain ⟨⟨e, hswitch, -⟩, -⟩ := readFlags hflags hrest hat.tail hap {}
  have hback := rewind_flags hflags hat
  refine .of_escape hat.read (n := n) fun fuel hfuel σ putch s ↦ ?_
  rw [escape, hswitch, Result.ok_bind]
  simp only [isConv, decide_eq_true_eq, not_or, Option.not_isSome_iff_eq_none] at hconv
  simp only [if_neg hconv.1, hconv.2, Nat.add_sub_cancel, hback, Result.ok_bind]
  exact hn fuel hfuel σ putch _

end

/-! ## Whole formats -/

/-- A piece other than a conversion comes out as it is written. -/
def Segment.Verbatim : Segment → List Code → Prop
  | .conv _ _, _ => True
  | seg, cs => cs = codes seg.bytes

/-- An escape that ends in a conversion. -/
theorem Prints.conv {fmt : CString} {i : Nat} {ap : List Arg} {cs : List Code}
    {flags rest : List Byte} {ch : Byte} (hat : fmt.At i (ascii '%' :: flags ++ ch :: rest))
    (hflags : ∀ b ∈ flags, isFlag b) (hch : ¬ isFlag ch) (hconv : isConv ch)
    (hap : Meets (starDemands flags ++ caseDemands flags ch) ap)
    (h : Prints fmt (afterEscape i flags)
      (ap.drop (starDemands flags ++ caseDemands flags ch).length) cs) :
    ∃ cs', Prints fmt i ap (cs' ++ cs) := by
  unfold caseDemands at hap h
  cases hc : Conv.ofChar ch with
  | some conv =>
      rw [hc] at hap h
      exact Prints.convert hat hflags hch hc hap h
  | none =>
      rw [hc] at hap h
      obtain rfl : ch = ascii 'e' := by simpa [isConv, hc] using hconv
      exact Prints.error hat hflags hap h

theorem segments_print {fmt : CString} {l : List Byte} {i : Nat} {ap : List Arg}
    (hat : fmt.At i l) (hap : Meets ((segments l).flatMap Segment.demands) ap) :
    ∃ pieces, List.Forall₂ Segment.Verbatim (segments l) pieces ∧
      Prints fmt i ap pieces.flatten := by
  induction l using segments_induction generalizing i ap with
  | nil =>
      rw [segments]
      exact ⟨[], .nil, prints_nil hat ap⟩
  | text b bs hb ih =>
      rw [segments_text hb] at hap ⊢
      obtain ⟨pieces, hpieces, hprints⟩ := ih hat.tail hap
      have hpercent : ascii '%' ∉ [b] := by simpa using hb.symm
      exact ⟨codes [b] :: pieces, .cons rfl hpieces, .literal hat hpercent hprints⟩
  | cut flags hflags =>
      rw [segments_cut hflags] at hap ⊢
      rw [List.flatMap_singleton] at hap
      have hat' : fmt.At i (ascii '%' :: flags ++ []) := by rwa [List.append_nil]
      exact ⟨[codes (ascii '%' :: flags)], .cons (by simp [Segment.Verbatim, Segment.bytes]) .nil,
        .bad hat' hflags not_isFlag_zero not_isConv_zero hap (prints_nil hat'.tail.append _)⟩
  | escape flags ch rest hflags hch ih =>
      rw [segments_escape hflags hch] at hap ⊢
      rw [List.flatMap_cons, meets_append] at hap
      obtain ⟨hap, haprest⟩ := hap
      obtain ⟨pieces, hpieces, hprints⟩ := ih hat.afterEscape haprest
      by_cases hconv : isConv ch
      · rw [if_pos hconv] at hap hprints ⊢
        obtain ⟨cs, hcs⟩ := Prints.conv hat hflags hch hconv hap hprints
        exact ⟨cs :: pieces, .cons trivial hpieces, hcs⟩
      · rw [if_neg hconv] at hap hprints ⊢
        have hpercent : ascii '%' ∉ [ch] := by
          rw [List.mem_singleton]
          rintro rfl
          exact hconv (by decide)
        have hlast := Prints.literal hat.tail.append hpercent hprints
        refine ⟨codes (ascii '%' :: flags ++ [ch]) :: pieces, .cons rfl hpieces, ?_⟩
        rw [List.flatten_cons, codes, List.map_append, List.append_assoc]
        exact Prints.bad hat hflags hch hconv hap hlast

/-- The scan of an escape that is not recognized, and the backward scan after it, which
stops right after the `%` of this escape. -/
theorem segment_rewind {fmt : CString} {pre post : List Segment} {flags : List Byte}
    {ch : Option Byte} (h : segments fmt.bytes = pre ++ .bad flags ch :: post) {ap : List Arg}
    (hap : Meets (starDemands flags) ap) :
    ∃ i ap' e, reswitch fmt ((pre.flatMap Segment.bytes).length + 1) ap {} =
        .ok (ch.getD 0, i, ap', e) ∧
      rewind fmt (i - 1) = .ok ((pre.flatMap Segment.bytes).length + 1) := by
  have hat := CString.at_segment h
  rw [Segment.bytes, List.append_assoc] at hat
  obtain ⟨hflags, hch⟩ : (Segment.bad flags ch).WellFormed :=
    segments_wellFormed fmt.bytes _ (by rw [h]; simp)
  have hlast : (ch.toList ++ post.flatMap Segment.bytes).headD 0 = ch.getD 0 := by
    cases ch with
    | none => rw [segments_cut_last h]; rfl
    | some c => rfl
  have hstop : ¬ isFlag (ch.getD 0) := by
    cases ch with
    | none => exact not_isFlag_zero
    | some c => exact (hch c rfl).1
  rw [← hlast] at hstop ⊢
  obtain ⟨⟨e, hswitch, -⟩, -⟩ := readFlags hflags hstop hat.tail hap {}
  exact ⟨_, _, e, hswitch, rewind_flags hflags hat⟩

/-- **The format scanner.**  The format falls into pieces: characters of text, escapes
that end in a conversion, and escapes that do not; only the last piece may end in the
NUL.  If the arguments are enough then `vprintfmt` returns without a read outside of
the format, all pieces but the conversions come out as they are written, and the
backward scan after a bad escape stops right after its own `%`. -/
theorem vprintfmt_scan (fmt : CString) (ap : List Arg) (hap : Sufficient fmt ap) :
    (segments fmt.bytes).flatMap Segment.bytes = fmt.bytes ∧
      (∀ seg ∈ segments fmt.bytes, seg.WellFormed) ∧
      (∃ pieces, List.Forall₂ Segment.Verbatim (segments fmt.bytes) pieces ∧
        ∃ n, ∀ fuel, n ≤ fuel → ∀ (σ : Type) (putch : Code → σ → σ) (s : σ),
          vprintfmt putch fuel fmt 0 ap s = .ok (emit putch pieces.flatten s)) ∧
      ∀ pre flags ch post, segments fmt.bytes = pre ++ .bad flags ch :: post →
        (ch = none → post = []) ∧
        ∀ ap', Meets (starDemands flags) ap' →
          ∃ i ap'' e, reswitch fmt ((pre.flatMap Segment.bytes).length + 1) ap' {} =
              .ok (ch.getD 0, i, ap'', e) ∧
            rewind fmt (i - 1) = .ok ((pre.flatMap Segment.bytes).length + 1) :=
  ⟨segments_bytes fmt.bytes, segments_wellFormed fmt.bytes, segments_print (.start fmt) hap,
    fun _ _ _ _ h ↦ ⟨by rintro rfl; exact segments_cut_last h, fun _ ↦ segment_rewind h⟩⟩

/-- A conversion, a bad escape with all kinds of flags, and an escape that the NUL cuts. -/
def mixedFormat : CString := .literal "n=%-5d%0*.12#ly%l"

theorem mixedFormat_scan :
    Sufficient mixedFormat [.word 7, .word 42] ∧
      ∃ cs n, ∀ fuel, n ≤ fuel → ∀ (σ : Type) (putch : Code → σ → σ) (s : σ),
        vprintfmt putch fuel mixedFormat 0 [.word 7, .word 42] s =
          .ok (emit putch (codes (asciis "n=".toList) ++ cs ++
            codes (asciis "%0*.12#ly%l".toList)) s) := by
  have hsegments : segments mixedFormat.bytes =
      [.text (ascii 'n'), .text (ascii '='), .conv (asciis "-5".toList) (ascii 'd'),
        .bad (asciis "0*.12#l".toList) (some (ascii 'y')), .bad (asciis "l".toList) none] := by
    decide +kernel
  have hap : Sufficient mixedFormat [.word 7, .word 42] := by
    rw [Sufficient, hsegments]
    exact ⟨trivial, trivial, trivial⟩
  refine ⟨hap, ?_⟩
  obtain ⟨-, -, ⟨pieces, hpieces, n, hn⟩, -⟩ := vprintfmt_scan mixedFormat _ hap
  rw [hsegments] at hpieces
  obtain _ | ⟨rfl, _ | ⟨rfl, _ | ⟨-, _ | ⟨rfl, _ | ⟨rfl, _ | _⟩⟩⟩⟩⟩ := hpieces
  next cs =>
    refine ⟨cs, n, fun fuel hfuel σ putch s ↦ (hn fuel hfuel σ putch s).trans ?_⟩
    rw [List.append_assoc]
    rfl
end JosKernel.Printf
