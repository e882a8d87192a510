import JosKernel.Console.Direct
import JosKernel.Printf.ErrorText
import JosKernel.Printf.Padding

/-!
# The meaning of a format

What `vprintfmt` prints is a function of the pieces of the format and of the arguments:
`render` computes it without a callback, a format index or fuel, piece by piece
(`vprintfmt_segments`).

## The model

* The flags of a piece set the local variables of the escape, by the fold of the scan, and
  take the arguments of its stars.  Nothing else is passed from one piece to the next but
  the arguments that are left.
* The field width is an `int` that counts down, and wraps.
-/

namespace JosKernel.Printf

/-! ## The pieces -/

/-- The value of an argument as a signed number. -/
def Arg.signed : Arg → Int
  | .word w => w.toInt
  | .dword w => w.toInt
  | .str _ => 0

/-- The value of an argument as an unsigned number. -/
def Arg.unsigned : Arg → Nat
  | .word w => w.toNat
  | .dword w => w.toNat
  | .str _ => 0

/-- The string that an argument points to, up to its NUL. -/
def Arg.string : Arg → List Byte
  | .str p => (stringOrNull p).takeWhile (· ≠ 0)
  | _ => []

/-- A numeral and the padding before it. -/
def Esc.number (e : Esc) (b n : Nat) : List Code :=
  List.replicate (wrap32 (e.width - (numeral b n).length)).toNat (e.padc.setWidth 32) ++ numeral b n

/-- What a conversion prints of its argument. -/
def Conv.render (e : Esc) (a : Arg) : Conv → List Code
  | .c => [BitVec.ofInt 32 a.signed]
  | .s => e.string a.string
  | .d => sign a.signed ++ e.number 10 a.signed.natAbs
  | .u => e.number 10 a.unsigned
  | .o => e.number 8 a.unsigned
  | .p => codes (asciis "0x".toList) ++ e.number 16 a.unsigned
  | .x => e.number 16 a.unsigned
  | .percent => [0x25]

/-- What a piece prints. -/
def Segment.render (ap : List Arg) : Segment → List Code
  | .conv flags ch =>
      let e := (flags.foldl Scan.step ⟨false, ap, {}⟩).leave.esc
      let a := (ap.drop (starDemands flags).length).headD (.word 0)
      match Conv.ofChar ch with
      | some conversion => conversion.render e a
      | none => codeText (BitVec.ofInt 32 a.signed)
  | seg => codes seg.bytes

/-- What the pieces of a format print, each with the arguments that are left for it. -/
def render : List Segment → List Arg → List Code
  | [], _ => []
  | seg :: segs, ap => seg.render ap ++ render segs (ap.drop seg.demands.length)

/-- The pieces of a text without a `%`. -/
def texts (l : List Byte) : List Segment := l.map .text

theorem segments_texts {l : List Byte} (hl : ascii '%' ∉ l) : segments l = texts l := by
  induction l with
  | nil => rw [segments]; rfl
  | cons b l ih =>
      rw [segments_text (List.ne_of_not_mem_cons hl).symm, ih (List.not_mem_of_not_mem_cons hl)]
      rfl

theorem render_texts (l : List Byte) (segs : List Segment) (ap : List Arg) :
    render (texts l ++ segs) ap = codes l ++ render segs ap := by
  induction l with
  | nil => rfl
  | cons b l ih =>
      rw [texts, List.map_cons, List.cons_append, render]
      exact congrArg (codes [b] ++ ·) ih

theorem render_all_texts (l : List Byte) (ap : List Arg) : render (texts l) ap = codes l := by
  have h := render_texts l [] ap
  rwa [List.append_nil, render, List.append_nil] at h

/-- A text asks for no argument. -/
theorem texts_demands (l : List Byte) : (texts l).flatMap Segment.demands = [] := by
  induction l with
  | nil => rfl
  | cons b l ih => exact ih

/-- A string that ends in a NUL. -/
theorem Arg.string_terminated {t : List Byte} (hzero : 0 ∉ t) (after : List Byte) :
    (Arg.str (some (t ++ 0 :: after))).string = t := by
  rw [Arg.string, stringOrNull, Option.getD_some, List.takeWhile_append_of_pos (fun b hb ↦ ?_),
    List.takeWhile_cons_of_neg (by simp), List.append_nil]
  rw [decide_eq_true_eq]
  rintro rfl
  exact hzero hb

/-- What `"%s"` prints of a string. -/
theorem string_plain {t : List Byte} (hlen : t.length < 2 ^ 31) :
    ({} : Esc).string t = Console.signedCodes t := by
  have hlength : Esc.textLength {} t = t.length := if_pos (by decide)
  have htext : Esc.text {} t = Console.signedCodes t := by
    rw [Esc.text, hlength, List.take_length]
    rfl
  have hbefore : Esc.before {} t = (-1, []) := if_neg (by decide)
  have hwrap : wrap32 (-1 - t.length) = -1 - t.length := wrap32_of_range (by omega)
  rw [Esc.string, htext, hbefore, hlength, hwrap, Int.toNat_of_nonpos (by omega), List.nil_append]
  exact List.append_nil _

/-- What `"%.*s"` prints of a string. -/
theorem string_precision {t : List Byte} {n : Nat} (hn : n ≤ t.length) (hlen : n < 2 ^ 31) :
    ({ width := 0, precision := n } : Esc).string t = Console.signedCodes (t.take n) := by
  have hlength : Esc.textLength { width := 0, precision := n } t = n := by
    rw [Esc.textLength, if_neg (by dsimp only; omega)]
    dsimp only
    omega
  have htext : Esc.text { width := 0, precision := n } t = Console.signedCodes (t.take n) := by
    rw [Esc.text, hlength]
    rfl
  have hbefore : Esc.before { width := 0, precision := n } t = (0, []) :=
    if_neg fun h ↦ absurd h.1 (Int.lt_irrefl 0)
  have hwrap : wrap32 (0 - n) = 0 - n := wrap32_of_range (by omega)
  rw [Esc.string, htext, hbefore, hlength, hwrap, Int.toNat_of_nonpos (by omega), List.nil_append]
  exact List.append_nil _

/-! ## Numbers -/

section

variable {σ : Type} (putch : Code → σ → σ) {e : Esc} {a : Arg} {ap : List Arg}

/-- **What `printnum` prints**, for any width. -/
theorem printnum_wraps (base : Base) (padc : Code) (num : Nat) (width : Int) (s : σ) :
    printnum putch base padc num width s =
      emit putch (List.replicate (wrap32 (width - (numeral base.val num).length)).toNat padc ++
        numeral base.val num) s := by
  have htwo := base.two_le
  rw [printnum]
  by_cases h : base.val ≤ num
  · have hnum := numeral_of_le htwo base.le_sixteen h
    have hlt : num / base.val < num := Nat.div_lt_self (by omega) htwo
    rw [dif_pos h, printnum_wraps base padc (num / base.val), wrap32_sub, hnum, ← List.append_assoc,
      emit_append _ [_], List.length_append, List.length_singleton,
      show width - 1 - (numeral base.val (num / base.val)).length =
        width - ((numeral base.val (num / base.val)).length + 1 : Nat) by omega]
    rfl
  · have hlt : num < base.val := Nat.lt_of_not_le h
    rw [dif_neg h, padLoop_eq, numeral_of_lt base.le_sixteen hlt, Nat.mod_eq_of_lt hlt, emit_append]
    rfl
termination_by num

theorem number_wraps (e : Esc) (num : BitVec 64) (base : Base) (s : σ) :
    number putch e num base s = emit putch (e.number base.val num.toNat) s :=
  printnum_wraps putch base _ num.toNat e.width s

/-- The argument of an unsigned conversion. -/
theorem getuint_unsigned {lflag : Nat}
    (h : Meets (if 2 ≤ lflag then [.dword] else [.word]) (a :: ap)) :
    ∃ num, getuint lflag (a :: ap) = .ok (num, ap) ∧ num.toNat = a.unsigned := by
  split_ifs at h with hl
  · cases a with
    | dword w => exact ⟨w, by rw [getuint, if_pos hl], rfl⟩
    | word w => cases h.1
    | str p => cases h.1
  · cases a with
    | dword w => cases h.1
    | word w =>
        refine ⟨w.setWidth 64, by rw [getuint, if_neg hl], ?_⟩
        exact BitVec.toNat_setWidth_of_le (by decide)
    | str p => cases h.1

/-- The argument of a signed conversion. -/
theorem getint_signed {lflag : Nat}
    (h : Meets (if 2 ≤ lflag then [.dword] else [.word]) (a :: ap)) :
    ∃ num, getint lflag (a :: ap) = .ok (num, ap) ∧ num.toInt = a.signed := by
  split_ifs at h with hl
  · cases a with
    | dword w => exact ⟨w, by rw [getint, if_pos hl], rfl⟩
    | word w => cases h.1
    | str p => cases h.1
  · cases a with
    | dword w => cases h.1
    | word w =>
        refine ⟨w.signExtend 64, by rw [getint, if_neg hl], ?_⟩
        exact BitVec.toInt_signExtend_of_le (by decide)
    | str p => cases h.1

theorem convUnsigned_render (base : Base)
    (h : Meets (if 2 ≤ e.lflag then [.dword] else [.word]) (a :: ap)) (s : σ) :
    convUnsigned putch base e (a :: ap) s =
      .ok (ap, emit putch (e.number base.val a.unsigned) s) := by
  obtain ⟨num, hnum, hvalue⟩ := getuint_unsigned h
  rw [convUnsigned, hnum, Result.ok_bind]
  simp only [number_wraps, hvalue]
  rfl

theorem convDecimal_render (h : Meets (if 2 ≤ e.lflag then [.dword] else [.word]) (a :: ap))
    (s : σ) :
    convDecimal putch e (a :: ap) s =
      .ok (ap, emit putch (sign a.signed ++ e.number 10 a.signed.natAbs) s) := by
  obtain ⟨num, hnum, hvalue⟩ := getint_signed h
  rw [convDecimal, hnum, Result.ok_bind]
  simp only [number_wraps, ← hvalue]
  split_ifs with hneg
  · rw [toNat_neg_of_neg hneg, sign_of_neg hneg, List.cons_append, emit_cons]
    rfl
  · rw [toNat_of_nonneg (by omega), sign_of_nonneg (by omega)]
    rfl

/-! ## Conversions -/

theorem Meets.str (h : Meets [.str] ap) :
    ∃ p ap', ap = .str p :: ap' ∧ Demand.str.Accepts (.str p) := by
  cases ap with
  | nil => cases h
  | cons a ap =>
      cases a with
      | word w => cases h.1
      | dword w => cases h.1
      | str p => exact ⟨p, ap, rfl, h.1⟩

/-- A string argument is the string and what is behind its NUL. -/
theorem exists_stringOrNull {p : Option (List Byte)} (h : Demand.str.Accepts (.str p)) :
    ∃ junk, stringOrNull p = (Arg.str p).string ++ 0 :: junk ∧ 0 ∉ (Arg.str p).string := by
  have hmem : 0 ∈ stringOrNull p := by
    cases p with
    | none => decide
    | some bs => exact h bs rfl
  have hsplit := (stringOrNull p).takeWhile_append_dropWhile (p := fun b ↦ decide (b ≠ 0))
  have hzero : 0 ∉ (stringOrNull p).takeWhile (· ≠ 0) := fun hz ↦ by
    simpa using List.mem_takeWhile_imp hz
  cases hdrop : (stringOrNull p).dropWhile (· ≠ 0) with
  | nil =>
      rw [hdrop, List.append_nil] at hsplit
      rw [← hsplit] at hmem
      exact absurd hmem hzero
  | cons b junk =>
      have hb := List.head?_dropWhile_not (fun b : Byte ↦ decide (b ≠ 0)) (stringOrNull p)
      rw [hdrop] at hb hsplit
      obtain rfl : b = 0 := by simpa using hb
      exact ⟨junk, hsplit.symm, hzero⟩

/-- **What a conversion prints.** -/
theorem convert_render {conv : Conv} (he : e.InRange) (h : Meets (conv.demands e.lflag) ap)
    (s : σ) :
    convert putch conv e ap s = .ok (ap.drop (conv.demands e.lflag).length,
      emit putch (conv.render e (ap.headD (.word 0))) s) := by
  cases conv with
  | percent => rfl
  | c =>
      obtain ⟨w, ap, rfl, -⟩ := h.word
      rfl
  | p =>
      obtain ⟨w, ap, rfl, -⟩ := h.word
      rw [convert, convPointer, number_wraps, BitVec.toNat_setWidth_of_le (by decide)]
      rfl
  | s =>
      obtain ⟨p, ap, rfl, hstr⟩ := Meets.str h
      obtain ⟨junk, hp, hzero⟩ := exists_stringOrNull hstr
      exact convStr_eq putch hp hzero he ap s
  | d | u | o | x =>
      simp only [Conv.demands, length_number_demands] at h ⊢
      cases ap with
      | nil => split_ifs at h <;> cases h
      | cons a ap =>
          first
          | exact convDecimal_render putch h s
          | exact convUnsigned_render putch _ h s

end

/-! ## Formats -/

section

variable {fmt : CString} {i : Nat} {ap : List Arg} {flags rest : List Byte} {ch : Byte}

/-- The scan of an escape, with the arguments of its stars. -/
theorem reswitch_render (hat : fmt.At i (ascii '%' :: flags ++ rest))
    (hflags : ∀ b ∈ flags, isFlag b) (hrest : ¬ isFlag (rest.headD 0))
    (hap : Meets (starDemands flags) ap) :
    reswitch fmt (i + 1) ap {} = .ok (rest.headD 0, afterEscape i flags,
      ap.drop (starDemands flags).length, (flags.foldl Scan.step ⟨false, ap, {}⟩).leave.esc) :=
  Scan.resume_flags (s := ⟨false, ap, {}⟩) hflags hrest hat.tail hap

/-- An escape that ends in a conversion other than `%e`. -/
theorem conv_escapes {conv : Conv} (hat : fmt.At i (ascii '%' :: flags ++ ch :: rest))
    (hflags : ∀ b ∈ flags, isFlag b) (hch : ¬ isFlag ch) (hconv : Conv.ofChar ch = some conv)
    (hap : Meets (starDemands flags ++ conv.demands (longs flags)) ap) :
    Escapes fmt i ap ((Segment.conv flags ch).render ap) (afterEscape i flags)
      (ap.drop (starDemands flags ++ conv.demands (longs flags)).length) := by
  obtain ⟨hstars, hap⟩ := meets_append.mp hap
  have hswitch := reswitch_render hat hflags hch hstars
  have hrange := reswitch_inRange hswitch
  have hlong : longs flags = (flags.foldl Scan.step ⟨false, ap, {}⟩).leave.esc.lflag := by
    rw [Scan.leave_lflag, Scan.foldl_lflag _ hflags, Nat.zero_add]
  rw [hlong] at hap ⊢
  refine escapes_of_convert hat.read hswitch hconv ?_
  intro σ putch s
  rw [convert_render putch hrange hap, List.drop_drop, List.length_append, Segment.render, hconv]

/-- An escape that is not recognized: after its `%` the format goes on with its flags. -/
theorem bad_escapes (hat : fmt.At i (ascii '%' :: flags ++ rest)) (hflags : ∀ b ∈ flags, isFlag b)
    (hrest : ¬ isFlag (rest.headD 0)) (hconv : ¬ isConv (rest.headD 0))
    (hap : Meets (starDemands flags) ap) :
    Escapes fmt i ap [0x25] (i + 1) (ap.drop (starDemands flags).length) := by
  refine ⟨hat.read, fun σ putch go s ↦ ?_⟩
  rw [escape, reswitch_render hat hflags hrest hap, Result.ok_bind]
  simp only [isConv, decide_eq_true_eq, not_or, Option.not_isSome_iff_eq_none] at hconv
  simp only [if_neg hconv.1, hconv.2, afterEscape, Nat.add_sub_cancel, rewind_flags hflags hat,
    Result.ok_bind]
  rfl

variable {σ : Type} {putch : Code → σ → σ} {fuel : Nat}

/-- An escape that ends in a conversion. -/
theorem vprintfmt_conv (hat : fmt.At i (ascii '%' :: flags ++ ch :: rest))
    (hflags : ∀ b ∈ flags, isFlag b) (hch : ¬ isFlag ch) (hconv : isConv ch)
    (hap : Meets (Segment.conv flags ch).demands ap) (hfuel : 2 ≤ fuel) (s : σ) :
    vprintfmt putch (fuel + 1) fmt i ap s =
      vprintfmt putch fuel fmt (afterEscape i flags)
        (ap.drop (Segment.conv flags ch).demands.length)
        (emit putch ((Segment.conv flags ch).render ap) s) := by
  rw [Segment.demands, caseDemands] at hap ⊢
  cases hc : Conv.ofChar ch with
  | some conv =>
      rw [hc] at hap
      exact (conv_escapes hat hflags hch hc hap).vprintfmt_eq putch fuel s
  | none =>
      rw [hc] at hap
      obtain rfl : ch = ascii 'e' := by simpa [isConv, hc] using hconv
      obtain ⟨hstars, hap⟩ := meets_append.mp hap
      obtain ⟨err, ap', hdrop, -⟩ := hap.word
      have hswitch := reswitch_render hat hflags not_isFlag_e hstars
      have hrender : (Segment.conv flags (ascii 'e')).render ap = codeText err := by
        rw [Segment.render, hdrop]
        exact congrArg codeText BitVec.ofInt_toInt
      have hrest : ap.drop (starDemands flags ++ [Demand.word]).length = ap' := by
        rw [List.length_append, ← List.drop_drop, hdrop]
        rfl
      rw [hdrop] at hswitch
      rw [emitsError_codeText err fmt i _ ap ap' _ hat.read hswitch σ putch fuel s hfuel, hrender,
        hrest]

/-- **The rest of a format**, piece by piece.  A pass of the loop takes at least one
character. -/
theorem vprintfmt_segments {l : List Byte} (hat : fmt.At i l)
    (hap : Meets ((segments l).flatMap Segment.demands) ap) (hfuel : l.length + 3 ≤ fuel) (s : σ) :
    vprintfmt putch fuel fmt i ap s = .ok (emit putch (render (segments l) ap) s) := by
  induction l using segments_induction generalizing i ap fuel s with
  | nil =>
      obtain ⟨fuel, rfl⟩ := Nat.exists_eq_add_of_le' (show 1 ≤ fuel by omega)
      rw [segments, vprintfmt_nul hat.read]
      rfl
  | text b bs hb ih =>
      rw [List.length_cons] at hfuel
      have hpercent : ascii '%' ∉ [b] := by simpa using hb.symm
      rw [segments_text hb] at hap ⊢
      have hrest := ih hat.tail hap (show bs.length + 3 ≤ fuel by omega) (emit putch (codes [b]) s)
      rw [render, emit_append]
      exact (vprintfmt_literal (l := [b]) hat hpercent fuel ap s).trans hrest
  | cut flags hflags =>
      rw [List.length_cons] at hfuel
      obtain ⟨fuel, rfl⟩ := Nat.exists_eq_add_of_le' (show 2 ≤ fuel by omega)
      have hpercent : ascii '%' ∉ flags := fun hmem ↦ not_isFlag_percent (hflags _ hmem)
      have hat' : fmt.At i (ascii '%' :: flags ++ []) := by rwa [List.append_nil]
      rw [segments_cut hflags] at hap ⊢
      rw [List.flatMap_singleton] at hap
      have hescapes := bad_escapes hat' hflags not_isFlag_zero not_isConv_zero hap
      rw [hescapes.vprintfmt_eq, vprintfmt_literal hat'.tail hpercent,
        vprintfmt_nul hat'.tail.append.read, ← emit_append]
      have hbytes : (Segment.bad flags none).bytes = ascii '%' :: flags := List.append_nil _
      have hrender : render [Segment.bad flags none] ap = [0x25] ++ codes flags := by
        rw [render, render, Segment.render, hbytes, List.append_nil]
        · rfl
        · simp
      rw [hrender]
  | escape flags ch rest hflags hch ih =>
      rw [List.length_append, List.length_cons] at hfuel
      obtain ⟨fuel, rfl⟩ := Nat.exists_eq_add_of_le' (show 1 ≤ fuel by omega)
      rw [segments_escape hflags hch] at hap ⊢
      rw [List.flatMap_cons, meets_append] at hap
      obtain ⟨hap, haprest⟩ := hap
      by_cases hconv : isConv ch
      · rw [if_pos hconv] at hap haprest ⊢
        rw [vprintfmt_conv hat hflags hch hconv hap (by omega),
          ih hat.afterEscape haprest (by simp only [List.length_cons] at hfuel; omega), render,
          emit_append]
      · rw [if_neg hconv] at hap haprest ⊢
        have hpercent : ascii '%' ∉ flags ++ [ch] := by
          rw [List.mem_append, not_or, List.mem_singleton]
          refine ⟨fun hmem ↦ not_isFlag_percent (hflags _ hmem), ?_⟩
          rintro rfl
          exact hconv (by decide)
        have hsplit : fmt.At (i + 1) ((flags ++ [ch]) ++ rest) := by
          rw [List.append_assoc]
          exact hat.tail
        have hescapes := bad_escapes hat hflags hch hconv hap
        have hrest := ih hsplit.append haprest
          (show rest.length + 3 ≤ fuel by simp only [List.length_cons] at hfuel; omega)
          (emit putch (codes (flags ++ [ch])) (emit putch [0x25] s))
        rw [hescapes.vprintfmt_eq, vprintfmt_literal hsplit hpercent, render, emit_append]
        exact hrest

end

/-! ## Whole formats -/

section

variable {fmt : CString} {ap : List Arg} {fuel : Nat}

theorem vprintfmt_render (hap : Sufficient fmt ap) (hfuel : fmt.bytes.length + 3 ≤ fuel) {σ : Type}
    (putch : Code → σ → σ) (s : σ) :
    vprintfmt putch fuel fmt 0 ap s = .ok (emit putch (render (segments fmt.bytes) ap) s) :=
  vprintfmt_segments (.start fmt) hap hfuel s

theorem vprintfmt_record (hap : Sufficient fmt ap) (hfuel : fmt.bytes.length + 3 ≤ fuel) :
    vprintfmt record fuel fmt 0 ap [] = .ok (render (segments fmt.bytes) ap) := by
  rw [vprintfmt_render hap hfuel, emit_record, List.nil_append]

theorem vcprintf_render (hap : Sufficient fmt ap) (hfuel : fmt.bytes.length + 3 ≤ fuel)
    (dev : Console.Device) (m : Console.Out) :
    vcprintf dev fuel fmt ap m =
      .ok (0, emit (Console.cputchar dev) (render (segments fmt.bytes) ap) m) :=
  vcprintf_eq (vprintfmt_record hap hfuel) dev m

theorem cprintf_render (hap : Sufficient fmt ap) (hfuel : fmt.bytes.length + 3 ≤ fuel)
    (dev : Console.Device) (m : Console.Out) :
    cprintf dev fuel fmt ap m =
      .ok (0, emit (Console.cputchar dev) (render (segments fmt.bytes) ap) m) := by
  rw [cprintf, vcprintf_render hap hfuel]
  rfl

/-- **The meaning of a format.**  With arguments that are enough for it, the formatter
returns whatever the callback is, and what is printed is the meaning of the format:
`cprintf` puts all of it on the console, and `vsnprintf` as much of it as there is room
for into the buffer, with a NUL behind it. -/
theorem format_meaning (hap : Sufficient fmt ap) (hfuel : fmt.bytes.length + 3 ≤ fuel) :
    (∀ (σ : Type) (putch : Code → σ → σ) (s : σ), vprintfmt putch fuel fmt 0 ap s =
        .ok (emit putch (render (segments fmt.bytes) ap) s)) ∧
      (∀ dev m, cprintf dev fuel fmt ap m =
        .ok (0, emit (Console.cputchar dev) (render (segments fmt.bytes) ap) m)) ∧
      ∀ (mem : Mem) (buf n : BitVec 32), buf ≠ 0 → 1 ≤ n.toInt → buf.toNat + n.toNat ≤ 2 ^ 32 →
        (render (segments fmt.bytes) ap).length < 2 ^ 31 →
        vsnprintf fuel mem buf n fmt ap = .ok ((render (segments fmt.bytes) ap).length,
          (mem.storeAll buf (chars ((render (segments fmt.bytes) ap).take (n.toNat - 1)))).store
            (buf + BitVec.ofNat 32 (min (render (segments fmt.bytes) ap).length
              (n.toNat - 1))) 0) := by
  refine ⟨fun σ putch s ↦ vprintfmt_render hap hfuel putch s, cprintf_render hap hfuel, ?_⟩
  intro mem buf n hbuf hn hfits hlen
  exact vsnprintf_eq hbuf hn hfits (vprintfmt_record hap hfuel) hlen

end

/-- A number, a string with a precision from the arguments, an error number and an escape
that is not one. -/
def reportFormat : CString := .literal "%04x %.*s|%e%q"

def reportArgs : List Arg :=
  [.word 0xBE, .word 3, .str (some (asciis "table".toList ++ [0])), .word (-3)]

theorem reportFormat_meaning :
    cprintf deadDevice 18 reportFormat reportArgs Console.blankScreen =
      .ok (0, emit (Console.cputchar deadDevice)
        (codes (asciis "00be tab|invalid parameter%q".toList)) Console.blankScreen) := by
  have hsegments : segments reportFormat.bytes = [.conv (asciis "04".toList) (ascii 'x'),
      .text (ascii ' '), .conv (asciis ".*".toList) (ascii 's'), .text (ascii '|'),
      .conv [] (ascii 'e'), .bad [] (some (ascii 'q'))] := by decide +kernel
  have hap : Sufficient reportFormat reportArgs := by
    rw [Sufficient, hsegments]
    exact ⟨trivial, trivial, by rintro bs ⟨⟩; decide, trivial, trivial⟩
  have hrender : render (segments reportFormat.bytes) reportArgs =
      codes (asciis "00be tab|invalid parameter%q".toList) := by
    rw [hsegments]
    decide +kernel
  rw [← hrender]
  exact (format_meaning hap (by decide)).2.1 deadDevice Console.blankScreen

end JosKernel.Printf
