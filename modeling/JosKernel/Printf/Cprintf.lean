import JosKernel.Console.Output
import JosKernel.Printf.Snprintf
import JosKernel.Printf.Text

/-!
# `cprintf`

Printing to the console is `vprintfmt` with the callback `putch`, which is to count the
characters as `sprintputch` does.  It moves its own pointer instead, `*cnt++`, so the
count stays 0, and is right exactly when nothing is printed (`cprintf_count_iff`).

The formats that print nothing are made of conversions `%s` of nothing (`Silent`): all
other pieces of a format print at least one character.
-/

namespace JosKernel.Printf

open Console

/-! ## The code -/

/-- `putch(ch, cnt)`.  `*cnt++` reads the count and moves the pointer `cnt`, which is a
parameter. -/
def putch (dev : Device) (ch : Code) : Int × Out → Int × Out
  | (cnt, m) => (cnt, cputchar dev ch m)

/-- `vcprintf(fmt, ap)`. -/
def vcprintf (dev : Device) (fuel : Nat) (fmt : CString) (ap : List Arg) (m : Out) :
    Except Stop (Int × Out) := do
  let (cnt, m) ← vprintfmt (putch dev) fuel fmt 0 ap (0, m)
  return (cnt, m)

/-- `cprintf(fmt, ...)`. -/
def cprintf (dev : Device) (fuel : Nat) (fmt : CString) (ap : List Arg) (m : Out) :
    Except Stop (Int × Out) := do
  let (cnt, m) ← vcprintf dev fuel fmt ap m
  return (cnt, m)

/-- The count is never changed. -/
theorem emit_putch (dev : Device) (W : List Code) (cnt : Int) (m : Out) :
    emit (putch dev) W (cnt, m) = (cnt, emit (cputchar dev) W m) := by
  induction W generalizing m with
  | nil => rfl
  | cons c W ih => exact ih (cputchar dev c m)

/-- What `vcprintf` does with the output `W` of `vprintfmt`. -/
theorem vcprintf_eq {fuel : Nat} {fmt : CString} {ap : List Arg} {W : List Code}
    (hW : vprintfmt record fuel fmt 0 ap [] = .ok W) (dev : Device) (m : Out) :
    vcprintf dev fuel fmt ap m = .ok (0, emit (cputchar dev) W m) := by
  rw [vcprintf, vprintfmt_of_record hW, emit_putch]
  rfl

/-! ## Nothing is printed -/

/-- `%s` prints nothing of this string. -/
def SilentString (e : Esc) (p : Option (List Byte)) : Prop :=
  e.width ≤ 0 ∧ ∃ b bs, stringOrNull p = b :: bs ∧ (b = 0 ∨ e.precision = 0)

/-- From index `i` on, the format has only conversions `%s` that print nothing. -/
inductive Silent (fmt : CString) : Nat → List Arg → Prop where
  | nul {i : Nat} {ap : List Arg} (hread : fmt.read i = .ok 0) : Silent fmt i ap
  | string {i i' : Nat} {ap ap' : List Arg} {p : Option (List Byte)} {e : Esc}
      (hread : fmt.read i = .ok (ascii '%'))
      (hswitch : reswitch fmt (i + 1) ap {} = .ok (ascii 's', i', .str p :: ap', e))
      (hp : SilentString e p) (rest : Silent fmt i' ap') : Silent fmt i ap

theorem SilentString.convStr_eq {e : Esc} {p : Option (List Byte)} (h : SilentString e p)
    {σ : Type} (putch : Code → σ → σ) (ap : List Arg) (s : σ) :
    convStr putch e (.str p :: ap) s = .ok (ap, s) := by
  obtain ⟨hwidth, b, bs, hbs, hstop⟩ := h
  have hleft : ¬ (0 < e.width ∧ e.padc ≠ ascii '-') := fun h ↦ by omega
  rw [convStr, vaStr, Result.ok_bind]
  simp only [hbs, padLeft, if_neg hleft, Result.ok_bind, strLoop_stop putch hstop, padLoop_eq]
  rw [Int.toNat_of_nonpos hwidth]
  rfl

/-- A format with only such conversions prints nothing. -/
theorem Silent.eq_nil {fmt : CString} {i : Nat} {ap : List Arg} (h : Silent fmt i ap) {fuel : Nat}
    {W : List Code} (hW : vprintfmt record fuel fmt i ap [] = .ok W) : W = [] := by
  induction h generalizing fuel with
  | nul hread =>
      cases fuel with
      | zero => cases hW
      | succ fuel => cases (vprintfmt_nul hread fuel _ _).symm.trans hW; rfl
  | string hread hswitch hp rest ih =>
      cases fuel with
      | zero => cases hW
      | succ fuel =>
          have hch : Conv.ofChar (ascii 's') = some .s := Conv.ofChar_s.mpr rfl
          have he : ascii 's' ≠ ascii 'e' := by decide
          rw [vprintfmt_percent hread, escape, hswitch, Result.ok_bind] at hW
          simp only [if_neg he, hch, convert, hp.convStr_eq, Result.ok_bind] at hW
          exact ih hW

/-! ## Everything else prints something -/

/-- What has been printed stays printed. -/
theorem eq_nil_of_vprintfmt {fuel : Nat} {fmt : CString} {i : Nat} {ap : List Arg} {out : List Code}
    (h : vprintfmt record fuel fmt i ap out = .ok []) : out = [] := by
  obtain ⟨r, hr⟩ := vprintfmt_emits fuel fmt i ap
  have hout := (hr _ record out).symm.trans h
  cases r with
  | error stop => cases hout
  | ok cs =>
      rw [Result.map_ok, emit_record] at hout
      exact (List.append_eq_nil_iff.mp (Except.ok.inj hout)).1

theorem number_ne_nil (e : Esc) (num : BitVec 64) (base : Base) (out : List Code) :
    number record e num base out ≠ [] := by
  rw [number, printnum]
  exact List.append_ne_nil_of_right_ne_nil _ (List.cons_ne_nil _ _)

theorem strLoop_ne_nil {altflag : Bool} {b : Byte} {bs : List Byte} {precision width width' : Int}
    {out W : List Code} (hb : b ≠ 0) (hprec : precision ≠ 0)
    (h : strLoop record altflag (b :: bs) precision width out = .ok (width', W)) : W ≠ [] := by
  rw [strLoop_cons record hb (by omega)] at h
  obtain ⟨r, hr⟩ := strLoop_emits altflag bs (if precision < 0 then precision else precision - 1)
    (wrap32 (width - 1))
  have hout := (hr _ record (record (shown altflag b) out)).symm.trans h
  cases r with
  | error stop => cases hout
  | ok p =>
      cases hout
      rw [emit_record, record, List.append_assoc]
      exact List.append_ne_nil_of_right_ne_nil _ (List.cons_ne_nil _ _)

theorem strnlen_stop {b : Byte} {precision : Int} (h : b = 0 ∨ precision = 0) (bs : List Byte) :
    strnlen (b :: bs) (precision % 2 ^ 32).toNat = .ok 0 := by
  rcases h with rfl | rfl
  · cases (precision % 2 ^ 32).toNat <;> rfl
  · rfl

theorem vaStr_ok {ap ap' : List Arg} {p : Option (List Byte)} (h : vaStr ap = .ok (p, ap')) :
    ap = .str p :: ap' := by
  match ap, h with
  | .str p :: ap, h =>
      cases h
      rfl

/-- The padding on the left prints something if there is a width for it. -/
theorem width_le_of_padLeft {e : Esc} (he : e.InRange) {b : Byte} {bs : List Byte}
    (hstop : b = 0 ∨ e.precision = 0) {width : Int}
    (h : padLeft record e (b :: bs) [] = .ok (width, [])) (hwidth : width ≤ 0) : e.width ≤ 0 := by
  unfold padLeft at h
  split_ifs at h with hpos
  · have hwrap : wrap32 e.width = e.width := wrap32_of_range he.width
    rw [strnlen_stop hstop, Result.ok_bind, padLoop_eq, Int.ofNat_zero, Int.sub_zero, hwrap] at h
    have hout := congrArg List.length (Prod.mk.inj (Except.ok.inj h)).2
    rw [emit_record, List.nil_append, List.length_replicate, List.length_nil] at hout
    omega
  · cases h
    exact hwidth

/-- A `%s` that prints nothing. -/
theorem silentString_of_convStr {e : Esc} (he : e.InRange) {ap ap' : List Arg}
    (h : convStr record e ap [] = .ok (ap', [])) :
    ∃ p, ap = .str p :: ap' ∧ SilentString e p := by
  obtain ⟨⟨p, ap''⟩, hva, h⟩ := Result.bind_eq_ok.mp h
  obtain ⟨⟨width, out⟩, hleft, h⟩ := Result.bind_eq_ok.mp h
  obtain ⟨⟨width', out'⟩, hloop, h⟩ := Result.bind_eq_ok.mp h
  simp only [padLoop_eq, emit_record] at hva h
  obtain ⟨rfl, hnil⟩ := Prod.mk.inj (Except.ok.inj h)
  obtain ⟨rfl, hpad⟩ := List.append_eq_nil_iff.mp hnil
  refine ⟨p, vaStr_ok hva, ?_⟩
  cases hbs : stringOrNull p with
  | nil =>
      rw [hbs] at hloop
      cases hloop
  | cons b bs =>
      rw [hbs] at hleft hloop
      have hstop : b = 0 ∨ e.precision = 0 := by
        by_contra hgo
        obtain ⟨hb, hprec⟩ := not_or.mp hgo
        exact strLoop_ne_nil hb hprec hloop rfl
      rw [strLoop_stop record hstop] at hloop
      cases hloop
      have hwidth := congrArg List.length hpad
      rw [List.length_replicate, List.length_nil] at hwidth
      exact ⟨width_le_of_padLeft he hstop hleft (by omega), b, bs, hbs, hstop⟩

/-- The other conversions print something. -/
theorem silent_of_convert {conv : Conv} {e : Esc} (he : e.InRange) {ap ap' : List Arg}
    (h : convert record conv e ap [] = .ok (ap', [])) :
    conv = .s ∧ ∃ p, ap = .str p :: ap' ∧ SilentString e p := by
  have hunsigned : ∀ base, convUnsigned record base e ap [] ≠ .ok (ap', []) := by
    intro base hbase
    obtain ⟨⟨num, ap''⟩, -, h⟩ := Result.bind_eq_ok.mp hbase
    exact number_ne_nil e num base [] (Prod.mk.inj (Except.ok.inj h)).2
  cases conv with
  | s => exact ⟨rfl, silentString_of_convStr he h⟩
  | c =>
      obtain ⟨⟨n, ap''⟩, -, h⟩ := Result.bind_eq_ok.mp h
      cases h
  | d =>
      obtain ⟨⟨num, ap''⟩, -, h⟩ := Result.bind_eq_ok.mp h
      dsimp only at h
      split_ifs at h
      · exact absurd (Prod.mk.inj (Except.ok.inj h)).2 (number_ne_nil e _ _ _)
      · exact absurd (Prod.mk.inj (Except.ok.inj h)).2 (number_ne_nil e _ _ _)
  | u => exact absurd h (hunsigned _)
  | o => exact absurd h (hunsigned _)
  | x => exact absurd h (hunsigned _)
  | p =>
      cases ap with
      | nil => cases h
      | cons a ap =>
          cases a with
          | word w => exact absurd (Prod.mk.inj (Except.ok.inj h)).2 (number_ne_nil e _ _ _)
          | dword q => cases h
          | str p => cases h
  | percent => cases h

theorem headD_of_errorString {err : Int} {p : List Byte} (h : errorString err = some p) :
    p.headD 0 ≠ 0 := by
  have htable : ∀ entry ∈ errorTable, ∀ p ∈ entry, p.headD 0 ≠ 0 := by decide
  unfold errorString at h
  split_ifs at h
  rw [Option.join_eq_some_iff] at h
  exact htable _ (List.mem_of_getElem? h) p rfl

/-- What `%e` calls `printfmt` with prints something. -/
theorem not_silent_of_convError {fmt : CString} {ap ap' ap'' : List Arg}
    (h : convError ap = .ok ((fmt, ap'), ap'')) : ¬ Silent fmt 0 ap' := by
  obtain ⟨⟨n, ap₁⟩, -, h⟩ := Result.bind_eq_ok.mp h
  dsimp only at h
  split at h
  next herr =>
    cases h
    rintro (⟨hread⟩ | ⟨hread, -⟩) <;> exact absurd hread (by decide)
  next p herr =>
    cases h
    intro hsilent
    cases hsilent with
    | nul hread => exact absurd hread (by decide)
    | string hread hswitch hp rest =>
        have hs : CString.read (.literal "%s") (0 + 1) = .ok (ascii 's') := by decide
        cases (reswitch_stop hs (by decide) _ _).symm.trans hswitch
        obtain ⟨-, b, bs, hbs, hstop⟩ := hp
        have hb : b = 0 := hstop.resolve_right (by decide)
        have hhead := headD_of_errorString herr
        cases p with
        | nil => exact hhead rfl
        | cons c p => exact hhead ((List.cons.inj hbs).1.trans hb)

section

variable {fuel : Nat} {fmt : CString} {i : Nat} {ap : List Arg}

/-- An escape after which nothing has been printed is a `%s` of nothing. -/
theorem silent_of_escape
    (ih : ∀ fmt i ap, vprintfmt record fuel fmt i ap [] = .ok [] → Silent fmt i ap)
    (hread : fmt.read i = .ok (ascii '%'))
    (h : escape record (vprintfmt record fuel) fmt (i + 1) ap [] = .ok []) : Silent fmt i ap := by
  obtain ⟨⟨ch, i', ap', e⟩, hswitch, h⟩ := Result.bind_eq_ok.mp h
  dsimp only at h
  split_ifs at h with he
  · obtain ⟨⟨⟨fmt', ap₁⟩, ap₂⟩, herr, h⟩ := Result.bind_eq_ok.mp h
    obtain ⟨out, hcall, h⟩ := Result.bind_eq_ok.mp h
    cases eq_nil_of_vprintfmt h
    exact absurd (ih _ _ _ hcall) (not_silent_of_convError herr)
  · split at h
    next conv hconv =>
      obtain ⟨⟨ap₁, out⟩, hconvert, hrest⟩ := Result.bind_eq_ok.mp h
      cases eq_nil_of_vprintfmt hrest
      obtain ⟨rfl, p, rfl, hp⟩ := silent_of_convert (reswitch_inRange hswitch) hconvert
      obtain rfl := Conv.ofChar_s.mp hconv
      exact .string hread hswitch hp (ih _ _ _ hrest)
    next hconv =>
      -- the `%` of an unknown escape is printed
      obtain ⟨k, -, h⟩ := Result.bind_eq_ok.mp h
      cases eq_nil_of_vprintfmt h

/-- A format that prints nothing has only conversions `%s` of nothing. -/
theorem silent_of_vprintfmt (h : vprintfmt record fuel fmt i ap [] = .ok []) :
    Silent fmt i ap := by
  induction fuel generalizing fmt i ap with
  | zero => cases h
  | succ fuel ih =>
      cases hread : fmt.read i with
      | error stop =>
          rw [vprintfmt, printText_error record hread] at h
          cases h
      | ok ch =>
          by_cases hzero : ch = 0
          · subst hzero
            exact .nul hread
          by_cases hpercent : ch = ascii '%'
          · subst hpercent
            rw [vprintfmt_percent hread] at h
            exact silent_of_escape (fun _ _ _ ↦ ih) hread h
          · rw [vprintfmt_text hread hpercent hzero] at h
            cases eq_nil_of_vprintfmt h

end

/-! ## The count -/

/-- **The count of `cprintf`.**  Let `W` be the output of `vprintfmt`, with fewer than
`2 ^ 31` characters.  `vcprintf` and `cprintf` give these to `cputchar`, and what they
return is their number, and what `vsnprintf` returns for any buffer, exactly when the
format has only conversions `%s` that print nothing. -/
theorem cprintf_count_iff {fuel : Nat} {fmt : CString} {ap : List Arg} {W : List Code}
    (hW : vprintfmt record fuel fmt 0 ap [] = .ok W) (hlen : W.length < 2 ^ 31) (dev : Device)
    (m : Out) :
    ∃ cnt, vcprintf dev fuel fmt ap m = .ok (cnt, emit (cputchar dev) W m) ∧
      cprintf dev fuel fmt ap m = .ok (cnt, emit (cputchar dev) W m) ∧
      ((cnt = W.length ∧ ∀ (mem : Mem) (buf n : BitVec 32), buf ≠ 0 → 1 ≤ n.toInt →
          buf.toNat + n.toNat ≤ 2 ^ 32 →
          ∃ mem', vsnprintf fuel mem buf n fmt ap = .ok (cnt, mem')) ↔
        Silent fmt 0 ap) := by
  have hvcprintf := vcprintf_eq hW dev m
  refine ⟨0, hvcprintf, by rw [cprintf, hvcprintf]; rfl, ?_⟩
  constructor
  · rintro ⟨hcnt, -⟩
    obtain rfl : W = [] := List.eq_nil_of_length_eq_zero (by omega)
    exact silent_of_vprintfmt hW
  · intro hsilent
    obtain rfl := hsilent.eq_nil hW
    refine ⟨rfl, ?_⟩
    intro mem buf n hbuf hn hfits
    exact ⟨_, vsnprintf_eq hbuf hn hfits hW hlen⟩

/-- A format of one character. -/
def oneChar : CString := .literal "a"

/-- A device of which every read is 0. -/
def deadDevice : Device := fun _ _ ↦ 0

theorem oneChar_count_iff :
    ∃ cnt, vcprintf deadDevice 1 oneChar [] blankScreen =
        .ok (cnt, cputchar deadDevice 0x61 blankScreen) ∧
      cprintf deadDevice 1 oneChar [] blankScreen =
        .ok (cnt, cputchar deadDevice 0x61 blankScreen) ∧
      ((cnt = 1 ∧ ∀ (mem : Mem) (buf n : BitVec 32), buf ≠ 0 → 1 ≤ n.toInt →
          buf.toNat + n.toNat ≤ 2 ^ 32 →
          ∃ mem', vsnprintf 1 mem buf n oneChar [] = .ok (cnt, mem')) ↔
        Silent oneChar 0 []) := by
  have hW : vprintfmt record 1 oneChar 0 [] [] = .ok [0x61] := by decide +kernel
  exact cprintf_count_iff hW (by decide) deadDevice blankScreen

/-- One character is printed and 0 is returned, where `vsnprintf` returns 1. -/
theorem oneChar_count :
    cprintf deadDevice 1 oneChar [] blankScreen =
        .ok (0, cputchar deadDevice 0x61 blankScreen) ∧
      (vsnprintf 1 (fun _ ↦ 0) 0x1000 16 oneChar []).map Prod.fst = .ok 1 := by
  have hW : vprintfmt record 1 oneChar 0 [] [] = .ok [0x61] := by decide +kernel
  constructor
  · rw [cprintf, vcprintf_eq hW]
    rfl
  · rw [vsnprintf_eq (by decide) (by decide) (by decide) hW (by decide)]
    rfl

end JosKernel.Printf
