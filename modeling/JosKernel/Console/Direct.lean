import JosKernel.Console.Display
import JosKernel.Console.Readline

/-!
# Text through `%s`

A text without a `%` can be printed as a format, or as the argument of `"%s"`.  The first
loop of `vprintfmt` reads it through an `unsigned char *` and widens its bytes with
zeros; the loop of `%s` reads a `char`, which is signed, and copies the sign.  From 0x80
on the codes differ in the upper bits, where `cga_putc` looks for the attribute
(`text_same_iff`).
-/

namespace JosKernel.Console

open Printf

/-! ## Codes -/

/-- A byte is widened the same with and without its sign if it has none. -/
theorem signExtend_eq_iff (b : Byte) : b.signExtend 32 = b.setWidth 32 ↔ b < 0x80 := by
  revert b
  decide

/-- The codes that `%s` prints for some bytes. -/
def signedCodes (l : List Byte) : List Code := l.map (·.signExtend 32)

theorem signedCodes_eq_iff (l : List Byte) : signedCodes l = codes l ↔ ∀ b ∈ l, b < 0x80 := by
  induction l with
  | nil => simp [signedCodes, codes]
  | cons b l ih =>
      rw [signedCodes, codes, List.map_cons, List.map_cons, List.cons.injEq, List.forall_mem_cons,
        signExtend_eq_iff]
      exact and_congr_right fun _ ↦ ih

/-- The counter `width` of `%s`, which starts at -1 and goes down by one with each
character, has not come round to a positive value. -/
def CounterFits (n : Nat) : Prop := n % 2 ^ 32 < 2 ^ 31 ∨ n % 2 ^ 32 = 2 ^ 32 - 1

theorem counterFits_iff (n : Nat) : (wrap32 (-1 - n)).toNat = 0 ↔ CounterFits n := by
  unfold CounterFits wrap32
  rw [Int.bmod_def]
  split_ifs <;> omega

/-! ## The two ways of printing -/

section

variable {s : CString}

/-- The text as a format. -/
theorem prints_format (hpercent : ascii '%' ∉ s.bytes) : Prints s 0 [] (codes s.bytes) := by
  have hat : s.At 0 (s.bytes ++ []) := by
    rw [List.append_nil]
    exact .start s
  have hprints := Prints.literal hat hpercent (prints_nil hat.append [])
  rwa [List.append_nil] at hprints

/-- The text as the argument of `"%s"`. -/
theorem prints_argument (s : CString) (junk : List Byte) :
    Prints promptFormat 0 [.str (some (s.bytes ++ 0 :: junk))]
      (signedCodes s.bytes ++ List.replicate (wrap32 (-1 - s.bytes.length)).toNat 0x20) := by
  have hat : promptFormat.At 0 [ascii '%', ascii 's'] := .start promptFormat
  have hswitch : reswitch promptFormat 1 [.str (some (s.bytes ++ 0 :: junk))] {} =
      .ok (ascii 's', 2, [.str (some (s.bytes ++ 0 :: junk))], {}) :=
    reswitch_stop hat.tail.read (by decide) _ _
  have hescapes := string_escapes hat.read hswitch rfl s.zero_not_mem
  have hprints := hescapes.prints (prints_nil hat.tail.tail [])
  have hlen : Esc.textLength {} s.bytes = s.bytes.length := if_pos (by decide)
  have htext : Esc.text {} s.bytes = signedCodes s.bytes := by
    rw [Esc.text, hlen, List.take_length]
    rfl
  have hbefore : Esc.before {} s.bytes = (-1, []) := if_neg (by decide)
  rwa [Esc.string, htext, hbefore, hlen, List.append_nil, List.nil_append] at hprints

theorem printed_eq_iff (l : List Byte) (n : Nat) :
    signedCodes l ++ List.replicate n 0x20 = codes l ↔ (∀ b ∈ l, b < 0x80) ∧ n = 0 := by
  rw [← signedCodes_eq_iff]
  constructor
  · intro h
    have hlen := congrArg List.length h
    simp only [signedCodes, codes, List.length_append, List.length_map, List.length_replicate]
      at hlen
    obtain rfl : n = 0 := by omega
    exact ⟨by simpa using h, rfl⟩
  · rintro ⟨h, rfl⟩
    simpa using h

/-- What `cprintf` does is determined by the codes. -/
theorem cprintf_of_prints {fmt : CString} {ap : List Arg} {W : List Code}
    (h : Prints fmt 0 ap W) : ∃ n, ∀ fuel, n ≤ fuel → ∀ (dev : Device) (m : Out),
      cprintf dev fuel fmt ap m = .ok (0, emit (cputchar dev) W m) := by
  obtain ⟨n, hn⟩ := h
  refine ⟨n, ?_⟩
  intro fuel hfuel dev m
  have hW : vprintfmt record fuel fmt 0 ap [] = .ok W := by
    rw [hn fuel hfuel, emit_record, List.nil_append]
  rw [cprintf, vcprintf_eq hW]
  rfl

/-- With less fuel it may not end, but nothing else goes wrong. -/
theorem cprintf_error_of_prints {fmt : CString} {ap : List Arg} {W : List Code}
    (h : Prints fmt 0 ap W) {dev : Device} {fuel : Nat} {m : Out} {stop : Stop}
    (herror : cprintf dev fuel fmt ap m = .error stop) : stop = .fuel := by
  obtain ⟨n, hn⟩ := cprintf_of_prints h
  have hmax := hn (max fuel n) (le_max_right _ _) dev m
  have hupTo : Result.UpTo .fuel (cprintf dev fuel fmt ap m)
    (cprintf dev (max fuel n) fmt ap m) := by
    refine .bind (.bind ?_ fun _ ↦ .refl _ _) fun _ ↦ .refl _ _
    exact vprintfmt_upTo (putch dev) (le_max_left fuel n) fmt 0 ap (0, m)
  rcases hupTo with hfuel | hsame
  · cases herror.symm.trans hfuel
    rfl
  · cases herror.symm.trans (hsame.trans hmax)

/-- **Text through `%s`.**  A text without a `%` gives the callback the same codes, and so
the screen the same cells, as a format and as the argument of `"%s"`, exactly when all its
bytes are below 0x80, and it is not so long that the counter `width` overflows. -/
theorem text_same_iff (hpercent : ascii '%' ∉ s.bytes) (junk : List Byte) :
    ∃ W W', Prints promptFormat 0 [.str (some (s.bytes ++ 0 :: junk))] W ∧ Prints s 0 [] W' ∧
      ((W = W' ∧ ∃ n, ∀ fuel, n ≤ fuel → ∀ (dev : Device) (m : Out),
          cprintf dev fuel promptFormat [.str (some (s.bytes ++ 0 :: junk))] m =
            cprintf dev fuel s [] m) ↔
        (∀ b ∈ s.bytes, b < 0x80) ∧ CounterFits s.bytes.length) := by
  have harg := prints_argument s junk
  have hfmt := prints_format hpercent
  refine ⟨_, _, harg, hfmt, ?_⟩
  rw [← counterFits_iff, ← printed_eq_iff]
  constructor
  · exact And.left
  · intro heq
    refine ⟨heq, ?_⟩
    obtain ⟨n, hn⟩ := cprintf_of_prints harg
    obtain ⟨n', hn'⟩ := cprintf_of_prints hfmt
    refine ⟨max n n', ?_⟩
    intro fuel hfuel dev m
    rw [hn fuel (by omega), hn' fuel (by omega), heq]

end

/-- The text `a`. -/
theorem oneChar_same_iff :
    ∃ W W', Prints promptFormat 0 [.str (some [97, 0])] W ∧ Prints oneChar 0 [] W' ∧
      ((W = W' ∧ ∃ n, ∀ fuel, n ≤ fuel → ∀ (dev : Device) (m : Out),
          cprintf dev fuel promptFormat [.str (some [97, 0])] m = cprintf dev fuel oneChar [] m) ↔
        (∀ b ∈ oneChar.bytes, b < 0x80) ∧ CounterFits 1) :=
  text_same_iff (by decide : ascii '%' ∉ oneChar.bytes) []

/-! ## A byte above 0x7F -/

variable {t : Tape} {m : Out}

/-- One character, on all devices. -/
theorem Shows.cputchar (h : Shows t m) (hlt : m.crtPos.toNat < crtSize) (dev : Device)
    (c : BitVec 32) : Refines t m (t.putc c) (cputchar dev c m) := by
  have hsame := sameDisplay_ports dev c m
  rw [Console.cputchar, consPutc]
  exact hsame.refines ((h.sameDisplay hsame).cgaPutc dev (by rw [hsame.pos]; exact hlt) c)

/-- The first cell of a blank screen after one character. -/
theorem crtBuf_cputchar (dev : Device) (c : BitVec 32) :
    (cputchar dev c blankScreen).crtBuf 0 =
      ((Tape.ofScreen blankScreen).putc c).cells
        (crtCols * ((Tape.ofScreen blankScreen).putc c).top) :=
  ((shows_ofScreen blankScreen).cputchar (by decide) dev c).shows.window 0 (by decide)

/-- The text of the one byte 0x80. -/
def highByte : CString := ⟨[0x80], by decide⟩

/-- As a format the byte is written with the default attribute, and as an argument with
the attribute 0xFF. -/
theorem highByte_not_same :
    (¬ ∃ W, Prints promptFormat 0 [.str (some [0x80, 0])] W ∧ Prints highByte 0 [] W) ∧
      cprintf deadDevice 2 promptFormat [.str (some [0x80, 0])] blankScreen =
        .ok (0, cputchar deadDevice 0xFFFFFF80 blankScreen) ∧
      cprintf deadDevice 2 highByte [] blankScreen =
        .ok (0, cputchar deadDevice 0x80 blankScreen) ∧
      (cputchar deadDevice 0xFFFFFF80 blankScreen).crtBuf 0 = 0xFF80 ∧
      (cputchar deadDevice 0x80 blankScreen).crtBuf 0 = 0x0780 := by
  have harg := prints_argument highByte []
  have hfmt : Prints highByte 0 [] [0x80] := prints_format (by decide)
  have hWarg : vprintfmt record 2 promptFormat 0 [.str (some [0x80, 0])] [] = .ok [0xFFFFFF80] := by
    decide +kernel
  have hWfmt : vprintfmt record 2 highByte 0 [] [] = .ok [0x80] := by decide +kernel
  refine ⟨?_, ?_, ?_, ?_, ?_⟩
  · rintro ⟨W, hW, hW'⟩
    have heq := (harg.unique hW).trans (hW'.unique hfmt)
    exact absurd heq (by decide)
  · rw [cprintf, vcprintf_eq hWarg]
    rfl
  · rw [cprintf, vcprintf_eq hWfmt]
    rfl
  · rw [crtBuf_cputchar]
    decide
  · rw [crtBuf_cputchar]
    decide

end JosKernel.Console
