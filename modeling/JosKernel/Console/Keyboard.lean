import JosKernel.Lib.Bytes
import JosKernel.Lib.Latch
import Mathlib.Algebra.Ring.Nat

/-!
# The keyboard

`kbd_proc_data` takes one byte from the keyboard controller and makes a character of
it, or 0, or remembers what it says about the modifier keys.

## The model

* The state is the static variable `shift`.
* The data port holds a byte, or there is none.
* That Ctrl-Alt-Del prints a message and resets the machine is a flag of the result.
-/

namespace JosKernel.Console

/-! ## The tables -/

namespace Kbd

/-- `SHIFT`. -/
def shift : Byte := 1 <<< 0

/-- `CTL`. -/
def ctl : Byte := 1 <<< 1

/-- `ALT`. -/
def alt : Byte := 1 <<< 2

/-- `CAPSLOCK`. -/
def capsLock : Byte := 1 <<< 3

/-- `NUMLOCK`. -/
def numLock : Byte := 1 <<< 4

/-- `SCROLLLOCK`. -/
def scrollLock : Byte := 1 <<< 5

/-- `E0ESC`. -/
def e0Esc : Byte := 1 <<< 6

/-- `KEY_HOME`. -/
def keyHome : Byte := 0xE0

/-- `KEY_END`. -/
def keyEnd : Byte := 0xE1

/-- `KEY_UP`. -/
def keyUp : Byte := 0xE2

/-- `KEY_DN`. -/
def keyDn : Byte := 0xE3

/-- `KEY_LF`. -/
def keyLf : Byte := 0xE4

/-- `KEY_RT`. -/
def keyRt : Byte := 0xE5

/-- `KEY_PGUP`. -/
def keyPgup : Byte := 0xE6

/-- `KEY_PGDN`. -/
def keyPgdn : Byte := 0xE7

/-- `KEY_INS`. -/
def keyIns : Byte := 0xE8

/-- `KEY_DEL`. -/
def keyDel : Byte := 0xE9

end Kbd

/-- A table of 256 bytes: its first rows, and entries behind them.  All others are 0. -/
def keyTable (rows : List Byte) (entries : List (Byte × Byte)) (b : Byte) : Byte :=
  (entries.lookup b).getD ((rows[b.toNat]?).getD 0)

/-- `shiftcode`. -/
def shiftcode : Byte → Byte :=
  keyTable []
    [(0x1D, Kbd.ctl), (0x2A, Kbd.shift), (0x36, Kbd.shift), (0x38, Kbd.alt), (0x9D, Kbd.ctl),
      (0xB8, Kbd.alt)]

/-- `togglecode`. -/
def togglecode : Byte → Byte :=
  keyTable [] [(0x3A, Kbd.capsLock), (0x45, Kbd.numLock), (0x46, Kbd.scrollLock)]

/-- The entries of `normalmap` and `shiftmap` for the keys with an `0xE0`. -/
def extendedKeys : List (Byte × Byte) :=
  [(0xC7, Kbd.keyHome), (0x9C, 0x0A), (0xB5, ascii '/'), (0xC8, Kbd.keyUp), (0xC9, Kbd.keyPgup),
    (0xCB, Kbd.keyLf), (0xCD, Kbd.keyRt), (0xCF, Kbd.keyEnd), (0xD0, Kbd.keyDn),
    (0xD1, Kbd.keyPgdn), (0xD2, Kbd.keyIns), (0xD3, Kbd.keyDel)]

/-- The numeric keypad, from `0x40` on. -/
def keypad : List Byte := List.replicate 7 0 ++ asciis "789-456+1230.".toList

/-- `normalmap`. -/
def normalmap : Byte → Byte :=
  keyTable
    ([0, 0x1B] ++ asciis "1234567890-=".toList ++ [0x08, 0x09] ++
      asciis "qwertyuiop[]".toList ++ [0x0A, 0] ++ asciis "asdfghjkl;'`".toList ++ [0] ++
      asciis "\\zxcvbnm,./".toList ++ [0] ++ asciis "*".toList ++ [0] ++ asciis " ".toList ++
      List.replicate 6 0 ++ keypad)
    extendedKeys

/-- `shiftmap`. -/
def shiftmap : Byte → Byte :=
  keyTable
    ([0, 0x1B] ++ asciis "!@#$%^&*()_+".toList ++ [0x08, 0x09] ++
      asciis "QWERTYUIOP\x7b\x7d".toList ++ [0x0A, 0] ++ asciis "ASDFGHJKL:".toList ++
      [0x22, ascii '~', 0] ++ asciis "|ZXCVBNM<>?".toList ++ [0] ++ asciis "*".toList ++ [0] ++
      asciis " ".toList ++ List.replicate 6 0 ++ keypad)
    extendedKeys

/-- `C(x)`. -/
def control (x : Byte) : Byte := x - ascii '@'

/-- `ctlmap`. -/
def ctlmap : Byte → Byte :=
  keyTable
    (List.replicate 16 0 ++ (asciis "QWERTYUIOP".toList).map control ++ [0, 0, 0x0D, 0] ++
      (asciis "ASDFGHJKL".toList).map control ++ [0, 0, 0, 0] ++
      (asciis "\\ZXCVBNM".toList).map control ++ [0, 0, control (ascii '/'), 0, 0])
    [(0x97, Kbd.keyHome), (0xB5, control (ascii '/')), (0xC8, Kbd.keyUp), (0xC9, Kbd.keyPgup),
      (0xCB, Kbd.keyLf), (0xCD, Kbd.keyRt), (0xCF, Kbd.keyEnd), (0xD0, Kbd.keyDn),
      (0xD1, Kbd.keyPgdn), (0xD2, Kbd.keyIns), (0xD3, Kbd.keyDel)]

/-- `charcode[i]`, for `i < 4`. -/
def charcode (i : BitVec 32) : Byte → Byte :=
  if i = 0 then normalmap else if i = 1 then shiftmap else ctlmap

example : normalmap 0x35 = ascii '/' ∧ normalmap 0x39 = ascii ' ' ∧ normalmap 0x53 = ascii '.' ∧
    shiftmap 0x28 = 0x22 ∧ shiftmap 0x35 = ascii '?' ∧ ctlmap 0x1C = 0x0D ∧
    ctlmap 0x2B = 0x1C ∧ ctlmap 0x35 = 0xEF := by decide

/-! ## The code -/

/-- `shift & bits`. -/
def Kbd.has (shift : BitVec 32) (bits : Byte) : Bool := shift &&& bits.setWidth 32 ≠ 0

/-- What `kbd_proc_data` returns, the variable `shift` after it, and whether it has
reset the machine. -/
structure KbdResult where
  c : Int
  shift : BitVec 32
  reboot : Bool

/-- The end of `kbd_proc_data`, for a key that has been pressed. -/
def kbdPress (shift : BitVec 32) (data : Byte) : KbdResult :=
  let shift := shift ||| (shiftcode data).setWidth 32
  let shift := shift ^^^ (togglecode data).setWidth 32
  let c : Int := (charcode (shift &&& (Kbd.ctl ||| Kbd.shift).setWidth 32) data).toNat
  let c :=
    if Kbd.has shift Kbd.capsLock then
      if 0x61 ≤ c ∧ c ≤ 0x7A then c + (0x41 - 0x61)
      else if 0x41 ≤ c ∧ c ≤ 0x5A then c + (0x61 - 0x41)
      else c
    else c
  { c, shift, reboot := !Kbd.has (~~~shift) (Kbd.ctl ||| Kbd.alt) ∧ c = Kbd.keyDel.toNat }

/-- `kbd_proc_data()`, with the byte in the data port, if there is one. -/
def kbdProcData (shift : BitVec 32) : Option Byte → KbdResult
  | none => { c := -1, shift, reboot := false }
  | some data =>
      if data = 0xE0 then
        -- E0 escape character
        { c := 0, shift := shift ||| Kbd.e0Esc.setWidth 32, reboot := false }
      else if data &&& 0x80 ≠ 0 then
        -- key released
        let data := if Kbd.has shift Kbd.e0Esc then data else data &&& 0x7F
        { c := 0
          shift := shift &&& ~~~((shiftcode data ||| Kbd.e0Esc).setWidth 32)
          reboot := false }
      else if Kbd.has shift Kbd.e0Esc then
        -- last character was an E0 escape
        kbdPress (shift &&& ~~~(Kbd.e0Esc.setWidth 32)) (data ||| 0x80)
      else kbdPress shift data

/-- The variable `shift` after a sequence of bytes. -/
def kbdBytes (shift : BitVec 32) (data : List Byte) : BitVec 32 :=
  data.foldl (fun shift b ↦ (kbdProcData shift (some b)).shift) shift

/-! ## Keys -/

/-- A key of the keyboard: its make code, and whether an `0xE0` comes before it.  The
break codes of the make codes `0x60` and `0x61` would be prefixes. -/
structure Key where
  e0 : Bool
  make : Byte
  make_lt : make < 0x80
  make_ne : make ≠ 0x60 ∧ make ≠ 0x61
deriving DecidableEq

/-- The bytes that the keyboard sends for an event. -/
def keyBytes : KeyEvent Key → List Byte
  | .press k => (if k.e0 then [0xE0] else []) ++ [k.make]
  | .release k => (if k.e0 then [0xE0] else []) ++ [k.make ||| 0x80]

/-- The index of a key in the tables. -/
def Key.index (k : Key) : Byte := if k.e0 then k.make ||| 0x80 else k.make

/-- The modifiers that are tracked. -/
inductive Modifier where
  | shift
  | ctl
  | alt
deriving DecidableEq, Repr

/-- The bit of a modifier in `shift`. -/
def Modifier.bit : Modifier → Byte
  | .shift => Kbd.shift
  | .ctl => Kbd.ctl
  | .alt => Kbd.alt

/-- The keys of a modifier: two shift keys, and a left and a right key of the others. -/
def Modifier.IsKey : Modifier → Key → Prop
  | .shift, k => k.e0 = false ∧ (k.make = 0x2A ∨ k.make = 0x36)
  | .ctl, k => k.make = 0x1D
  | .alt, k => k.make = 0x38

instance (m : Modifier) : DecidablePred m.IsKey := fun _ ↦
  match m with
  | .shift => inferInstanceAs (Decidable (_ ∧ _))
  | .ctl => inferInstanceAs (Decidable (_ = _))
  | .alt => inferInstanceAs (Decidable (_ = _))

/-! ## One bit of `shift` -/

/-- The number of the bit. -/
def Modifier.bitIndex : Modifier → Nat
  | .shift => 0
  | .ctl => 1
  | .alt => 2

theorem has_of_twoPow {bits : Byte} {i : Nat} (hi : i < 32)
    (h : bits.setWidth 32 = BitVec.twoPow 32 i) (s : BitVec 32) :
    Kbd.has s bits = s.getLsbD i := by
  have hne : BitVec.twoPow 32 i ≠ 0 := by
    intro hzero
    have hbit := congrArg (BitVec.getLsbD · i) hzero
    simp [hi] at hbit
  rw [Kbd.has, h, BitVec.and_twoPow]
  by_cases hs : s.getLsbD i
  · simpa [hs] using hne
  · simp [hs]

theorem has_e0Esc (s : BitVec 32) : Kbd.has s Kbd.e0Esc = s.getLsbD 6 :=
  has_of_twoPow (by decide) (by decide) s

theorem has_bit (m : Modifier) (s : BitVec 32) : Kbd.has s m.bit = s.getLsbD m.bitIndex := by
  cases m <;> exact has_of_twoPow (by decide) (by decide) s

/-- The bits that matter: those of the modifiers, and `E0ESC`. -/
def Watched (i : Nat) : Prop := i = 6 ∨ ∃ m : Modifier, i = m.bitIndex

theorem Watched.lt {i : Nat} (h : Watched i) : i < 8 := by
  rcases h with rfl | ⟨m, rfl⟩
  · decide
  · cases m <;> decide

/-- Toggling the locks leaves them alone. -/
theorem togglecode_getLsbD {i : Nat} (h : Watched i) (data : Byte) :
    (togglecode data).getLsbD i = false := by
  rcases h with rfl | ⟨m, rfl⟩
  · revert data
    decide
  · cases m <;> revert data <;> decide

/-- What a key that is pressed does to them. -/
theorem kbdPress_getLsbD {i : Nat} (h : Watched i) (s : BitVec 32) (data : Byte) :
    (kbdPress s data).shift.getLsbD i = (s.getLsbD i || (shiftcode data).getLsbD i) := by
  have := h.lt
  simp only [kbdPress, BitVec.getLsbD_xor, BitVec.getLsbD_or, BitVec.getLsbD_setWidth,
    togglecode_getLsbD h, Bool.and_false, Bool.xor_false]
  simp [show i < 32 by omega]

/-- The table of the modifiers. -/
theorem shiftcode_index (m : Modifier) (k : Key) :
    (shiftcode k.index).getLsbD m.bitIndex = decide (m.IsKey k) := by
  obtain ⟨e0, make, hlt, hne⟩ := k
  revert e0 make
  cases m <;> decide

theorem shiftcode_e0Esc (data : Byte) : (shiftcode data).getLsbD 6 = false := by
  revert data
  decide

/-! ## One event -/

theorem Key.make_bytes (k : Key) :
    k.make ≠ 0xE0 ∧ k.make &&& 0x80 = 0 ∧ (k.make ||| 0x80) ≠ 0xE0 ∧
      (k.make ||| 0x80) &&& 0x80 ≠ 0 ∧ (k.make ||| 0x80) &&& 0x7F = k.make := by
  obtain ⟨e0, make, hlt, hne⟩ := k
  dsimp only
  revert make
  decide

theorem e0Esc_getLsbD {i : Nat} (h : Watched i) :
    (Kbd.e0Esc.setWidth 32).getLsbD i = decide (i = 6) := by
  rcases h with rfl | ⟨m, rfl⟩
  · rfl
  · cases m <;> rfl

/-- The byte `0xE0` sets `E0ESC` and leaves the modifiers alone. -/
theorem kbdProcData_e0 {i : Nat} (h : Watched i) (s : BitVec 32) :
    (kbdProcData s (some 0xE0)).shift.getLsbD i = (s.getLsbD i || decide (i = 6)) := by
  rw [kbdProcData, if_pos rfl, BitVec.getLsbD_or, e0Esc_getLsbD h]

/-- The make code of a key, with `E0ESC` as the prefix has left it. -/
theorem kbdProcData_make {i : Nat} (h : Watched i) {s : BitVec 32} {k : Key}
    (hs : s.getLsbD 6 = k.e0) :
    (kbdProcData s (some k.make)).shift.getLsbD i =
      (s.getLsbD i && !decide (i = 6) || (shiftcode k.index).getLsbD i) := by
  obtain ⟨hE0, hpress, -⟩ := k.make_bytes
  have := h.lt
  rw [kbdProcData, if_neg hE0, if_neg (not_not.mpr hpress), has_e0Esc, hs, Key.index]
  cases he : k.e0 with
  | true =>
      simp only [if_true, kbdPress_getLsbD h, BitVec.getLsbD_and, BitVec.getLsbD_not,
        e0Esc_getLsbD h, show i < 32 by omega, decide_true, Bool.true_and]
  | false =>
      have h6 : (s.getLsbD i && !decide (i = 6)) = s.getLsbD i := by
        by_cases hi : i = 6
        · rw [hi, hs, he]
          rfl
        · simp [hi]
      simp only [Bool.false_eq_true, if_false, kbdPress_getLsbD h, h6]

/-- The break code of a key. -/
theorem kbdProcData_break {i : Nat} (h : Watched i) {s : BitVec 32} {k : Key}
    (hs : s.getLsbD 6 = k.e0) :
    (kbdProcData s (some (k.make ||| 0x80))).shift.getLsbD i =
      (s.getLsbD i && !((shiftcode k.index).getLsbD i || decide (i = 6))) := by
  obtain ⟨-, -, hE0, hbreak, hmake⟩ := k.make_bytes
  have := h.lt
  have hindex : (if k.e0 then k.make ||| 0x80 else (k.make ||| 0x80) &&& 0x7F) = k.index := by
    rw [hmake, Key.index]
  have hesc := e0Esc_getLsbD h
  rw [BitVec.getLsbD_setWidth, decide_eq_true (by omega), Bool.true_and] at hesc
  rw [kbdProcData, if_neg hE0, if_pos hbreak, has_e0Esc, hs]
  simp only [hindex, BitVec.getLsbD_and, BitVec.getLsbD_not, BitVec.getLsbD_setWidth,
    BitVec.getLsbD_or, hesc, show i < 32 by omega, decide_true, Bool.true_and]

theorem kbdBytes_append (s : BitVec 32) (data data' : List Byte) :
    kbdBytes s (data ++ data') = kbdBytes (kbdBytes s data) data' := List.foldl_append

theorem Modifier.bitIndex_ne (m : Modifier) : m.bitIndex ≠ 6 := by
  cases m <;> decide

theorem Modifier.watched (m : Modifier) : Watched m.bitIndex := .inr ⟨m, rfl⟩

/-- The prefix of a key. -/
theorem kbdBytes_e0 {s : BitVec 32} (hs : s.getLsbD 6 = false) (k : Key) :
    (kbdBytes s (if k.e0 then [0xE0] else [])).getLsbD 6 = k.e0 ∧
      ∀ m : Modifier, (kbdBytes s (if k.e0 then [0xE0] else [])).getLsbD m.bitIndex =
        s.getLsbD m.bitIndex := by
  cases k.e0 with
  | true =>
      refine ⟨(kbdProcData_e0 (.inl rfl) s).trans (Bool.or_true _), fun m ↦ ?_⟩
      refine (kbdProcData_e0 m.watched s).trans ?_
      rw [decide_eq_false m.bitIndex_ne, Bool.or_false]
  | false => exact ⟨hs, fun m ↦ rfl⟩

/-- **One event.**  `E0ESC` is clear again, and the bit of each modifier is the latch that
watches its keys. -/
theorem kbdBytes_event {s : BitVec 32} (hs : s.getLsbD 6 = false) (ev : KeyEvent Key) :
    (kbdBytes s (keyBytes ev)).getLsbD 6 = false ∧
      ∀ m : Modifier, (kbdBytes s (keyBytes ev)).getLsbD m.bitIndex =
        latchStep m.IsKey (s.getLsbD m.bitIndex) ev := by
  have hesc : Watched 6 := .inl rfl
  cases ev with
  | press k =>
      obtain ⟨he0, hbits⟩ := kbdBytes_e0 hs k
      rw [keyBytes, kbdBytes_append]
      refine ⟨(kbdProcData_make hesc he0).trans ?_,
        fun m ↦ (kbdProcData_make m.watched he0).trans ?_⟩
      · rw [shiftcode_e0Esc, decide_eq_true rfl, Bool.not_true, Bool.and_false, Bool.or_false]
      · rw [hbits, shiftcode_index, decide_eq_false m.bitIndex_ne, Bool.not_false, Bool.and_true]
        by_cases hk : m.IsKey k <;> simp [latchStep, hk]
  | release k =>
      obtain ⟨he0, hbits⟩ := kbdBytes_e0 hs k
      rw [keyBytes, kbdBytes_append]
      refine ⟨(kbdProcData_break hesc he0).trans ?_,
        fun m ↦ (kbdProcData_break m.watched he0).trans ?_⟩
      · rw [decide_eq_true rfl, Bool.or_true, Bool.not_true, Bool.and_false]
      · rw [hbits, shiftcode_index, decide_eq_false m.bitIndex_ne, Bool.or_false]
        by_cases hk : m.IsKey k <;> simp [latchStep, hk]

/-! ## Histories -/

/-- The variable `shift` after a history of events. -/
def kbdEvents (es : List (KeyEvent Key)) : BitVec 32 := kbdBytes 0 (es.flatMap keyBytes)

theorem kbdEvents_latch (es : List (KeyEvent Key)) :
    (kbdEvents es).getLsbD 6 = false ∧
      ∀ m : Modifier, (kbdEvents es).getLsbD m.bitIndex = latch m.IsKey es := by
  induction es using List.reverseRecOn with
  | nil =>
      refine ⟨rfl, fun m ↦ ?_⟩
      cases m <;> rfl
  | append_singleton es ev ih =>
      have hevent := kbdBytes_event ih.1 ev
      rw [kbdEvents, List.flatMap_append, kbdBytes_append, ← kbdEvents, List.flatMap_singleton]
      refine ⟨hevent.1, fun m ↦ ?_⟩
      rw [hevent.2, ih.2, latch_concat]

/-- **The modifiers.**  After any history of key events `E0ESC` is clear.  The bit of a
modifier is set exactly when one of its keys has been pressed and none of its keys has
been released since.  So it is set only while one of its keys is held, and where no two
of its keys are ever held at once, always then. -/
theorem kbd_modifiers {es : List (KeyEvent Key)} (hvalid : ValidKeys es) :
    Kbd.has (kbdEvents es) Kbd.e0Esc = false ∧
      ∀ m : Modifier,
        (Kbd.has (kbdEvents es) m.bit = true ↔
          ∃ pre k post, es = pre ++ .press k :: post ∧ m.IsKey k ∧
            ∀ k', m.IsKey k' → .release k' ∉ post) ∧
        (Kbd.has (kbdEvents es) m.bit = true → ∃ k, m.IsKey k ∧ held es k = true) ∧
        ((∀ pre, pre <+: es → ∀ k k', m.IsKey k → m.IsKey k' → held pre k = true →
            held pre k' = true → k = k') →
          (Kbd.has (kbdEvents es) m.bit = true ↔ ∃ k, m.IsKey k ∧ held es k = true)) := by
  obtain ⟨hesc, hbits⟩ := kbdEvents_latch es
  refine ⟨(has_e0Esc _).trans hesc, fun m ↦ ?_⟩
  rw [has_bit, hbits]
  refine ⟨latch_iff, exists_held_of_latch, fun hone ↦ ⟨exists_held_of_latch, ?_⟩⟩
  rintro ⟨k, hk, hheld⟩
  exact latch_of_held hvalid hone hk hheld

/-- The left shift key. -/
def leftShift : Key := { e0 := false, make := 0x2A, make_lt := by decide, make_ne := by decide }

/-- The right shift key. -/
def rightShift : Key := { e0 := false, make := 0x36, make_lt := by decide, make_ne := by decide }

/-- Both shift keys are pressed, and the right one is released. -/
def overlap : List (KeyEvent Key) := [.press leftShift, .press rightShift, .release rightShift]

theorem overlap_valid : ValidKeys overlap := by
  have h₁ : ValidKeys [.press leftShift] := validKeys_nil.concat (rfl : held [] leftShift = false)
  have h₂ : ValidKeys [.press leftShift, .press rightShift] :=
    h₁.concat (by decide : held [.press leftShift] rightShift = false)
  exact h₂.concat (by decide : held [.press leftShift, .press rightShift] rightShift = true)

theorem overlap_modifiers :
    Kbd.has (kbdEvents overlap) Kbd.shift = true ↔
      ∃ pre k post, overlap = pre ++ .press k :: post ∧ Modifier.shift.IsKey k ∧
        ∀ k', Modifier.shift.IsKey k' → .release k' ∉ post :=
  ((kbd_modifiers overlap_valid).2 .shift).1

/-- The left shift key is held, and `SHIFT` is clear. -/
theorem overlap_not_shift :
    ValidKeys overlap ∧ Modifier.shift.IsKey leftShift ∧ held overlap leftShift = true ∧
      Kbd.has (kbdEvents overlap) Kbd.shift = false :=
  ⟨overlap_valid, by decide, by decide, by decide⟩

end JosKernel.Console
