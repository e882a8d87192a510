import JosKernel.Console.Extended
import JosKernel.Console.Poll

/-!
# What is typed

`kbd_proc_data` works byte by byte on the bits of `shift`.  What it is for is a keyboard:
keys that are pressed and released, modifiers, and the characters that they type
(`typeStep`).  `kbd_types` says that the bytes of any history of keys are this keyboard, and
`letter_types` what it does with the letters: caps lock is the other shift.

## The model

* The modifiers are latches, as `kbd_modifiers` says; caps lock changes with each press.
* A press also says whether it has reset the machine.
-/

namespace JosKernel.Console

/-! ## The keyboard -/

/-- The modifiers that matter for the characters. -/
structure Mods where
  shift : Bool
  ctl : Bool
  alt : Bool
  caps : Bool
deriving DecidableEq, Repr

/-- The caps lock key. -/
def IsCapsKey (k : Key) : Prop := k.e0 = false ∧ k.make = 0x3A

instance : DecidablePred IsCapsKey := fun _ ↦ inferInstanceAs (Decidable (_ ∧ _))

/-- The caps lock key is pressed. -/
def isCapsPress : KeyEvent Key → Bool
  | .press k => decide (IsCapsKey k)
  | .release _ => false

namespace Mods

/-- No modifier. -/
def none : Mods := { shift := false, ctl := false, alt := false, caps := false }

/-- The modifiers after an event. -/
def next (m : Mods) (ev : KeyEvent Key) : Mods where
  shift := latchStep Modifier.shift.IsKey m.shift ev
  ctl := latchStep Modifier.ctl.IsKey m.ctl ev
  alt := latchStep Modifier.alt.IsKey m.alt ev
  caps := m.caps ^^ isCapsPress ev

/-- The map that the modifiers choose. -/
def map (m : Mods) : Byte → Byte :=
  if m.ctl then ctlmap else if m.shift then shiftmap else normalmap

end Mods

/-- A letter in the other case. -/
def swapCase (c : Byte) : Byte :=
  if 0x61 ≤ c ∧ c ≤ 0x7A then c - 0x20 else if 0x41 ≤ c ∧ c ≤ 0x5A then c + 0x20 else c

namespace Mods

/-- The character of a key: 0 is none. -/
def char (m : Mods) (k : Key) : Byte :=
  if m.caps then swapCase (m.map k.index) else m.map k.index

/-- The key resets the machine. -/
def Resets (m : Mods) (k : Key) : Prop := m.ctl = true ∧ m.alt = true ∧ k.e0 = true ∧ k.make = 0x53

instance (m : Mods) : DecidablePred m.Resets := fun _ ↦ inferInstanceAs (Decidable (_ ∧ _))

end Mods

/-- What an event types: the character, if there is one. -/
def typed (m : Mods) : KeyEvent Key → List Byte
  | .press k => nonzero [m.char k]
  | .release _ => []

/-- How often an event resets the machine. -/
def resets (m : Mods) : KeyEvent Key → Nat
  | .press k => if m.Resets k then 1 else 0
  | .release _ => 0

/-- One event: the modifiers after it, and what has been typed with them. -/
def typeStep (m : Mods) (ev : KeyEvent Key) : Mods × List Byte :=
  (m.next ev, typed (m.next ev) ev)

/-- One event, and whether it resets the machine. -/
def resetStep (m : Mods) (ev : KeyEvent Key) : Mods × List Nat :=
  (m.next ev, [resets (m.next ev) ev])

/-! ## The bits of `shift` -/

/-- The variable `shift` between two events. -/
structure Tracks (s : BitVec 32) (m : Mods) : Prop where
  esc : s.getLsbD 6 = false
  shift : s.getLsbD 0 = m.shift
  ctl : s.getLsbD 1 = m.ctl
  alt : s.getLsbD 2 = m.alt
  caps : s.getLsbD 3 = m.caps

theorem tracks_zero : Tracks 0 .none := ⟨rfl, rfl, rfl, rfl, rfl⟩

theorem shiftcode_caps (data : Byte) : (shiftcode data).getLsbD 3 = false := by
  revert data
  decide

theorem togglecode_caps (k : Key) : (togglecode k.index).getLsbD 3 = decide (IsCapsKey k) := by
  obtain ⟨e0, make, hlt, hne⟩ := k
  revert e0 make
  decide

theorem kbdPress_caps (s : BitVec 32) (data : Byte) :
    (kbdPress s data).shift.getLsbD 3 = (s.getLsbD 3 ^^ (togglecode data).getLsbD 3) := by
  simp only [kbdPress, BitVec.getLsbD_xor, BitVec.getLsbD_or, BitVec.getLsbD_setWidth,
    shiftcode_caps]
  simp

/-- `shift` when a key is looked up: the escape is gone. -/
def unescaped (s : BitVec 32) (k : Key) : BitVec 32 :=
  if k.e0 then s &&& ~~~(Kbd.e0Esc.setWidth 32) else s

theorem e0Esc_lower : ∀ i < 6, (Kbd.e0Esc.setWidth 32).getLsbD i = false := by decide

theorem unescaped_getLsbD {i : Nat} (hi : i < 6) (s : BitVec 32) (k : Key) :
    (unescaped s k).getLsbD i = s.getLsbD i := by
  rw [unescaped]
  split_ifs
  · rw [BitVec.getLsbD_and, BitVec.getLsbD_not, e0Esc_lower i hi,
      decide_eq_true (show i < 32 by omega)]
    simp
  · rfl

/-- The make code of a key. -/
theorem kbdProcData_press {s : BitVec 32} {k : Key} (hs : s.getLsbD 6 = k.e0) :
    kbdProcData s (some k.make) = kbdPress (unescaped s k) k.index := by
  obtain ⟨hE0, hpress, -⟩ := k.make_bytes
  rw [kbdProcData, if_neg hE0, if_neg (not_not.mpr hpress), has_e0Esc, hs, Key.index, unescaped]
  cases k.e0 <;> rfl

/-- The break code of a key. -/
theorem kbdProcData_release {s : BitVec 32} {k : Key} :
    (kbdProcData s (some (k.make ||| 0x80))).c = 0 ∧
      (kbdProcData s (some (k.make ||| 0x80))).reboot = false ∧
      (kbdProcData s (some (k.make ||| 0x80))).shift.getLsbD 3 = s.getLsbD 3 := by
  obtain ⟨-, -, hE0, hbreak, -⟩ := k.make_bytes
  simp only [kbdProcData, if_neg hE0, if_pos hbreak, true_and]
  generalize (if Kbd.has s Kbd.e0Esc then k.make ||| 0x80 else (k.make ||| 0x80) &&& 0x7F) = data
  rw [BitVec.getLsbD_and, BitVec.getLsbD_not, BitVec.getLsbD_setWidth, BitVec.getLsbD_or,
    shiftcode_caps, show Kbd.e0Esc.getLsbD 3 = false from rfl]
  exact Bool.and_true _

/-! ## One event -/

theorem kbdPress_shift_charcode (s : BitVec 32) (data : Byte) :
    charcode ((kbdPress s data).shift &&& (Kbd.ctl ||| Kbd.shift).setWidth 32) data =
      if (kbdPress s data).shift.getLsbD 1 then ctlmap data
      else if (kbdPress s data).shift.getLsbD 0 then shiftmap data else normalmap data := by
  generalize (kbdPress s data).shift = s'
  have h0 : s'.getLsbD 0 = decide (s'.toNat % 2 = 1) := by
    rw [BitVec.getLsbD, Nat.testBit_eq_decide_div_mod_eq, Nat.pow_zero, Nat.div_one]
  have h1 : s'.getLsbD 1 = decide (2 ≤ s'.toNat % 4) := by
    rw [← has_ctl, Bool.eq_iff_iff, has_ctl_iff, decide_eq_true_eq]
  rw [and_ctl_shift, h0, h1, charcode]
  generalize s'.toNat = n
  obtain h | h | h | h : n % 4 = 0 ∨ n % 4 = 1 ∨ n % 4 = 2 ∨ n % 4 = 3 := by omega
  all_goals
    have hodd : n % 2 = n % 4 % 2 := by omega
    rw [hodd, h]
    rfl

theorem swapCase_toNat (c : Byte) :
    (if 0x61 ≤ (c.toNat : Int) ∧ (c.toNat : Int) ≤ 0x7A then (c.toNat : Int) + (0x41 - 0x61)
      else if 0x41 ≤ (c.toNat : Int) ∧ (c.toNat : Int) ≤ 0x5A then (c.toNat : Int) + (0x61 - 0x41)
      else c.toNat) = (swapCase c).toNat := by
  unfold swapCase
  split_ifs <;> bv_omega

/-- The modifiers when a key is looked up, and the character. -/
theorem kbdPress_char {s : BitVec 32} {m : Mods} {k : Key}
    (h : Tracks (kbdPress s k.index).shift m) : (kbdPress s k.index).c = (m.char k).toNat := by
  have hcaps : Kbd.has (kbdPress s k.index).shift Kbd.capsLock = m.caps :=
    (has_of_twoPow (i := 3) (by decide) (by decide) _).trans h.caps
  have hmap := kbdPress_shift_charcode s k.index
  rw [h.ctl, h.shift] at hmap
  have hc : (kbdPress s k.index).c =
      let c := charcode ((kbdPress s k.index).shift &&& (Kbd.ctl ||| Kbd.shift).setWidth 32) k.index
      if Kbd.has (kbdPress s k.index).shift Kbd.capsLock then
        if 0x61 ≤ (c.toNat : Int) ∧ (c.toNat : Int) ≤ 0x7A then (c.toNat : Int) + (0x41 - 0x61)
        else if 0x41 ≤ (c.toNat : Int) ∧ (c.toNat : Int) ≤ 0x5A then (c.toNat : Int) + (0x61 - 0x41)
        else c.toNat
      else c.toNat := rfl
  have hmods : (if m.ctl then ctlmap k.index else if m.shift then shiftmap k.index
      else normalmap k.index) = m.map k.index := by
    cases hctl : m.ctl <;> cases hshift : m.shift <;> simp [Mods.map, hctl, hshift]
  rw [hc]
  dsimp only
  rw [hmap, hcaps, hmods, swapCase_toNat, Mods.char]
  cases m.caps <;> rfl

theorem kbdPress_ofInt {s : BitVec 32} {m : Mods} {k : Key}
    (h : Tracks (kbdPress s k.index).shift m) :
    BitVec.ofInt 8 (kbdPress s k.index).c = m.char k := by
  rw [kbdPress_char h, BitVec.ofInt_natCast, BitVec.ofNat_toNat, BitVec.setWidth_eq]

/-- `!(~shift & (CTL | ALT))`. -/
theorem has_ctl_alt (s : BitVec 32) :
    (!Kbd.has (~~~s) (Kbd.ctl ||| Kbd.alt)) = (s.getLsbD 1 && s.getLsbD 2) := by
  have hmask : (Kbd.ctl ||| Kbd.alt).setWidth 32 = BitVec.twoPow 32 1 ||| BitVec.twoPow 32 2 := by
    decide
  rw [Kbd.has, hmask, BitVec.and_or_distrib_left, BitVec.and_twoPow, BitVec.and_twoPow,
    BitVec.getLsbD_not, BitVec.getLsbD_not]
  cases s.getLsbD 1 <;> cases s.getLsbD 2 <;> decide

/-- A value that is not in the rows comes from an entry. -/
theorem keyTable_eq_iff {rows : List Byte} {entries : List (Byte × Byte)} {v : Byte}
    (hrows : v ∉ rows)
    (hv : v ≠ 0) (b : Byte) : keyTable rows entries b = v ↔ entries.lookup b = some v := by
  rw [keyTable]
  cases entries.lookup b with
  | some w => exact Option.some_inj.symm
  | none =>
      refine iff_of_false ?_ nofun
      rw [Option.getD_none]
      cases hrow : rows[b.toNat]? with
      | none => exact hv.symm
      | some w =>
          rintro rfl
          exact hrows (List.mem_of_getElem? hrow)

/-- The entry of the Del key in the maps. -/
theorem maps_del (b : Byte) : (normalmap b = Kbd.keyDel ↔ b = 0xD3) ∧
    (shiftmap b = Kbd.keyDel ↔ b = 0xD3) ∧ (ctlmap b = Kbd.keyDel ↔ b = 0xD3) := by
  have hne : Kbd.keyDel ≠ 0 := by decide
  refine ⟨(keyTable_eq_iff (by decide) hne b).trans ?_,
    (keyTable_eq_iff (by decide) hne b).trans ?_, (keyTable_eq_iff (by decide) hne b).trans ?_⟩
  all_goals
    revert b
    decide

theorem swapCase_del (c : Byte) : swapCase c = Kbd.keyDel ↔ c = Kbd.keyDel := by
  revert c
  decide

theorem Key.index_del (k : Key) : k.index = 0xD3 ↔ k.e0 = true ∧ k.make = 0x53 := by
  obtain ⟨e0, make, hlt, hne⟩ := k
  revert e0 make
  decide

/-- Only the Del key of the cursor block types `KEY_DEL`. -/
theorem char_del (m : Mods) (k : Key) : m.char k = Kbd.keyDel ↔ k.e0 = true ∧ k.make = 0x53 := by
  obtain ⟨hnormal, hshift, hctl⟩ := maps_del k.index
  have hmap : m.map k.index = Kbd.keyDel ↔ k.index = 0xD3 := by
    rw [Mods.map]
    split_ifs
    exacts [hctl, hshift, hnormal]
  rw [← Key.index_del, ← hmap, Mods.char]
  split_ifs
  · exact swapCase_del _
  · rfl

theorem kbdPress_reboot {s : BitVec 32} {m : Mods} {k : Key}
    (h : Tracks (kbdPress s k.index).shift m) :
    (kbdPress s k.index).reboot = decide (m.Resets k) := by
  have hreboot : (kbdPress s k.index).reboot =
      decide ((!Kbd.has (~~~(kbdPress s k.index).shift) (Kbd.ctl ||| Kbd.alt)) = true ∧
        (kbdPress s k.index).c = (Kbd.keyDel.toNat : Int)) := rfl
  have hdel : (kbdPress s k.index).c = (Kbd.keyDel.toNat : Int) ↔ m.char k = Kbd.keyDel := by
    rw [kbdPress_char h, Int.natCast_inj, BitVec.toNat_inj]
  rw [hreboot, decide_eq_decide, hdel, char_del, has_ctl_alt, h.ctl, h.alt, Bool.and_eq_true,
    and_assoc]
  rfl

/-- The prefix of a key. -/
theorem kbdBytes_prefix (s : BitVec 32) (k : Key) :
    (kbdBytes s (if k.e0 then [0xE0] else [])).getLsbD 3 = s.getLsbD 3 ∧
      nonzero (kbdChars s (if k.e0 then [0xE0] else [])) = [] ∧
      kbdResets s (if k.e0 then [0xE0] else []) = 0 := by
  cases k.e0 with
  | true =>
      refine ⟨?_, rfl, rfl⟩
      change (s ||| Kbd.e0Esc.setWidth 32).getLsbD 3 = s.getLsbD 3
      rw [BitVec.getLsbD_or, e0Esc_lower 3 (by decide), Bool.or_false]
  | false => exact ⟨rfl, rfl, rfl⟩

/-- Caps lock changes with each press of its key. -/
theorem kbdBytes_caps {s : BitVec 32} (hs : s.getLsbD 6 = false) (ev : KeyEvent Key) :
    (kbdBytes s (keyBytes ev)).getLsbD 3 = (s.getLsbD 3 ^^ isCapsPress ev) := by
  cases ev with
  | press k =>
      obtain ⟨he0, -⟩ := kbdBytes_e0 hs k
      obtain ⟨hcaps, -⟩ := kbdBytes_prefix s k
      rw [keyBytes, kbdBytes_append]
      change (kbdProcData _ (some k.make)).shift.getLsbD 3 = _
      rw [kbdProcData_press he0, kbdPress_caps, unescaped_getLsbD (by decide), hcaps,
        togglecode_caps]
      rfl
  | release k =>
      obtain ⟨hcaps, -⟩ := kbdBytes_prefix s k
      rw [keyBytes, kbdBytes_append]
      change (kbdProcData _ (some (k.make ||| 0x80))).shift.getLsbD 3 = _
      rw [kbdProcData_release.2.2, hcaps]
      exact (Bool.xor_false _).symm

theorem Tracks.next {s : BitVec 32} {m : Mods} (h : Tracks s m) (ev : KeyEvent Key) :
    Tracks (kbdBytes s (keyBytes ev)) (m.next ev) := by
  obtain ⟨hesc, hbits⟩ := kbdBytes_event h.esc ev
  exact
    { esc := hesc
      shift := (hbits .shift).trans (congrArg (latchStep _ · ev) h.shift)
      ctl := (hbits .ctl).trans (congrArg (latchStep _ · ev) h.ctl)
      alt := (hbits .alt).trans (congrArg (latchStep _ · ev) h.alt)
      caps := (kbdBytes_caps h.esc ev).trans (congrArg (· ^^ isCapsPress ev) h.caps) }

/-- **One event.**  What its bytes return, and whether they reset the machine. -/
theorem Tracks.event {s : BitVec 32} {m : Mods} (h : Tracks s m) (ev : KeyEvent Key) :
    nonzero (kbdChars s (keyBytes ev)) = typed (m.next ev) ev ∧
      kbdResets s (keyBytes ev) = resets (m.next ev) ev := by
  have hnext := h.next ev
  cases ev with
  | press k =>
      obtain ⟨he0, -⟩ := kbdBytes_e0 h.esc k
      obtain ⟨-, hchars, hresets⟩ := kbdBytes_prefix s k
      rw [keyBytes, kbdBytes_append] at hnext
      change Tracks (kbdProcData _ (some k.make)).shift _ at hnext
      rw [kbdProcData_press he0] at hnext
      rw [keyBytes, kbdChars_append, kbdResets_append, nonzero_append, hchars, hresets, kbdChars,
        kbdResets, kbdProcData_press he0, kbdPress_ofInt hnext, kbdPress_reboot hnext]
      simp only [kbdChars, kbdResets, List.nil_append, typed, resets, decide_eq_true_eq]
      exact ⟨trivial, Nat.zero_add _⟩
  | release k =>
      obtain ⟨-, hchars, hresets⟩ := kbdBytes_prefix s k
      rw [keyBytes, kbdChars_append, kbdResets_append, nonzero_append, hchars, hresets, kbdChars,
        kbdResets, kbdProcData_release.1, kbdProcData_release.2.1]
      exact ⟨rfl, rfl⟩

/-! ## Histories -/

/-- The bytes of a history are the keyboard. -/
theorem Tracks.run {s : BitVec 32} {m : Mods} (h : Tracks s m) (es : List (KeyEvent Key)) :
    Tracks (kbdBytes s (es.flatMap keyBytes)) (trace typeStep m es).1 ∧
      nonzero (kbdChars s (es.flatMap keyBytes)) = (trace typeStep m es).2 ∧
      kbdResets s (es.flatMap keyBytes) = (trace resetStep m es).2.sum := by
  induction es generalizing s m with
  | nil => exact ⟨h, rfl, rfl⟩
  | cons ev es ih =>
      obtain ⟨htracks, hchars, hresets⟩ := ih (h.next ev)
      obtain ⟨hchar, hreset⟩ := h.event ev
      rw [List.flatMap_cons, kbdBytes_append, kbdChars_append, kbdResets_append, nonzero_append,
        hchar, hreset, hchars, hresets, trace_cons, trace_cons, List.sum_append]
      exact ⟨htracks, rfl, by simp [resetStep]⟩

theorem trace_mods {ο : Type} {step : Mods → KeyEvent Key → Mods × List ο}
    (hstep : ∀ m ev, (step m ev).1 = m.next ev) (m : Mods) (es : List (KeyEvent Key)) :
    (trace step m es).1 = es.foldl Mods.next m := by
  induction es generalizing m with
  | nil => rfl
  | cons ev es ih => rw [trace_cons, List.foldl_cons, ih, hstep]

/-- Caps lock is on after an odd number of presses. -/
def capsOn (es : List (KeyEvent Key)) : Bool := decide (es.countP isCapsPress % 2 = 1)

/-- The modifiers after a history. -/
theorem foldl_next (es : List (KeyEvent Key)) : es.foldl Mods.next .none =
    { shift := latch Modifier.shift.IsKey es
      ctl := latch Modifier.ctl.IsKey es
      alt := latch Modifier.alt.IsKey es
      caps := capsOn es } := by
  induction es using List.reverseRecOn with
  | nil => rfl
  | append_singleton es ev ih =>
      have hcaps : (capsOn es ^^ isCapsPress ev) = capsOn (es ++ [ev]) := by
        rw [capsOn, capsOn, List.countP_append, List.countP_singleton]
        generalize es.countP isCapsPress = n
        cases isCapsPress ev with
        | false => simp
        | true =>
            rw [if_pos rfl, Bool.xor_true, ← decide_not, decide_eq_decide]
            omega
      rw [List.foldl_concat, ih, Mods.next]
      simp only [latch_concat, hcaps]

/-- **The keyboard types.**  For any history of keys, the characters that come of its bytes are
those that the keys type with the modifiers at that time, and the machine is reset as often as
the Del key is pressed with Ctrl and Alt. -/
theorem kbd_types (es : List (KeyEvent Key)) :
    nonzero (kbdChars 0 (es.flatMap keyBytes)) = (trace typeStep .none es).2 ∧
      kbdResets 0 (es.flatMap keyBytes) = (trace resetStep .none es).2.sum ∧
      (trace typeStep .none es).1 =
        { shift := latch Modifier.shift.IsKey es
          ctl := latch Modifier.ctl.IsKey es
          alt := latch Modifier.alt.IsKey es
          caps := capsOn es } := by
  obtain ⟨-, hchars, hresets⟩ := tracks_zero.run es
  exact ⟨hchars, hresets, (trace_mods (fun _ _ ↦ rfl) _ es).trans (foldl_next es)⟩

/-! ## Letters -/

/-- Some keys side by side, with their make codes. -/
def keyRow (first : Nat) (text : String) : List (Byte × Byte) :=
  ((asciis text.toList).zipIdx first).map fun p ↦ (BitVec.ofNat 8 p.2, p.1)

/-- The make codes of the letters. -/
def letters : List (Byte × Byte) :=
  keyRow 0x10 "qwertyuiop" ++ keyRow 0x1E "asdfghjkl" ++ keyRow 0x2C "zxcvbnm"

/-- The entries of the letters in the maps. -/
theorem maps_letter : ∀ ml ∈ letters, ∀ shift ctl alt caps : Bool,
    (let c := Mods.map { shift, ctl, alt, caps } ml.1
     if caps then swapCase c else c) =
      if ctl then ml.2 - 0x60 else if shift = caps then ml.2 else ml.2 - 0x20 :=
  List.all_iff_forall_prop.mp (by decide +kernel)

/-- The letters are neither modifiers nor caps lock. -/
theorem letter_not_modifier : ∀ ml ∈ letters,
    (ml.1 ≠ 0x2A ∧ ml.1 ≠ 0x36 ∧ ml.1 ≠ 0x1D ∧ ml.1 ≠ 0x38 ∧ ml.1 ≠ 0x3A) ∧
      ml.2 - 0x60 ≠ 0 ∧ ml.2 ≠ 0 ∧ ml.2 - 0x20 ≠ 0 :=
  List.all_iff_forall_prop.mp (by decide +kernel)

theorem next_letter {k : Key} {letter : Byte} (h : (k.make, letter) ∈ letters) (m : Mods) :
    m.next (.press k) = m := by
  obtain ⟨⟨h2A, h36, h1D, h38, h3A⟩, -⟩ := letter_not_modifier _ h
  have hshift : ¬ Modifier.shift.IsKey k := fun hk ↦ hk.2.elim h2A h36
  have hcaps : decide (IsCapsKey k) = false := decide_eq_false fun hk ↦ h3A hk.2
  have hctl : ¬ Modifier.ctl.IsKey k := h1D
  have halt : ¬ Modifier.alt.IsKey k := h38
  simp only [Mods.next, latchStep, if_neg hshift, if_neg hctl, if_neg halt, isCapsPress, hcaps,
    Bool.xor_false]

/-- **Letters.**  After any history, the key of a letter types its control character if a Ctrl
key has been pressed since one was released, and otherwise the letter, in upper case when
exactly one of shift and caps lock is on. -/
theorem letter_types (es : List (KeyEvent Key)) {k : Key} {letter : Byte} (he0 : k.e0 = false)
    (hk : (k.make, letter) ∈ letters) :
    nonzero (kbdChars (kbdEvents es) (keyBytes (.press k))) =
      [if latch Modifier.ctl.IsKey es then letter - 0x60
        else if latch Modifier.shift.IsKey es = capsOn es then letter else letter - 0x20] := by
  obtain ⟨htracks, -⟩ := tracks_zero.run es
  obtain ⟨hchar, -⟩ := htracks.event (.press k)
  rw [trace_mods (fun _ _ ↦ rfl), foldl_next, next_letter hk] at hchar
  have hindex : k.index = k.make := by rw [Key.index, he0, if_neg Bool.false_ne_true]
  rw [kbdEvents, hchar, typed, Mods.char, hindex]
  dsimp only
  rw [← maps_letter _ hk (latch Modifier.shift.IsKey es) (latch Modifier.ctl.IsKey es)
    (latch Modifier.alt.IsKey es) (capsOn es), nonzero_cons]
  · rfl
  · rw [maps_letter _ hk]
    obtain ⟨-, hcontrol, hlower, hupper⟩ := letter_not_modifier _ hk
    split_ifs
    exacts [hcontrol, hlower, hupper]

/-- Caps lock is pressed, and then the left shift key. -/
def capsShift : List (KeyEvent Key) :=
  [.press { e0 := false, make := 0x3A, make_lt := by decide, make_ne := by decide },
    .press leftShift]

/-- The key of the letter `a`. -/
def letterA : Key := { e0 := false, make := 0x1E, make_lt := by decide, make_ne := by decide }

theorem capsShift_types :
    nonzero (kbdChars (kbdEvents capsShift) (keyBytes (.press letterA))) =
      [if latch Modifier.ctl.IsKey capsShift then 0x61 - 0x60
        else if latch Modifier.shift.IsKey capsShift = capsOn capsShift then 0x61
        else 0x61 - 0x20] :=
  letter_types capsShift rfl (show (letterA.make, (0x61 : Byte)) ∈ letters by decide)

end JosKernel.Console
