import JosKernel.Console.Keyboard
import Mathlib.Data.Bool.AllAny

/-!
# Extended keys

The keys of the cursor block send an `0xE0` before their make code.  The three tables have
an entry for each of them, at the make code with 0x80 added, which is to make them
independent of the modifiers.  In `ctlmap` the entry of the Home key is at 0x97 instead of
0xC7 (`kbd_extended_iff`).
-/

namespace JosKernel.Console

/-- The make codes of the cursor block, and the keys. -/
def extendedMakes : List (Byte × Byte) :=
  [(0x47, Kbd.keyHome), (0x48, Kbd.keyUp), (0x49, Kbd.keyPgup), (0x4B, Kbd.keyLf),
    (0x4D, Kbd.keyRt), (0x4F, Kbd.keyEnd), (0x50, Kbd.keyDn), (0x51, Kbd.keyPgdn),
    (0x52, Kbd.keyIns), (0x53, Kbd.keyDel)]

variable {mk : Byte × Byte}

/-! ## The tables -/

/-- Only `ctlmap` lacks an entry, that of the Home key. -/
theorem charcode_extended : ∀ mk ∈ extendedMakes, ∀ i : Fin 4,
    charcode (BitVec.ofNat 32 i) (mk.1 ||| 0x80) =
      if mk.1 = 0x47 ∧ 2 ≤ i.val then 0 else mk.2 :=
  List.all_iff_forall_prop.mp (by decide +kernel)

/-- The keys are neither modifiers nor locks. -/
theorem not_modifier_of_extended : ∀ mk ∈ extendedMakes,
    shiftcode (mk.1 ||| 0x80) = 0 ∧ togglecode (mk.1 ||| 0x80) = 0 :=
  List.all_iff_forall_prop.mp (by decide)

theorem extended_bytes : ∀ mk ∈ extendedMakes,
    mk.1 ≠ 0xE0 ∧ mk.1 &&& 0x80 = 0 ∧ 0xE0 ≤ mk.2 :=
  List.all_iff_forall_prop.mp (by decide)

/-- The table is chosen by the two lowest bits. -/
theorem and_ctl_shift (s : BitVec 32) :
    s &&& (Kbd.ctl ||| Kbd.shift).setWidth 32 = BitVec.ofNat 32 (s.toNat % 4) := by
  have hmask : (Kbd.ctl ||| Kbd.shift).setWidth 32 = (3 : BitVec 32) := by decide
  refine BitVec.eq_of_toNat_eq ?_
  rw [hmask, BitVec.toNat_and, BitVec.toNat_ofNat, Nat.mod_eq_of_lt (by omega)]
  exact Nat.and_two_pow_sub_one_eq_mod s.toNat 2

theorem has_ctl (s : BitVec 32) : Kbd.has s Kbd.ctl = s.getLsbD 1 := has_bit .ctl s

theorem has_ctl_iff (s : BitVec 32) : Kbd.has s Kbd.ctl = true ↔ 2 ≤ s.toNat % 4 := by
  rw [has_ctl, BitVec.getLsbD, Nat.testBit_eq_decide_div_mod_eq, decide_eq_true_eq]
  omega

/-! ## The two bytes -/

/-- The key, with or without caps lock. -/
theorem kbdPress_extended (hmk : mk ∈ extendedMakes) (s : BitVec 32) :
    (kbdPress s (mk.1 ||| 0x80)).c =
      if mk.1 = 0x47 ∧ Kbd.has s Kbd.ctl = true then 0 else (mk.2.toNat : Int) := by
  obtain ⟨hshift, htoggle⟩ := not_modifier_of_extended mk hmk
  obtain ⟨-, -, hkey⟩ := extended_bytes mk hmk
  have hlt : s.toNat % 4 < 4 := by omega
  have hcode := charcode_extended mk hmk ⟨s.toNat % 4, hlt⟩
  have hzero : s ||| (0 : Byte).setWidth 32 = s := BitVec.or_zero
  have hzero' : s ^^^ (0 : Byte).setWidth 32 = s := BitVec.xor_zero
  simp only [kbdPress, hshift, htoggle, hzero, hzero', and_ctl_shift, hcode, has_ctl_iff]
  split_ifs with hctl <;> first | rfl | bv_omega

/-- The two bytes of a key. -/
theorem kbdProcData_extended (hmk : mk ∈ extendedMakes) (s : BitVec 32) :
    (kbdProcData s (some 0xE0)).c = 0 ∧
      (kbdProcData (kbdProcData s (some 0xE0)).shift (some mk.1)).c =
        if mk.1 = 0x47 ∧ Kbd.has s Kbd.ctl = true then 0 else (mk.2.toNat : Int) := by
  obtain ⟨hE0, hpress, -⟩ := extended_bytes mk hmk
  have hesc : Kbd.has (s ||| Kbd.e0Esc.setWidth 32) Kbd.e0Esc = true := by
    rw [has_e0Esc, BitVec.getLsbD_or, e0Esc_getLsbD (.inl rfl), decide_eq_true rfl, Bool.or_true]
  have hctl : Kbd.has ((s ||| Kbd.e0Esc.setWidth 32) &&& ~~~(Kbd.e0Esc.setWidth 32)) Kbd.ctl =
      Kbd.has s Kbd.ctl := by
    have hbit : (Kbd.e0Esc.setWidth 32).getLsbD 1 = false := e0Esc_getLsbD Modifier.ctl.watched
    rw [has_ctl, has_ctl, BitVec.getLsbD_and, BitVec.getLsbD_or, BitVec.getLsbD_not, hbit,
      Bool.or_false]
    exact Bool.and_true _
  refine ⟨by rw [kbdProcData, if_pos rfl], ?_⟩
  rw [kbdProcData, kbdProcData, if_neg hE0, if_neg (not_not.mpr hpress), if_pos rfl]
  dsimp only
  rw [if_pos hesc, kbdPress_extended hmk, hctl]

/-- **Extended keys.**  After any history of bytes, the two bytes of a key of the cursor
block return 0 and then the key, exactly when it is not the Home key or `CTL` is clear. -/
theorem kbd_extended_iff (data : List Byte) (hmk : mk ∈ extendedMakes) :
    (kbdProcData (kbdBytes 0 data) (some 0xE0)).c = 0 ∧
        (kbdProcData (kbdBytes 0 (data ++ [0xE0])) (some mk.1)).c = mk.2.toNat ↔
      mk.1 ≠ 0x47 ∨ Kbd.has (kbdBytes 0 data) Kbd.ctl = false := by
  obtain ⟨hfirst, hsecond⟩ := kbdProcData_extended hmk (kbdBytes 0 data)
  obtain ⟨-, -, hkey⟩ := extended_bytes mk hmk
  rw [kbdBytes_append]
  change _ ∧ (kbdProcData (kbdProcData (kbdBytes 0 data) (some 0xE0)).shift _).c = _ ↔ _
  rw [hsecond]
  split_ifs with hctl
  · refine iff_of_false ?_ ?_
    · rintro ⟨-, hzero⟩
      bv_omega
    · rintro (hne | hclear)
      · exact hne hctl.1
      · rw [hctl.2] at hclear
        cases hclear
  · refine iff_of_true ⟨hfirst, rfl⟩ ?_
    rw [← Bool.not_eq_true]
    exact not_and_or.mp hctl

theorem home_extended_iff :
    (kbdProcData (kbdBytes 0 [0x3A]) (some 0xE0)).c = 0 ∧
        (kbdProcData (kbdBytes 0 ([0x3A] ++ [0xE0])) (some 0x47)).c = (0xE0 : Byte).toNat ↔
      (0x47 : Byte) ≠ 0x47 ∨ Kbd.has (kbdBytes 0 [0x3A]) Kbd.ctl = false :=
  kbd_extended_iff [0x3A] (by decide : (0x47, Kbd.keyHome) ∈ extendedMakes)

/-- Home with a control key held returns 0 twice. -/
theorem home_ctl_not_key :
    (kbdProcData (kbdBytes 0 [0x1D]) (some 0xE0)).c = 0 ∧
      (kbdProcData (kbdBytes 0 ([0x1D] ++ [0xE0])) (some 0x47)).c = 0 ∧
      (0 : Int) ≠ Kbd.keyHome.toNat := by decide +kernel

end JosKernel.Console
