import JosKernel.Lib.StringOp

/-!
# `memset`

`lib/string.c` has `memset` twice.  The version with string instructions fills with double
words where it can.  The one in plain C counts down an `int`, to which a `size_t` of
`2 ^ 31` or more converts as a negative number: it then fills nothing (`memset_fill_iff`).

The decrement of the least `int` overflows.  It ends the loop like that of any other
negative `int`: the kernel is compiled without `-fwrapv`, so that the compiled loop tests
the sign of `m` and then counts down.
-/

namespace JosKernel.Strings

open StringRegs

/-! ## The code -/

/-- `c &= 0xFF; c = (c<<24)|(c<<16)|(c<<8)|c;` -/
def replicateByte (c : BitVec 32) : BitVec 32 :=
  let c := c &&& 0xFF
  c <<< 24 ||| c <<< 16 ||| c <<< 8 ||| c

/-- `memset(v, c, n)` with string instructions: the pointer it returns, and the
registers. -/
def Asm.memset (v c n : BitVec 32) (r : StringRegs) : BitVec 32 × StringRegs :=
  if n = 0 then (v, r)
  else if v.toInt.tmod 4 = 0 ∧ n % 4 = 0 then
    (v, rep stosl { r with edi := v, eax := replicateByte c, ecx := n / 4 }.cld)
  else (v, rep stosb { r with edi := v, eax := c, ecx := n }.cld)

/-- The words from which an `int` counts down to at least 0. -/
theorem toInt_sub_one_nonneg_iff (m : BitVec 32) :
    0 ≤ m.toInt - 1 ↔ 0 < m.toNat ∧ m.toNat < 2 ^ 31 := by
  rw [BitVec.toInt_eq_toNat_cond]
  split_ifs <;> omega

/-- `while (--m >= 0) *p++ = c;` -/
def memsetLoop (c p m : BitVec 32) (mem : Mem) : Mem :=
  if _h : 0 ≤ m.toInt - 1 then memsetLoop c (p + 1) (m - 1) (mem.store p (c.setWidth 8)) else mem
termination_by m.toNat
decreasing_by
  rw [toInt_sub_one_nonneg_iff] at _h
  bv_omega

/-- `memset(v, c, n)` in plain C. -/
def Plain.memset (v c n : BitVec 32) (mem : Mem) : BitVec 32 × Mem :=
  let p := v
  let m := n
  (v, memsetLoop c p m mem)

/-! ## The string instructions -/

variable {v c n : BitVec 32} {r : StringRegs}

/-- A double word of four equal bytes. -/
theorem leBytes_replicateByte (c : BitVec 32) :
    leBytes (replicateByte c) = List.replicate 4 (c.setWidth 8) := by
  have hbyte : ∀ b : Byte, leBytes (replicateByte (b.setWidth 32)) = List.replicate 4 b := by
    decide +kernel
  have hlow : c &&& 0xFF = (c.setWidth 8).setWidth 32 &&& 0xFF := by
    refine BitVec.eq_of_toNat_eq ?_
    rw [and_0xFF_toNat, and_0xFF_toNat, BitVec.setWidth_setWidth_of_le _ (by decide),
      BitVec.setWidth_eq]
  have hcode : replicateByte c = replicateByte ((c.setWidth 8).setWidth 32) := by
    simp only [replicateByte, hlow]
  rw [hcode, hbyte]

theorem Asm.memset_fill (v c n : BitVec 32) (r : StringRegs) :
    (Asm.memset v c n r).2.mem = r.mem.fill v n.toNat (c.setWidth 8) := by
  unfold Asm.memset
  split_ifs with hzero hword
  · rw [hzero]
    rfl
  · exact rep_stos (leBytes_replicateByte c) rfl (toNat_div_four hword.2) n.isLt
  · exact rep_stos rfl rfl (Nat.one_mul _).symm n.isLt

/-! ## The loop -/

theorem memsetLoop_of_lt {c p m : BitVec 32} (h : m.toNat < 2 ^ 31) (mem : Mem) :
    memsetLoop c p m mem = mem.fill p m.toNat (c.setWidth 8) := by
  rw [memsetLoop]
  split_ifs with hgo
  · rw [toInt_sub_one_nonneg_iff] at hgo
    have hpos : m.toNat = 1 + (m - 1).toNat := by bv_omega
    have hlt := m.isLt
    rw [hpos] at hlt
    rw [memsetLoop_of_lt (by omega), Mem.fill_store_first hlt, hpos]
  · rw [toInt_sub_one_nonneg_iff] at hgo
    have hzero : m.toNat = 0 := by omega
    rw [hzero, Mem.fill_zero]
termination_by m.toNat
decreasing_by bv_omega

theorem memsetLoop_of_le {c p m : BitVec 32} (h : 2 ^ 31 ≤ m.toNat) (mem : Mem) :
    memsetLoop c p m mem = mem := by
  have hneg : ¬ 0 ≤ m.toInt - 1 := by
    rw [toInt_sub_one_nonneg_iff]
    omega
  rw [memsetLoop, dif_neg hneg]

/-- **`memset`.**  Both versions set exactly the `n` bytes from `v` on to the lowest byte of
`c`, if and only if `n` is below `2 ^ 31` or these bytes are all set already. -/
theorem memset_fill_iff (v c n : BitVec 32) (r : StringRegs) :
    (Asm.memset v c n r).2.mem = r.mem.fill v n.toNat (c.setWidth 8) ∧
        (Plain.memset v c n r.mem).2 = r.mem.fill v n.toNat (c.setWidth 8) ↔
      n.toNat < 2 ^ 31 ∨ ∀ k < n.toNat, r.mem (v + BitVec.ofNat 32 k) = c.setWidth 8 := by
  have hasm := Asm.memset_fill v c n r
  rw [← Mem.fill_eq_self_iff (Nat.le_of_lt n.isLt)]
  constructor
  · rintro ⟨-, hplain⟩
    by_contra hno
    obtain ⟨hge, hne⟩ := not_or.mp hno
    exact hne (hplain.symm.trans (memsetLoop_of_le (not_lt.mp hge) r.mem))
  · rintro (hlt | hself)
    · exact ⟨hasm, memsetLoop_of_lt hlt r.mem⟩
    · refine ⟨hasm, ?_⟩
      by_cases hlt : n.toNat < 2 ^ 31
      · exact memsetLoop_of_lt hlt r.mem
      · exact (memsetLoop_of_le (not_lt.mp hlt) r.mem).trans hself.symm

/-- Registers with a memory of zeros. -/
def zeroRegs : StringRegs :=
  { mem := fun _ ↦ 0, edi := 0, esi := 0, ecx := 0, eax := 0, df := false }

/-- The first `2 ^ 31 + 1` bytes are to be set to 1.  The version in plain C sets none. -/
theorem zeroRegs_not_set :
    (Asm.memset 0 1 0x80000001 zeroRegs).2.mem 0 = 1 ∧
      (Plain.memset 0 1 0x80000001 zeroRegs.mem).2 = zeroRegs.mem ∧
      ¬ (Plain.memset 0 1 0x80000001 zeroRegs.mem).2 =
        zeroRegs.mem.fill 0 (0x80000001 : BitVec 32).toNat ((1 : BitVec 32).setWidth 8) := by
  have hplain : (Plain.memset 0 1 0x80000001 zeroRegs.mem).2 = zeroRegs.mem :=
    memsetLoop_of_le (by decide) zeroRegs.mem
  refine ⟨?_, hplain, ?_⟩
  · rw [Asm.memset_fill, Mem.fill_of_lt (by decide)]
    rfl
  · rw [hplain]
    intro h
    have hbyte := congrFun h 0
    rw [Mem.fill_of_lt (by decide)] at hbyte
    exact absurd hbyte (by decide)

end JosKernel.Strings
