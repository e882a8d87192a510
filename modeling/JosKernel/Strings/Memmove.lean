import JosKernel.Lib.StringOp

/-!
# `memmove`

`lib/string.c` has `memmove` twice: with string instructions, and as plain C.  Both copy
from the last byte on if the target starts within the source behind its first byte.  The
string instructions copy double words where everything is aligned.

For areas that do not wrap around the address space both are a copy that reads
everything before it writes anything, whatever the overlap (`memmove_move`).

## The model

* Pointers and `size_t` are 32-bit words.
* The version with string instructions works on the registers that these use, and the
  constraints of the `asm` statements load them.
-/

namespace JosKernel.Strings

open StringRegs

/-! ## The code -/

/-- `(int)s%4 == 0 && (int)d%4 == 0 && n%4 == 0`. -/
def wordwise (s d n : BitVec 32) : Bool := s.toInt.tmod 4 = 0 ∧ d.toInt.tmod 4 = 0 ∧ n % 4 = 0

/-- `memmove(dst, src, n)` with string instructions: the pointer it returns, and the
registers. -/
def Asm.memmove (dst src n : BitVec 32) (r : StringRegs) : BitVec 32 × StringRegs :=
  let s := src
  let d := dst
  if s < d ∧ d < s + n then
    let s := s + n
    let d := d + n
    let r :=
      if wordwise s d n then rep movsl { r with edi := d - 4, esi := s - 4, ecx := n / 4 }.std
      else rep movsb { r with edi := d - 1, esi := s - 1, ecx := n }.std
    -- some versions of GCC rely on DF being clear
    (dst, r.cld)
  else
    let r :=
      if wordwise s d n then rep movsl { r with edi := d, esi := s, ecx := n / 4 }.cld
      else rep movsb { r with edi := d, esi := s, ecx := n }.cld
    (dst, r)

/-- `while (n-- > 0) *--d = *--s;` -/
def copyDown (d s n : BitVec 32) (mem : Mem) : Mem :=
  if n = 0 then mem
  else copyDown (d - 1) (s - 1) (n - 1) (mem.store (d - 1) (mem (s - 1)))
termination_by n.toNat
decreasing_by bv_omega

/-- `while (n-- > 0) *d++ = *s++;` -/
def copyUp (d s n : BitVec 32) (mem : Mem) : Mem :=
  if n = 0 then mem else copyUp (d + 1) (s + 1) (n - 1) (mem.store d (mem s))
termination_by n.toNat
decreasing_by bv_omega

/-- `memmove(dst, src, n)` in plain C. -/
def Plain.memmove (dst src n : BitVec 32) (mem : Mem) : BitVec 32 × Mem :=
  let s := src
  let d := dst
  if s < d ∧ d < s + n then (dst, copyDown (d + n) (s + n) n mem)
  else (dst, copyUp d s n mem)

/-! ## The loops -/

theorem copyUp_eq {d s n : BitVec 32} (hsafe : Mem.ForwardSafe d s n.toNat) (mem : Mem) :
    copyUp d s n mem = mem.move d s n.toNat := by
  rw [copyUp]
  split_ifs with hzero
  · rw [hzero]
    rfl
  · have hpos : n.toNat = 1 + (n - 1).toNat := by bv_omega
    have hlt := n.isLt
    rw [hpos] at hsafe hlt
    have hrest : Mem.ForwardSafe (d + 1) (s + 1) (n - 1).toNat := hsafe.rest
    rw [copyUp_eq hrest, Mem.move_store_first hsafe hlt, hpos]
termination_by n.toNat
decreasing_by bv_omega

theorem copyDown_eq {d s n : BitVec 32} (hsafe : Mem.BackwardSafe d s n.toNat) (mem : Mem) :
    copyDown (d + n) (s + n) n mem = mem.move d s n.toNat := by
  rw [copyDown]
  split_ifs with hzero
  · rw [hzero]
    rfl
  · have hpos : n.toNat = (n - 1).toNat + 1 := by bv_omega
    have hlt := n.isLt
    rw [hpos] at hsafe hlt
    have hback : ∀ a : BitVec 32, a + n - 1 = a + (n - 1) := by
      intro a
      grind
    have hn : n - 1 = BitVec.ofNat 32 (n - 1).toNat := by
      rw [BitVec.ofNat_toNat, BitVec.setWidth_eq]
    rw [hback, hback, copyDown_eq hsafe.rest, hpos, ← Mem.move_store_last hsafe hlt, ← hn]
termination_by n.toNat
decreasing_by bv_omega

/-! ## The direction -/

variable {dst src n : BitVec 32}

theorem backwardSafe_of_lt (hdst : dst.toNat + n.toNat ≤ 2 ^ 32) (h : src < dst ∧ dst < src + n) :
    Mem.BackwardSafe dst src n.toNat := by
  have hlt := h.1
  have hdist : (dst - src).toNat = dst.toNat - src.toNat := by bv_omega
  unfold Mem.BackwardSafe
  omega

theorem forwardSafe_of_not_lt (hsrc : src.toNat + n.toNat ≤ 2 ^ 32)
    (hdst : dst.toNat + n.toNat ≤ 2 ^ 32) (h : ¬ (src < dst ∧ dst < src + n)) :
    Mem.ForwardSafe dst src n.toNat := by
  unfold Mem.ForwardSafe
  by_cases hlt : src < dst
  · have hge : ¬ dst < src + n := fun hin ↦ h ⟨hlt, hin⟩
    have hdist : (dst - src).toNat = dst.toNat - src.toNat := by bv_omega
    have hend : (src + n).toNat = src.toNat + n.toNat := by bv_omega
    bv_omega
  · have hle : dst.toNat ≤ src.toNat := by bv_omega
    rcases Nat.eq_or_lt_of_le hle with heq | hlt'
    · left
      bv_omega
    · right
      bv_omega

/-! ## The string instructions -/

variable {d s : BitVec 32} {r : StringRegs}

theorem mod_four_of_wordwise (h : wordwise s d n = true) : n % 4 = 0 := by
  unfold wordwise at h
  exact (of_decide_eq_true h).2.2

/-- **`memmove`.**  For any two areas that do not wrap around the address space, both
versions leave the target with the bytes that the source had and all other bytes as they
were, and the version with string instructions leaves the direction flag clear. -/
theorem memmove_move (r : StringRegs) (hsrc : src.toNat + n.toNat ≤ 2 ^ 32)
    (hdst : dst.toNat + n.toNat ≤ 2 ^ 32) :
    (Asm.memmove dst src n r).2.mem = r.mem.move dst src n.toNat ∧
      (Asm.memmove dst src n r).2.df = false ∧
      (Plain.memmove dst src n r.mem).2 = r.mem.move dst src n.toNat := by
  by_cases hdir : src < dst ∧ dst < src + n
  · have hsafe := backwardSafe_of_lt hdst hdir
    simp only [Asm.memmove, Plain.memmove, if_pos hdir]
    refine ⟨?_, rfl, copyDown_eq hsafe r.mem⟩
    have hn : n = BitVec.ofNat 32 n.toNat := by rw [BitVec.ofNat_toNat, BitVec.setWidth_eq]
    split_ifs with hword
    · have hfour := toNat_div_four (mod_four_of_wordwise hword)
      exact rep_movs_backward rfl hfour n.isLt (congrArg (dst + · - 4) hn)
        (congrArg (src + · - 4) hn) hsafe
    · exact rep_movs_backward rfl (Nat.one_mul _).symm n.isLt (congrArg (dst + · - 1) hn)
        (congrArg (src + · - 1) hn) hsafe
  · have hsafe := forwardSafe_of_not_lt hsrc hdst hdir
    simp only [Asm.memmove, Plain.memmove, if_neg hdir]
    refine ⟨?_, ?_, copyUp_eq hsafe r.mem⟩
    · split_ifs with hword
      · exact rep_movs_forward rfl (toNat_div_four (mod_four_of_wordwise hword)) n.isLt hsafe
      · exact rep_movs_forward rfl (Nat.one_mul _).symm n.isLt hsafe
    · split_ifs with hword
      · exact rep_movs_df 4 _
      · exact rep_movs_df 1 _

/-- Registers with each byte of memory set to its own address. -/
def countingRegs : StringRegs :=
  { mem := fun a ↦ a.setWidth 8, edi := 0, esi := 0, ecx := 0, eax := 0, df := true }

theorem countingRegs_move :
    (Asm.memmove 0x1002 0x1000 5 countingRegs).2.mem = countingRegs.mem.move 0x1002 0x1000 5 ∧
      (Asm.memmove 0x1002 0x1000 5 countingRegs).2.df = false ∧
      (Plain.memmove 0x1002 0x1000 5 countingRegs.mem).2 =
        countingRegs.mem.move 0x1002 0x1000 5 :=
  memmove_move countingRegs (by decide) (by decide)

end JosKernel.Strings
