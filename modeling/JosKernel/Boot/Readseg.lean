import JosKernel.Boot.Main
import JosKernel.Lib.Patch
import Mathlib.Tactic.IntervalCases

/-!
# What `readseg` does to memory

`readseg` copies whole sectors, so what it does is one patch of memory on a range of
sectors (`readseg_eq`).  The loop ends unless the last sector of the address space is
among them; there `pa` wraps and the loop never ends (`readsegLoop_never`).
-/

namespace JosKernel.Boot

variable {disk : Disk} {mem mem' : Mem} {fuel : Nat} {pa endPa count offset : BitVec 32}

/-! ## One sector -/

/-- The drive finds the sector number that was written to its ports. -/
theorem sectorPorts_number (h : offset.toNat < 2 ^ 28) :
    (sectorPorts offset).number.toNat = offset.toNat := by
  have hnum : (sectorPorts offset).number = offset.setWidth 28 := by
    apply BitVec.eq_of_getLsbD_eq
    intro i hi
    simp only [SectorPorts.number, sectorPorts, BitVec.getLsbD_append, BitVec.getLsbD_setWidth,
      BitVec.getLsbD_or, BitVec.getLsbD_ushiftRight]
    interval_cases i <;> simp
  rw [hnum, BitVec.toNat_setWidth, Nat.mod_eq_of_lt h]

/-- Rounding down to a sector boundary. -/
theorem roundDown_toNat (pa : BitVec 32) :
    (pa &&& ~~~BitVec.ofNat 32 (sectsize - 1)).toNat = sectsize * (pa.toNat / sectsize) := by
  have hshift : pa &&& ~~~BitVec.ofNat 32 (sectsize - 1) = pa >>> 9 <<< 9 := by
    apply BitVec.eq_of_getLsbD_eq
    intro i hi
    interval_cases i <;> simp [sectsize]
  rw [hshift, BitVec.toNat_shiftLeft, BitVec.toNat_ushiftRight, Nat.shiftLeft_eq,
    Nat.shiftRight_eq_div_pow]
  simp only [sectsize]
  omega

/-- The sectors of memory from the one of `pa` up to `endPa`, filled from the byte
`512 * offset` of the disk on. -/
def span (disk : Disk) (pa endPa offset : Nat) : Patch (BitVec 32) Byte where
  dom x := decide (pa / sectsize ≤ x.toNat / sectsize ∧ sectsize * (x.toNat / sectsize) < endPa)
  val x := disk (sectsize * offset + (x.toNat - sectsize * (pa / sectsize)))

theorem span_dom {pa endPa offset : Nat} {x : BitVec 32} :
    (span disk pa endPa offset).dom x = true ↔
      pa / sectsize ≤ x.toNat / sectsize ∧ sectsize * (x.toNat / sectsize) < endPa := by
  simp [span]

theorem span_of_le {pa endPa offset : Nat} (hpa : pa % sectsize = 0) (h : endPa ≤ pa) :
    (span disk pa endPa offset).apply mem = mem := by
  funext x
  refine Patch.apply_of_not_dom (Bool.eq_false_iff.mpr fun hdom ↦ ?_)
  rw [span_dom] at hdom
  simp only [sectsize] at hpa hdom
  omega

/-- A sector, and then the sectors after it. -/
theorem span_readsect {endPa : Nat} (hpa : pa.toNat % sectsize = 0)
    (hlt : pa.toNat < endPa) (hoff : offset.toNat < 2 ^ 28) :
    (span disk (pa.toNat + sectsize) endPa (offset.toNat + 1)).apply (readsect disk mem pa offset) =
      (span disk pa.toNat endPa offset.toNat).apply mem := by
  funext x
  simp only [Patch.apply, span_dom, readsect, sectorPorts_number hoff]
  have hsub : (x - pa).toNat < sectsize ↔ x.toNat / sectsize = pa.toNat / sectsize := by
    simp only [sectsize] at hpa ⊢
    rw [BitVec.toNat_sub]
    omega
  by_cases hx : x.toNat / sectsize = pa.toNat / sectsize
  · have hmul : sectsize * (x.toNat / sectsize) < endPa := by
      simp only [sectsize] at hpa hx ⊢
      omega
    have hval : (x - pa).toNat = x.toNat - sectsize * (pa.toNat / sectsize) := by
      simp only [sectsize] at hpa hx ⊢
      rw [BitVec.toNat_sub]
      omega
    have hnot : ¬ (pa.toNat + sectsize) / sectsize ≤ x.toNat / sectsize := by
      rw [hx, Nat.add_div_right _ (by decide)]
      omega
    rw [if_neg fun hdom ↦ hnot hdom.1, if_pos (hsub.mpr hx), if_pos ⟨hx.ge, hmul⟩, hval]
    simp only [span]
  · have hiff : (pa.toNat + sectsize) / sectsize ≤ x.toNat / sectsize ↔
        pa.toNat / sectsize ≤ x.toNat / sectsize := by
      rw [Nat.add_div_right _ (by decide)]
      omega
    simp only [hiff, hsub, hx, if_false]
    split_ifs with hdom
    · simp only [span, Nat.add_div_right _ (by decide : 0 < sectsize)]
      refine congrArg disk ?_
      simp only [sectsize] at hx hdom ⊢
      omega
    · rfl

/-! ## The loop -/

/-- From the last sector on the loop starts again at address 0. -/
theorem readsegLoop_never (hend : 2 ^ 32 - sectsize < endPa.toNat) (hpa : pa.toNat % sectsize = 0) :
    readsegLoop disk endPa fuel mem pa offset = none := by
  induction fuel generalizing mem pa offset with
  | zero => rfl
  | succ fuel ih =>
      have hlt : pa < endPa := by
        rw [BitVec.lt_def]
        simp only [sectsize] at hpa hend
        omega
      rw [readsegLoop, if_pos hlt]
      refine ih ?_
      rw [BitVec.toNat_add, BitVec.toNat_ofNat]
      simp only [sectsize] at hpa ⊢
      omega

/-- The loop moves `pa` to the next sector, without wrapping. -/
theorem next_toNat (hpa : pa.toNat % sectsize = 0) (hlt : pa < endPa)
    (hend : endPa.toNat ≤ 2 ^ 32 - sectsize) :
    (pa + BitVec.ofNat 32 sectsize).toNat = pa.toNat + sectsize := by
  rw [BitVec.lt_def] at hlt
  rw [BitVec.toNat_add, BitVec.toNat_ofNat]
  simp only [sectsize] at hpa hend ⊢
  omega

/-- A loop that ends has filled its sectors. -/
theorem readsegLoop_some (h : readsegLoop disk endPa fuel mem pa offset = some mem')
    (hpa : pa.toNat % sectsize = 0) (hoff : sectsize * offset.toNat ≤ 2 ^ 32 + pa.toNat) :
    mem' = (span disk pa.toNat endPa.toNat offset.toNat).apply mem := by
  have hend : endPa.toNat ≤ 2 ^ 32 - sectsize := by
    by_contra hlt
    rw [readsegLoop_never (by omega) hpa] at h
    cases h
  induction fuel generalizing mem pa offset with
  | zero => cases h
  | succ fuel ih =>
      rw [readsegLoop] at h
      split_ifs at h with hlt
      · have hnext := next_toNat hpa hlt hend
        rw [BitVec.lt_def] at hlt
        have hoff' : (offset + 1).toNat = offset.toNat + 1 := by
          simp only [sectsize] at hoff
          bv_omega
        have hih := ih h (by rw [hnext]; simpa using hpa)
          (by rw [hnext, hoff']; simp only [sectsize] at hoff ⊢; omega)
        rw [hih, hnext, hoff', span_readsect hpa hlt]
        simp only [sectsize] at hoff
        omega
      · cases h
        rw [BitVec.lt_def] at hlt
        rw [span_of_le hpa (by omega)]

/-- The loop ends when the last sector of the address space is not among its own. -/
theorem readsegLoop_total (hpa : pa.toNat % sectsize = 0)
    (hend : endPa.toNat ≤ 2 ^ 32 - sectsize) (hfuel : endPa.toNat ≤ pa.toNat + sectsize * fuel) :
    ∃ mem', readsegLoop disk endPa (fuel + 1) mem pa offset = some mem' := by
  induction fuel generalizing mem pa offset with
  | zero =>
      refine ⟨mem, ?_⟩
      rw [readsegLoop, if_neg]
      rw [BitVec.lt_def]
      omega
  | succ fuel ih =>
      rw [readsegLoop]
      split_ifs with hlt
      · have hnext := next_toNat hpa hlt hend
        refine ih (by rw [hnext]; simpa using hpa) ?_
        rw [hnext]
        simp only [sectsize] at hfuel ⊢
        omega
      · exact ⟨mem, rfl⟩

/-! ## `readseg` -/

/-- What `readseg(pa, count, offset)` loads. -/
def loads (disk : Disk) (pa count offset : BitVec 32) : Patch (BitVec 32) Byte :=
  span disk pa.toNat (pa.toNat + count.toNat) (offset.toNat / sectsize + 1)

section

variable (hwrap : pa.toNat + count.toNat < 2 ^ 32)

include hwrap

theorem endPa_toNat : (pa + count).toNat = pa.toNat + count.toNat := by
  rw [BitVec.toNat_add, Nat.mod_eq_of_lt hwrap]

omit hwrap in
theorem sector_toNat (offset : BitVec 32) :
    (offset / BitVec.ofNat 32 sectsize + 1).toNat = offset.toNat / sectsize + 1 := by
  have hdiv : (offset / BitVec.ofNat 32 sectsize).toNat = offset.toNat / sectsize :=
    BitVec.toNat_udiv
  have hone : (1 : BitVec 32).toNat = 1 := rfl
  rw [BitVec.toNat_add, hdiv, hone]
  simp only [sectsize]
  omega

/-- **`readseg` is one patch.** -/
theorem readseg_eq (h : readseg fuel disk mem pa count offset = some mem') :
    mem' = (loads disk pa count offset).apply mem := by
  have hspan := readsegLoop_some h (by rw [roundDown_toNat]; simp)
    (by rw [roundDown_toNat, sector_toNat]; simp only [sectsize]; omega)
  rw [hspan, loads, roundDown_toNat, endPa_toNat hwrap, sector_toNat]
  simp only [span, Nat.mul_div_cancel_left _ (by decide : 0 < sectsize)]

theorem readseg_total (hend : pa.toNat + count.toNat ≤ 2 ^ 32 - sectsize) (hfuel : 2 ^ 23 < fuel) :
    ∃ mem', readseg fuel disk mem pa count offset = some mem' := by
  obtain ⟨fuel, rfl⟩ := Nat.exists_eq_succ_of_ne_zero (by omega : fuel ≠ 0)
  refine readsegLoop_total (by rw [roundDown_toNat]; simp) (by rwa [endPa_toNat hwrap]) ?_
  rw [endPa_toNat hwrap]
  simp only [sectsize]
  omega

end

end JosKernel.Boot
