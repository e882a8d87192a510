import JosKernel.Boot.Readseg

/-!
# Loading a segment

`readseg` rounds the address down to a sector, but not the offset in the image.  The bytes
still come out at their places if both have the same position in their sectors
(`readseg_loads`), and each `readsect` is given the number of its sector.

Whether the loop ends depends on the end address alone, as it has wrapped: the loop never
steps over an end in the last sector of the address space (`readseg_ends_iff`).
-/

namespace JosKernel.Boot

variable {disk : Disk} {mem mem' : Mem} {fuel : Nat} {pa endPa count offset : BitVec 32}

/-! ## The calls of `readsect` -/

/-- The arguments `dst` and `offset` of a call of `readsect`. -/
structure SectorCall where
  dst : BitVec 32
  offset : BitVec 32
deriving DecidableEq, Repr

/-- The calls of `readsect` in the loop of `readseg`. -/
def readsegCalls (endPa : BitVec 32) : Nat → BitVec 32 → BitVec 32 → Option (List SectorCall)
  | 0, _, _ => none
  | fuel + 1, pa, offset =>
      if pa < endPa then
        (readsegCalls endPa fuel (pa + BitVec.ofNat 32 sectsize) (offset + 1)).map
          (⟨pa, offset⟩ :: ·)
      else some []

/-- The calls, one after another. -/
def readsects (disk : Disk) (calls : List SectorCall) (mem : Mem) : Mem :=
  calls.foldl (fun mem c ↦ readsect disk mem c.dst c.offset) mem

/-- The loop of `readseg` is its calls. -/
theorem readsegLoop_calls (disk : Disk) (endPa : BitVec 32) (fuel : Nat) (mem : Mem)
    (pa offset : BitVec 32) :
    readsegLoop disk endPa fuel mem pa offset =
      (readsegCalls endPa fuel pa offset).map fun calls ↦ readsects disk calls mem := by
  induction fuel generalizing mem pa offset with
  | zero => rfl
  | succ fuel ih =>
      rw [readsegLoop, readsegCalls]
      split_ifs
      · rw [ih, Option.map_map]
        rfl
      · rfl

/-- The number that the four port bytes encode, without the bits that select the drive. -/
def SectorPorts.encoded (p : SectorPorts) : Nat :=
  p.port1F3.toNat + 2 ^ 8 * p.port1F4.toNat + 2 ^ 16 * p.port1F5.toNat +
    2 ^ 24 * (p.port1F6 &&& ~~~0xE0).toNat

/-- The port bytes encode a sector number of 28 bits. -/
theorem sectorPorts_encoded (h : offset.toNat < 2 ^ 28) :
    (sectorPorts offset).encoded = offset.toNat := by
  have hdrive : ∀ b : Byte, b.toNat < 16 → (b ||| 0xE0) &&& ~~~0xE0 = b := by decide
  have hhigh : ((offset >>> 24).setWidth 8 : Byte).toNat = offset.toNat / 2 ^ 24 := by
    rw [BitVec.toNat_setWidth, BitVec.toNat_ushiftRight, Nat.shiftRight_eq_div_pow]
    omega
  have hport : (sectorPorts offset).port1F6 = (offset >>> 24).setWidth 8 ||| 0xE0 := by
    rw [sectorPorts, BitVec.setWidth_or]
    rfl
  rw [SectorPorts.encoded, hport, hdrive _ (by omega), hhigh]
  simp only [sectorPorts, BitVec.toNat_setWidth, BitVec.toNat_ushiftRight,
    Nat.shiftRight_eq_div_pow]
  omega

/-- A call is for the sector that belongs to its place in memory, and the drive is given
the number of it. -/
structure SectorCall.Encodes (c : SectorCall) (pa offset : Nat) : Prop where
  /-- As many bytes behind the first sector as `dst` is behind the first address. -/
  place : sectsize * c.offset.toNat + pa = sectsize * offset + c.dst.toNat
  lt : c.offset.toNat < 2 ^ 28
  ports : (sectorPorts c.offset).encoded = c.offset.toNat

/-- What the loop calls `readsect` with. -/
theorem readsegCalls_encodes (hpa : pa.toNat % sectsize = 0)
    (hend : endPa.toNat ≤ 2 ^ 32 - sectsize)
    (hoff : sectsize * offset.toNat ≤ 2 ^ 32 + pa.toNat) {calls : List SectorCall}
    (h : readsegCalls endPa fuel pa offset = some calls) :
    ∀ c ∈ calls, c.Encodes pa.toNat offset.toNat := by
  induction fuel generalizing pa offset calls with
  | zero => cases h
  | succ fuel ih =>
      rw [readsegCalls] at h
      split_ifs at h with hlt
      · obtain ⟨rest, hrest, rfl⟩ := Option.map_eq_some_iff.mp h
        have hnext := next_toNat hpa hlt hend
        have hpa' := pa.isLt
        have hoff' : (offset + 1).toNat = offset.toNat + 1 := by
          simp only [sectsize] at hoff
          bv_omega
        rw [List.forall_mem_cons]
        have hnum : offset.toNat < 2 ^ 28 := by
          simp only [sectsize] at hoff
          omega
        refine ⟨⟨rfl, hnum, sectorPorts_encoded hnum⟩, ?_⟩
        · intro c hc
          have hcall := ih (by rw [hnext]; simpa using hpa)
            (by rw [hnext, hoff']; simp only [sectsize] at hoff ⊢; omega) hrest c hc
          have hplace := hcall.place
          rw [hnext, hoff'] at hplace
          refine ⟨?_, hcall.lt, hcall.ports⟩
          simp only [sectsize] at hplace ⊢
          omega
      · cases h
        simp

/-! ## The segment -/

/-- Rounding an address up to a sector boundary. -/
def roundUp (a : Nat) : Nat := sectsize * ((a + (sectsize - 1)) / sectsize)

theorem loads_of_lt (hcong : pa.toNat % sectsize = offset.toNat % sectsize) {k : Nat}
    (hk : k < count.toNat) (hwrap : pa.toNat + count.toNat < 2 ^ 32) :
    (loads disk pa count offset).apply mem (pa + BitVec.ofNat 32 k) =
      disk (sectsize + (offset.toNat + k)) := by
  have hx : (pa + BitVec.ofNat 32 k).toNat = pa.toNat + k := by bv_omega
  have hdom : (loads disk pa count offset).dom (pa + BitVec.ofNat 32 k) = true := by
    rw [loads, span_dom, hx]
    simp only [sectsize]
    omega
  rw [Patch.apply_of_dom hdom]
  simp only [loads, span, hx]
  refine congrArg disk ?_
  simp only [sectsize] at hcong ⊢
  omega

theorem loads_outside {x : BitVec 32}
    (hx : x.toNat < sectsize * (pa.toNat / sectsize) ∨ roundUp (pa.toNat + count.toNat) ≤ x.toNat) :
    (loads disk pa count offset).apply mem x = mem x := by
  refine Patch.apply_of_not_dom (Bool.eq_false_iff.mpr fun hdom ↦ ?_)
  rw [loads, span_dom] at hdom
  simp only [roundUp, sectsize] at hx hdom
  omega

/-- **Loading a segment.**  With an address and an offset that are congruent modulo the
sector size, and an end that leaves room for a sector, `readseg` returns.  Memory then has
the `count` bytes of the image from `offset` on at `pa`, where the image starts in sector
1; whatever is not in a sector of these bytes is unchanged; and in each call of `readsect`
the four port bytes encode the number of the sector that belongs at `dst`. -/
theorem readseg_loads (hcong : pa.toNat % sectsize = offset.toNat % sectsize)
    (hend : pa.toNat + count.toNat ≤ 2 ^ 32 - sectsize) (hfuel : 2 ^ 23 < fuel) (disk : Disk)
    (mem : Mem) :
    ∃ calls mem',
      readsegCalls (pa + count) fuel (pa &&& ~~~BitVec.ofNat 32 (sectsize - 1))
        (offset / BitVec.ofNat 32 sectsize + 1) = some calls ∧
      readseg fuel disk mem pa count offset = some mem' ∧ mem' = readsects disk calls mem ∧
      (∀ k < count.toNat, mem' (pa + BitVec.ofNat 32 k) = disk (sectsize + (offset.toNat + k))) ∧
      (∀ x : BitVec 32,
        x.toNat < sectsize * (pa.toNat / sectsize) ∨ roundUp (pa.toNat + count.toNat) ≤ x.toNat →
          mem' x = mem x) ∧
      ∀ c ∈ calls, c.Encodes (sectsize * (pa.toNat / sectsize)) (offset.toNat / sectsize + 1) := by
  have hwrap : pa.toNat + count.toNat < 2 ^ 32 := by
    simp only [sectsize] at hend
    omega
  obtain ⟨mem', hmem'⟩ : ∃ mem', readseg fuel disk mem pa count offset = some mem' :=
    readseg_total hwrap hend hfuel
  have hpatch := readseg_eq hwrap hmem'
  have hloop := hmem'
  rw [readseg, readsegLoop_calls] at hloop
  obtain ⟨calls, hcalls, hrun⟩ := Option.map_eq_some_iff.mp hloop
  refine ⟨calls, mem', hcalls, hmem', hrun.symm, ?_, ?_, ?_⟩
  · intro k hk
    rw [hpatch, loads_of_lt hcong hk hwrap]
  · intro x hx
    rw [hpatch, loads_outside hx]
  · have hencodes := readsegCalls_encodes (by rw [roundDown_toNat]; simp)
      (by rwa [endPa_toNat hwrap])
      (by rw [roundDown_toNat, sector_toNat]; simp only [sectsize]; omega) hcalls
    rwa [roundDown_toNat, sector_toNat] at hencodes

/-- A disk of which every byte is the number of its sector. -/
def numberedDisk : Disk := fun k ↦ BitVec.ofNat 8 (k / sectsize)

theorem numberedDisk_loads :
    ∃ calls mem',
      readsegCalls (0x100A34 + 0x700) (2 ^ 23 + 1)
        (0x100A34 &&& ~~~BitVec.ofNat 32 (sectsize - 1))
        (0x1234 / BitVec.ofNat 32 sectsize + 1) = some calls ∧
      readseg (2 ^ 23 + 1) numberedDisk (fun _ ↦ 0) 0x100A34 0x700 0x1234 = some mem' ∧
      mem' = readsects numberedDisk calls (fun _ ↦ 0) ∧
      (∀ k < (0x700 : BitVec 32).toNat, mem' (0x100A34 + BitVec.ofNat 32 k) =
        numberedDisk (sectsize + ((0x1234 : BitVec 32).toNat + k))) ∧
      (∀ x : BitVec 32,
        x.toNat < sectsize * ((0x100A34 : BitVec 32).toNat / sectsize) ∨
            roundUp ((0x100A34 : BitVec 32).toNat + (0x700 : BitVec 32).toNat) ≤ x.toNat →
          mem' x = 0) ∧
      ∀ c ∈ calls, c.Encodes (sectsize * ((0x100A34 : BitVec 32).toNat / sectsize))
        ((0x1234 : BitVec 32).toNat / sectsize + 1) :=
  readseg_loads (by decide) (by decide) (by decide) numberedDisk fun _ ↦ 0

/-! ## Termination -/

/-- **Termination.**  `readseg` ends if and only if the end address, as it has wrapped, is
not inside the last sector of the address space. -/
theorem readseg_ends_iff (disk : Disk) (mem : Mem) (pa count offset : BitVec 32) :
    (∃ fuel mem', readseg fuel disk mem pa count offset = some mem') ↔
      (pa + count).toNat ≤ 2 ^ 32 - sectsize := by
  have hround : (pa &&& ~~~BitVec.ofNat 32 (sectsize - 1)).toNat % sectsize = 0 := by
    rw [roundDown_toNat]
    simp
  constructor
  · rintro ⟨fuel, mem', h⟩
    by_contra hlast
    rw [readseg, readsegLoop_never (not_le.mp hlast) hround] at h
    cases h
  · intro hend
    have hloop : ∃ mem', readsegLoop disk (pa + count) (2 ^ 23 + 1) mem
        (pa &&& ~~~BitVec.ofNat 32 (sectsize - 1)) (offset / BitVec.ofNat 32 sectsize + 1) =
          some mem' := by
      refine readsegLoop_total hround hend ?_
      simp only [sectsize]
      omega
    refine ⟨2 ^ 23 + 1, ?_⟩
    simp only [readseg]
    exact hloop

/-- A segment of one byte in the last sector of the address space. -/
theorem readseg_last_sector :
    (0xFFFFFE00 : BitVec 32) + 1 = 0xFFFFFE01 ∧
      ¬ ∃ fuel mem', readseg fuel numberedDisk (fun _ ↦ 0) 0xFFFFFE00 1 0 = some mem' := by
  refine ⟨by decide, ?_⟩
  rintro ⟨fuel, mem', h⟩
  have hlast : 2 ^ 32 - sectsize < (0xFFFFFE00 + 1 : BitVec 32).toNat := by decide
  have hround : ((0xFFFFFE00 : BitVec 32) &&& ~~~BitVec.ofNat 32 (sectsize - 1)).toNat % sectsize =
      0 := by decide
  rw [readseg, readsegLoop_never hlast hround] at h
  cases h

end JosKernel.Boot
