import JosKernel.Pmap.FreeList
import JosKernel.Printf.Render

/-!
# Page, physical and kernel addresses

The kernel maps physical memory at `KERNBASE`, up to the end of the address space.  The
helpers of `kern/pmap.h` go from a page to its physical address and to its kernel address
and back.  That they do not overflow is no check of theirs: it follows from what
`i386_detect_memory` can find in the NVRAM.

## The model

* The NVRAM holds any bytes.
* A pointer to an entry of `pages` is its index, as in the free list.
* A call of `panic` is a `Panic`, with what it prints.
-/

namespace JosKernel.Pmap

open Console (Device Out)
open Printf

/-! ## The memory -/

/-- The bytes of the real-time clock, the NVRAM among them. -/
abbrev Nvram := Byte → Byte

/-- `mc146818_read(reg)`. -/
def mc146818Read (nvram : Nvram) (reg : BitVec 32) : BitVec 32 :=
  (nvram (reg.setWidth 8)).setWidth 32

/-- `nvram_read(r)`. -/
def nvramRead (nvram : Nvram) (r : BitVec 32) : BitVec 32 :=
  mc146818Read nvram r ||| mc146818Read nvram (r + 1) <<< 8

/-- `MC_NVRAM_START`. -/
def mcNvramStart : BitVec 32 := 0xE

/-- `NVRAM_BASELO`. -/
def nvramBaselo : BitVec 32 := mcNvramStart + 7

/-- `NVRAM_EXTLO`. -/
def nvramExtlo : BitVec 32 := mcNvramStart + 9

/-- `PGSIZE`. -/
def pgSize : BitVec 32 := 4096

/-- `EXTPHYSMEM`. -/
def extPhysMem : BitVec 32 := 0x100000

/-- `KERNBASE`. -/
def kernBase : BitVec 32 := 0xF0000000

/-- `npages`, `npages_basemem` and `npages_extmem`. -/
structure MemorySize where
  npages : BitVec 32
  npagesBasemem : BitVec 32
  npagesExtmem : BitVec 32
deriving DecidableEq, Repr

/-- The memory that `i386_detect_memory` finds.  The products and quotients are of type
`int`. -/
def memorySize (nvram : Nvram) : MemorySize :=
  let npagesBasemem := (nvramRead nvram nvramBaselo * 1024).sdiv pgSize
  let npagesExtmem := (nvramRead nvram nvramExtlo * 1024).sdiv pgSize
  { npages := if npagesExtmem ≠ 0 then extPhysMem.sdiv pgSize + npagesExtmem else npagesBasemem
    npagesBasemem
    npagesExtmem }

/-- The bytes of the message about the memory. -/
def memoryText : List Byte :=
  asciis "Physical memory: ".toList ++ asciis "%uK available, ".toList ++
    asciis "base = %uK, ".toList ++ asciis "extended = %uK\n".toList

theorem zero_not_mem_memoryText : 0 ∉ memoryText := by decide +kernel

/-- `"Physical memory: %uK available, base = %uK, extended = %uK\n"`. -/
def memoryFormat : CString where
  bytes := memoryText
  ne_zero := fun _ hb hzero ↦ zero_not_mem_memoryText (hzero ▸ hb)

/-- A number of pages in kilobytes, `npages * PGSIZE / 1024`. -/
def kilobytes (npages : BitVec 32) : BitVec 32 := npages * pgSize / 1024

/-- `i386_detect_memory()`. -/
def i386DetectMemory (dev : Device) (fuel : Nat) (nvram : Nvram) (m : Out) :
    Except Stop (MemorySize × Out) := do
  let size := memorySize nvram
  let (_, m) ← cprintf dev fuel memoryFormat [.word (kilobytes size.npages),
    .word (kilobytes size.npagesBasemem), .word (kilobytes size.npagesExtmem)] m
  return (size, m)

/-- The message has three numbers. -/
theorem memoryFormat_demands :
    (segments memoryFormat.bytes).flatMap Segment.demands = [.word, .word, .word] := by
  decide +kernel

/-- The arguments of the message. -/
def memoryArgs (size : MemorySize) : List Arg :=
  [.word (kilobytes size.npages), .word (kilobytes size.npagesBasemem),
    .word (kilobytes size.npagesExtmem)]

theorem memoryFormat_sufficient (size : MemorySize) :
    Sufficient memoryFormat (memoryArgs size) := by
  rw [Sufficient, memoryFormat_demands]
  exact ⟨trivial, trivial, trivial, trivial⟩

/-- `i386_detect_memory` prints its message and returns what it has found. -/
theorem i386DetectMemory_eq {fuel : Nat} (hfuel : memoryText.length + 3 ≤ fuel) (dev : Device)
    (nvram : Nvram) (m : Out) :
    i386DetectMemory dev fuel nvram m = .ok (memorySize nvram, emit (Console.cputchar dev)
      (render (segments memoryText) (memoryArgs (memorySize nvram))) m) := by
  have hcprintf := cprintf_render (memoryFormat_sufficient (memorySize nvram)) hfuel dev m
  rw [memoryArgs] at hcprintf
  rw [i386DetectMemory, hcprintf]
  rfl

/-! ## Addresses -/

/-- A call of `panic`, and the arguments of its message. -/
inductive Panic where
  /-- `"PADDR called with invalid kva %08lx"`. -/
  | paddr (kva : BitVec 32)
  /-- `"KADDR called with invalid pa %08lx"`. -/
  | kaddr (pa : BitVec 32)
  /-- `"pa2page called with invalid pa"`. -/
  | pa2page
deriving DecidableEq, Repr

/-- `PGNUM(la)`. -/
def pgnum (la : BitVec 32) : BitVec 32 := la >>> 12

/-- `PADDR(kva)`. -/
def paddr (kva : BitVec 32) : Except Panic (BitVec 32) :=
  if kva < kernBase then .error (.paddr kva) else .ok (kva - kernBase)

/-- `KADDR(pa)`. -/
def kaddr (npages : BitVec 32) (pa : BitVec 32) : Except Panic (BitVec 32) :=
  if npages ≤ pgnum pa then .error (.kaddr pa) else .ok (pa + kernBase)

/-- `pa2page(pa)`. -/
def pa2page (npages : BitVec 32) (pa : BitVec 32) : Except Panic (Fin npages.toNat) :=
  if h : (pgnum pa).toNat < npages.toNat then .ok ⟨(pgnum pa).toNat, h⟩ else .error .pa2page

/-- `page2kva(pp)`. -/
def page2kva (npages : BitVec 32) (pp : Fin npages.toNat) : Except Panic (BitVec 32) :=
  kaddr npages (page2pa pp)

/-- `ROUNDDOWN(a, n)`. -/
def roundDown (a n : BitVec 32) : BitVec 32 := a - a % n

/-- `ROUNDUP(a, n)`. -/
def roundUp (a n : BitVec 32) : BitVec 32 := roundDown (a + n - 1) n

/-! ## How much memory there can be -/

theorem nvramRead_lt (nvram : Nvram) (r : BitVec 32) : (nvramRead nvram r).toNat < 2 ^ 16 := by
  have hlow : (mc146818Read nvram r).toNat < 2 ^ 16 := by
    rw [mc146818Read, BitVec.toNat_setWidth]
    omega
  have hhigh : (mc146818Read nvram (r + 1) <<< 8).toNat < 2 ^ 16 := by
    rw [BitVec.toNat_shiftLeft, mc146818Read, BitVec.toNat_setWidth, Nat.shiftLeft_eq]
    omega
  rw [nvramRead, BitVec.toNat_or]
  exact Nat.or_lt_two_pow hlow hhigh

/-- A division of `int`s that are not negative. -/
theorem sdiv_pgSize {n : BitVec 32} (h : n.toNat < 2 ^ 31) :
    (n.sdiv pgSize).toNat = n.toNat / 4096 := by
  have hmsb : n.msb = false := by
    rw [BitVec.msb_eq_decide]
    exact decide_eq_false (by omega)
  have hpage : pgSize.msb = false := by decide
  rw [BitVec.sdiv_eq, hmsb, hpage]
  exact BitVec.toNat_udiv

/-- A count of kilobytes has 16 bits. -/
theorem pages_of_nvram_le (nvram : Nvram) (r : BitVec 32) :
    ((nvramRead nvram r * 1024).sdiv pgSize).toNat ≤ 0x3FFF := by
  have hlt := nvramRead_lt nvram r
  have hbytes : (nvramRead nvram r * 1024).toNat = (nvramRead nvram r).toNat * 1024 := by
    have hkilo : (1024 : BitVec 32).toNat = 1024 := rfl
    rw [BitVec.toNat_mul, hkilo]
    exact Nat.mod_eq_of_lt (by omega)
  rw [sdiv_pgSize (by omega), hbytes]
  omega

/-- **The memory fits** into what is mapped at `KERNBASE`. -/
theorem npages_le (nvram : Nvram) : (memorySize nvram).npages.toNat ≤ 0x40FF := by
  have hext := pages_of_nvram_le nvram nvramExtlo
  have hbase := pages_of_nvram_le nvram nvramBaselo
  have hlow : (extPhysMem.sdiv pgSize).toNat = 0x100 := by decide
  simp only [memorySize]
  split_ifs
  · rw [BitVec.toNat_add, hlow]
    omega
  · omega

/-! ## Back and forth -/

section

variable {npages : BitVec 32} {pa kva : BitVec 32}

theorem pgnum_toNat (la : BitVec 32) : (pgnum la).toNat = la.toNat / 4096 := by
  rw [pgnum, BitVec.toNat_ushiftRight, Nat.shiftRight_eq_div_pow]

/-- The page of the page number. -/
theorem page2pa_toNat {n : Nat} (hn : n ≤ 2 ^ 20) (pp : Fin n) :
    (page2pa pp).toNat = pp * 4096 := by
  have hlt := pp.isLt
  rw [page2pa, BitVec.toNat_shiftLeft, BitVec.toNat_ofNat, Nat.shiftLeft_eq,
    Nat.mod_eq_of_lt (by omega), Nat.mod_eq_of_lt (by omega)]

theorem roundDown_toNat (a : BitVec 32) :
    (roundDown a pgSize).toNat = a.toNat / 4096 * 4096 := by
  have hmod : (a % pgSize).toNat = a.toNat % 4096 := BitVec.toNat_umod
  have hle : a % pgSize ≤ a := BitVec.le_def.mpr (hmod ▸ Nat.mod_le _ _)
  rw [roundDown, BitVec.toNat_sub_of_le hle, hmod]
  omega

theorem roundUp_toNat {a n : BitVec 32} (hn : 0 < n.toNat) (hlt : a.toNat + n.toNat - 1 < 2 ^ 32) :
    (roundUp a n).toNat = (a.toNat + n.toNat - 1) / n.toNat * n.toNat := by
  have hsum : (a + n - 1).toNat = a.toNat + n.toNat - 1 := by
    have hone : (1 : BitVec 32).toNat = 1 := rfl
    rw [BitVec.toNat_sub, BitVec.toNat_add, hone]
    omega
  have hmod := Nat.mod_le (a.toNat + n.toNat - 1) n.toNat
  have hdiv := Nat.div_add_mod' (a.toNat + n.toNat - 1) n.toNat
  rw [roundUp, roundDown, BitVec.toNat_sub, BitVec.toNat_umod, hsum]
  omega

/-- An address in the memory: `KADDR` does not wrap, and `PADDR` takes it back. -/
theorem kaddr_ok (hnpages : npages.toNat ≤ 2 ^ 16) (hpa : pgnum pa < npages) :
    ∃ kva, kaddr npages pa = .ok kva ∧ kva.toNat = pa.toNat + kernBase.toNat ∧
      paddr kva = .ok pa := by
  have hbase : kernBase.toNat = 0xF0000000 := rfl
  have hlt := BitVec.lt_def.mp hpa
  rw [pgnum_toNat] at hlt
  have hsum : (pa + kernBase).toNat = pa.toNat + kernBase.toNat := by
    rw [BitVec.toNat_add]
    omega
  refine ⟨pa + kernBase, if_neg (BitVec.not_le.mpr hpa), hsum, ?_⟩
  have hge : ¬ pa + kernBase < kernBase := by
    rw [BitVec.lt_def, hsum]
    omega
  rw [paddr, if_neg hge, BitVec.add_sub_cancel]

/-- A physical address and its page. -/
theorem pa2page_ok (hnpages : npages.toNat ≤ 2 ^ 16) (hpa : pgnum pa < npages) :
    ∃ pp, pa2page npages pa = .ok pp ∧ page2pa pp = roundDown pa pgSize := by
  have hlt : (pgnum pa).toNat < npages.toNat := BitVec.lt_def.mp hpa
  refine ⟨⟨(pgnum pa).toNat, hlt⟩, dif_pos hlt, BitVec.eq_of_toNat_eq ?_⟩
  rw [page2pa_toNat (hnpages.trans (by decide)), roundDown_toNat]
  exact congrArg (· * 4096) (pgnum_toNat pa)

/-- The physical address of a page is in the memory. -/
theorem pgnum_page2pa (hnpages : npages.toNat ≤ 2 ^ 16) (pp : Fin npages.toNat) :
    (pgnum (page2pa pp)).toNat = pp := by
  rw [pgnum_toNat, page2pa_toNat (hnpages.trans (by decide)), Nat.mul_div_cancel _ (by decide)]

/-- A page and its addresses. -/
theorem page_ok (hnpages : npages.toNat ≤ 2 ^ 16) (pp : Fin npages.toNat) :
    pa2page npages (page2pa pp) = .ok pp ∧
      ∃ kva, page2kva npages pp = .ok kva ∧ paddr kva = .ok (page2pa pp) ∧
        kva.toNat = pp * 4096 + kernBase.toNat := by
  have hnum := pgnum_page2pa hnpages pp
  have hlt : pgnum (page2pa pp) < npages := by
    rw [BitVec.lt_def, hnum]
    exact pp.isLt
  obtain ⟨kva, hkva, hsum, hpaddr⟩ := kaddr_ok hnpages hlt
  rw [page2pa_toNat (hnpages.trans (by decide))] at hsum
  refine ⟨?_, kva, hkva, hpaddr, hsum⟩
  rw [pa2page, dif_pos (BitVec.lt_def.mp hlt)]
  exact congrArg Except.ok (Fin.ext hnum)

end

/-- **The addresses go back and forth.**  For any NVRAM, and the number of pages that
`i386_detect_memory` takes from it. -/
theorem addresses_translate (nvram : Nvram) :
    let npages := (memorySize nvram).npages
    (∀ pp : Fin npages.toNat, pa2page npages (page2pa pp) = .ok pp ∧
      ∃ kva, page2kva npages pp = .ok kva ∧ paddr kva = .ok (page2pa pp)) ∧
    (∀ pa, pgnum pa < npages → pa.toNat + kernBase.toNat < 2 ^ 32 ∧
      (∃ kva, kaddr npages pa = .ok kva ∧ kva.toNat = pa.toNat + kernBase.toNat ∧
        paddr kva = .ok pa) ∧
      ∃ pp, pa2page npages pa = .ok pp ∧ page2pa pp = roundDown pa pgSize) ∧
    ∀ (pp pp' : Fin npages.toNat) (kva kva' : BitVec 32), pp ≠ pp' →
      page2kva npages pp = .ok kva → page2kva npages pp' = .ok kva' →
        kva.toNat + 4096 ≤ 2 ^ 32 ∧
          (kva.toNat + 4096 ≤ kva'.toNat ∨ kva'.toNat + 4096 ≤ kva.toNat) := by
  intro npages
  have hnpages : npages.toNat ≤ 2 ^ 16 := (npages_le nvram).trans (by decide)
  refine ⟨fun pp ↦ ?_, fun pa hpa ↦ ⟨?_, kaddr_ok hnpages hpa, pa2page_ok hnpages hpa⟩, ?_⟩
  · obtain ⟨hpage, kva, hkva, hpaddr, -⟩ := page_ok hnpages pp
    exact ⟨hpage, kva, hkva, hpaddr⟩
  · obtain ⟨kva, -, hsum, -⟩ := kaddr_ok hnpages hpa
    rw [← hsum]
    exact kva.isLt
  · intro pp pp' kva kva' hne hkva hkva'
    obtain ⟨-, _, hkva₁, -, hsum⟩ := page_ok hnpages pp
    obtain ⟨-, _, hkva₂, -, hsum'⟩ := page_ok hnpages pp'
    cases hkva.symm.trans hkva₁
    cases hkva'.symm.trans hkva₂
    have hbase : kernBase.toNat = 0xF0000000 := rfl
    have hval := mt Fin.ext hne
    have hlt := pp.isLt
    omega

end JosKernel.Pmap
