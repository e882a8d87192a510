import JosKernel.Lib.Paging
import JosKernel.Pmap.Address

/-!
# The page tables at the start

`entry.S` turns paging on with the tables of `entrypgdir.c`.  They map the first 4 megabytes of
physical memory at `KERNBASE`, and also at 0, where the code still runs: `entry_translates`
says what every access gets.  Nothing of the code that runs and of its data moves when paging
is turned on (`paging_keeps`), and of the pages exactly the lower ones are there at their kernel
addresses (`page_mapped_iff`), which is why `check_page_free_list` has to look for them.

## The model

* The entries of `entry_pgtable` are written out in the source; they are all alike.
* The tables are where the linker and the boot loader have put them: each at the start of a
  page, and in physical memory `KERNBASE` below its address.
-/

namespace JosKernel.Pmap

open Paging

/-! ## The tables -/

/-- `PTE_P`. -/
def pteP : BitVec 32 := 0x001

/-- `PTE_W`. -/
def pteW : BitVec 32 := 0x002

/-- `PTSIZE`. -/
def ptSize : BitVec 32 := 4096 * 1024

/-- `entry_pgtable`. -/
def entryPgtable (i : Fin 1024) : BitVec 32 := BitVec.ofNat 32 (0x001000 * i) ||| pteP ||| pteW

/-- `entry_pgdir`, with the address of `entry_pgtable`. -/
def entryPgdir (pgtable : BitVec 32) (i : Fin 1024) : BitVec 32 :=
  if i.val = 0 then pgtable - kernBase + pteP
  else if i.val = (kernBase >>> 22).toNat then pgtable - kernBase + pteP + pteW
  else 0

/-- `CR0_PE | CR0_PG | CR0_WP`. -/
def cr0Flags : BitVec 32 := 0x00000001 ||| 0x80000000 ||| 0x00010000

/-- What `entry.S` does to the control registers. -/
def enablePaging (pgdir : BitVec 32) (c : Control) : Control :=
  { cr0 := c.cr0 ||| cr0Flags, cr3 := pgdir - kernBase }

/-- The tables are in physical memory. -/
structure EntryTables (mem : Mem) (pgdir pgtable : BitVec 32) : Prop where
  pgdirAligned : offset pgdir = 0#32
  pgtableAligned : offset pgtable = 0#32
  pgdir : ∀ i : Fin 1024,
    entry mem (pgdir - kernBase) (BitVec.ofNat 32 i) = entryPgdir pgtable i
  pgtable : ∀ i : Fin 1024, entry mem (pgtable - kernBase) (BitVec.ofNat 32 i) = entryPgtable i

/-! ## What they map -/

/-- The first 4 megabytes can be read where they are, and read and written at `KERNBASE`. -/
def entryMap (a : Access) (va : BitVec 32) : Option (BitVec 32) :=
  if va < ptSize then if a = .read then some va else none
  else if kernBase ≤ va ∧ va - kernBase < ptSize then some (va - kernBase)
  else none

section

variable {mem : Mem} {pgdir pgtable va : BitVec 32}

/-- `RELOC` of an address at the start of a page. -/
theorem offset_reloc {a : BitVec 32} (h : offset a = 0#32) : offset (a - kernBase) = 0#32 := by
  have hmod := congrArg BitVec.toNat h
  rw [offset_toNat] at hmod
  have hbase : kernBase.toNat = 0xF0000000 := rfl
  refine BitVec.eq_of_toNat_eq ?_
  rw [offset_toNat, BitVec.toNat_sub, hbase]
  change _ = 0
  change _ = 0 at hmod
  omega

/-- The flags of an address at the start of a page do not overlap it. -/
theorem aligned_add {base flags : BitVec 32} (hbase : offset base = 0#32)
    (hflags : 0xFFF &&& flags = flags) : base + flags = base ||| flags := by
  refine BitVec.add_eq_or_of_and_eq_zero _ _ ?_
  rw [← hflags, ← BitVec.and_assoc, ← offset, hbase, BitVec.zero_and]

theorem EntryTables.dir (h : EntryTables mem pgdir pgtable) (va : BitVec 32) :
    entry mem (frame (pgdir - kernBase)) (dirIndex va) =
      if va.toNat / 2 ^ 22 = 0 then (pgtable - kernBase) ||| pteP
      else if va.toNat / 2 ^ 22 = 0x3C0 then (pgtable - kernBase) ||| (pteP ||| pteW)
      else 0 := by
  have hlt := va.isLt
  have hindex : dirIndex va = BitVec.ofNat 32 (va.toNat / 2 ^ 22) :=
    BitVec.eq_of_toNat_eq (by rw [dirIndex_toNat, BitVec.toNat_ofNat]; omega)
  have hentry := h.pgdir ⟨va.toNat / 2 ^ 22, by omega⟩
  have haligned := offset_reloc h.pgtableAligned
  have hflags : pteP + pteW = pteP ||| pteW := by decide
  rw [frame_of_aligned (offset_reloc h.pgdirAligned), hindex, hentry, entryPgdir, BitVec.add_assoc,
    hflags, aligned_add haligned (by decide), aligned_add haligned (by decide)]
  rfl

theorem EntryTables.linear (h : EntryTables mem pgdir pgtable) (a : Access) :
    Linear mem (pgtable - kernBase) 0 a := by
  have hentry : ∀ va, entry mem (pgtable - kernBase) (tableIndex va) =
      tableIndex va <<< 12 ||| (pteP ||| pteW) := by
    intro va
    have htable := tableIndex_toNat va
    have hlt : (tableIndex va).toNat < 1024 := by omega
    have hentry := h.pgtable ⟨(tableIndex va).toNat, hlt⟩
    rw [BitVec.ofNat_toNat, BitVec.setWidth_eq] at hentry
    rw [hentry, entryPgtable, BitVec.or_assoc]
    congr 1
    refine BitVec.eq_of_toNat_eq ?_
    rw [BitVec.toNat_ofNat, BitVec.toNat_shiftLeft, Nat.shiftLeft_eq, Nat.mul_comm]
  constructor
  · intro va
    rw [hentry, frame_or (offset_shiftLeft _) (by decide)]
    exact (BitVec.zero_add _).symm
  · intro va
    rw [hentry, allows_or (offset_shiftLeft _)]
    cases a <;> decide

theorem allows_present (a : Access) : Allows pteP a ↔ a = .read := by
  cases a <;> decide

theorem allows_both (a : Access) : Allows (pteP ||| pteW) a := by
  cases a <;> decide

theorem lt_ptSize_iff (va : BitVec 32) : va < ptSize ↔ va.toNat / 2 ^ 22 = 0 := by
  have hsize : ptSize.toNat = 2 ^ 22 := rfl
  rw [BitVec.lt_def, hsize]
  omega

theorem kernel_iff (va : BitVec 32) :
    kernBase ≤ va ∧ va - kernBase < ptSize ↔ va.toNat / 2 ^ 22 = 0x3C0 := by
  have hlt := va.isLt
  have hbase : kernBase.toNat = 0x3C0 * 2 ^ 22 := rfl
  rw [lt_ptSize_iff, BitVec.le_def, BitVec.toNat_sub, hbase]
  omega

/-- The entry of the first 4 megabytes is not writeable. -/
theorem EntryTables.walk_low (h : EntryTables mem pgdir pgtable) (a : Access)
    (hlow : va.toNat / 2 ^ 22 = 0) :
    walk mem (pgdir - kernBase) a va = if a = .read then some va else none := by
  have hdir := h.dir va
  have haligned := offset_reloc h.pgtableAligned
  have hlower := lower_toNat va
  have hallows : Allows (entry mem (frame (pgdir - kernBase)) (dirIndex va)) a ↔ a = .read := by
    rw [hdir, if_pos hlow, allows_or haligned, allows_present]
  by_cases ha : a = .read
  · have hpage : 0 + (va &&& 0x3FFFFF) = va := by
      refine (BitVec.zero_add _).trans (BitVec.eq_of_toNat_eq ?_)
      omega
    rw [if_pos ha, walk_linear (by rw [hdir, if_pos hlow, frame_or haligned (by decide)])
      (hallows.mpr ha) (h.linear a), hpage]
  · rw [if_neg ha, walk_of_not_allows (mt hallows.mp ha)]

theorem EntryTables.walk_high (h : EntryTables mem pgdir pgtable) (a : Access)
    (hhigh : va.toNat / 2 ^ 22 = 0x3C0) :
    walk mem (pgdir - kernBase) a va = some (va - kernBase) := by
  have hlt := va.isLt
  have hdir := h.dir va
  rw [if_neg (by omega), if_pos hhigh] at hdir
  have haligned := offset_reloc h.pgtableAligned
  have hlower := lower_toNat va
  have hbase : kernBase.toNat = 0x3C0 * 2 ^ 22 := rfl
  have hpage : 0 + (va &&& 0x3FFFFF) = va - kernBase := by
    refine (BitVec.zero_add _).trans (BitVec.eq_of_toNat_eq ?_)
    rw [hlower, BitVec.toNat_sub, hbase]
    omega
  have hallows : Allows (entry mem (frame (pgdir - kernBase)) (dirIndex va)) a := by
    rw [hdir, allows_or haligned]
    exact allows_both a
  rw [walk_linear (by rw [hdir, frame_or haligned (by decide)]) hallows (h.linear a), hpage]

theorem EntryTables.walk_other (h : EntryTables mem pgdir pgtable) (a : Access)
    (hlow : va.toNat / 2 ^ 22 ≠ 0) (hhigh : va.toNat / 2 ^ 22 ≠ 0x3C0) :
    walk mem (pgdir - kernBase) a va = none := by
  refine walk_of_not_allows ?_
  rw [h.dir va, if_neg hlow, if_neg hhigh]
  cases a <;> decide

theorem EntryTables.walk_eq (h : EntryTables mem pgdir pgtable) (a : Access) (va : BitVec 32) :
    walk mem (pgdir - kernBase) a va = entryMap a va := by
  rw [entryMap, if_congr (lt_ptSize_iff va) rfl rfl, if_congr (kernel_iff va) rfl rfl]
  split_ifs with hlow ha hhigh
  · rw [h.walk_low a hlow, if_pos ha]
  · rw [h.walk_low a hlow, if_neg ha]
  · exact h.walk_high a hhigh
  · exact h.walk_other a hlow hhigh

/-- After `entry.S`, whatever was in the control registers before. -/
theorem EntryTables.translate_eq (h : EntryTables mem pgdir pgtable) (c : Control) (a : Access)
    (va : BitVec 32) : translate mem (enablePaging pgdir c) a va = entryMap a va := by
  have hpaging : (enablePaging pgdir c).cr0.getLsbD 31 = true := by
    rw [enablePaging, BitVec.getLsbD_or, show cr0Flags.getLsbD 31 = true from rfl, Bool.or_true]
  have hprotect : (enablePaging pgdir c).cr0.getLsbD 16 = true := by
    rw [enablePaging, BitVec.getLsbD_or, show cr0Flags.getLsbD 16 = true from rfl, Bool.or_true]
  rw [Paging.translate, if_pos hpaging, if_pos hprotect]
  exact h.walk_eq a va

/-! ## Before and after -/

/-- **Turning paging on moves nothing.**  Take an address of the kernel in its first 4 megabytes.
Where the code runs before paging is on, and after it until the jump, it is read from the same
place in physical memory, and there it is also at its own address, for reading and writing.
Nothing else can be reached, and nothing can be written but at the addresses of the kernel. -/
theorem paging_keeps (h : EntryTables mem pgdir pgtable) {c : Control}
    (hoff : c.cr0.getLsbD 31 = false) :
    (∀ x, kernBase ≤ x → x - kernBase < ptSize →
      translate mem c .read (x - kernBase) = some (x - kernBase) ∧
      translate mem (enablePaging pgdir c) .read (x - kernBase) = some (x - kernBase) ∧
      ∀ a, translate mem (enablePaging pgdir c) a x = some (x - kernBase)) ∧
    ∀ a va pa, translate mem (enablePaging pgdir c) a va = some pa →
      pa < ptSize ∧ (va = pa ∨ va = pa + kernBase) ∧ (a = .write → va = pa + kernBase) := by
  refine ⟨fun x hbase hsize ↦ ⟨?_, ?_, fun a ↦ ?_⟩, fun a va pa htranslate ↦ ?_⟩
  · rw [Paging.translate, hoff, if_neg Bool.false_ne_true]
  · rw [h.translate_eq, entryMap, if_pos hsize, if_pos rfl]
  · have hhigh := (kernel_iff x).mp ⟨hbase, hsize⟩
    have hlow : ¬ x < ptSize := by
      rw [lt_ptSize_iff, hhigh]
      decide
    rw [h.translate_eq, entryMap, if_neg hlow, if_pos ⟨hbase, hsize⟩]
  · rw [h.translate_eq, entryMap] at htranslate
    split_ifs at htranslate with hlow ha hhigh <;> cases htranslate
    · exact ⟨hlow, .inl rfl, fun hwrite ↦ by rw [ha] at hwrite; cases hwrite⟩
    · have hadd : va = va - kernBase + kernBase := (BitVec.sub_add_cancel va kernBase).symm
      exact ⟨hhigh.2, .inr hadd, fun _ ↦ hadd⟩

end

/-- The tables at 1144 and 1148 kilobytes, and nothing else. -/
def sampleMemory : Mem := fun a ↦
  if a - 0x11E000 < 4096 then tableByte (entryPgdir 0xF011F000) (a - 0x11E000).toNat
  else if a - 0x11F000 < 4096 then tableByte entryPgtable (a - 0x11F000).toNat
  else 0

/-- A byte of a page, by its offset. -/
theorem offset_in_page (page : BitVec 32) {off : Nat} (hoff : off < 4096) :
    page + BitVec.ofNat 32 off - page = BitVec.ofNat 32 off ∧
      (BitVec.ofNat 32 off).toNat = off := by
  refine ⟨by rw [BitVec.add_comm, BitVec.add_sub_cancel], ?_⟩
  rw [BitVec.toNat_ofNat]
  omega

theorem sampleMemory_tables : EntryTables sampleMemory 0xF011E000 0xF011F000 where
  pgdirAligned := by decide
  pgtableAligned := by decide
  pgdir := by
    have hbase : (0xF011E000 - kernBase : BitVec 32) = 0x11E000 := by decide
    rw [hbase]
    refine entry_of_bytes fun off hoff ↦ ?_
    obtain ⟨hsub, hlt⟩ := offset_in_page 0x11E000 hoff
    have hin : BitVec.ofNat 32 off < (4096 : BitVec 32) :=
      BitVec.lt_def.mpr (by rw [hlt]; exact hoff)
    rw [sampleMemory, hsub, if_pos hin, hlt]
  pgtable := by
    have hbase : (0xF011F000 - kernBase : BitVec 32) = 0x11F000 := by decide
    rw [hbase]
    refine entry_of_bytes fun off hoff ↦ ?_
    obtain ⟨hsub, hlt⟩ := offset_in_page 0x11F000 hoff
    have hin : BitVec.ofNat 32 off < (4096 : BitVec 32) :=
      BitVec.lt_def.mpr (by rw [hlt]; exact hoff)
    -- past the table before it
    have hpast : ¬ (0x11F000 + BitVec.ofNat 32 off : BitVec 32) - 0x11E000 < 4096 := by
      have hshift : (0x11F000 : BitVec 32) = 0x11E000 + 4096 := by decide
      have hsize : (4096 : BitVec 32).toNat = 4096 := rfl
      rw [hshift, BitVec.add_assoc, BitVec.add_comm 0x11E000, BitVec.add_sub_cancel, BitVec.lt_def,
        BitVec.toNat_add, hlt, hsize]
      omega
    rw [sampleMemory, if_neg hpast, hsub, if_pos hin, hlt]

theorem sampleMemory_keeps :
    translate sampleMemory ⟨0x11, 0⟩ .read 0x10002A = some 0x10002A ∧
      translate sampleMemory (enablePaging 0xF011E000 ⟨0x11, 0⟩) .read 0x10002A = some 0x10002A ∧
      ∀ a, translate sampleMemory (enablePaging 0xF011E000 ⟨0x11, 0⟩) a 0xF010002A =
        some 0x10002A :=
  (paging_keeps sampleMemory_tables (show (⟨0x11, 0⟩ : Control).cr0.getLsbD 31 = false from rfl)).1
    0xF010002A (by decide) (by decide)

/-! ## The pages -/

theorem isLow_iff {npages : Nat} (hnpages : npages ≤ 2 ^ 20) (pp : Fin npages) :
    isLow pp = true ↔ pp.val < 1024 := by
  have hlt := pp.isLt
  have hpdx : (pdx (page2pa pp)).toNat = pp.val / 1024 := by
    rw [pdx, BitVec.toNat_and, BitVec.toNat_ushiftRight, page2pa_toNat hnpages,
      Nat.shiftRight_eq_div_pow]
    refine (Nat.and_two_pow_sub_one_eq_mod _ 10).trans ?_
    omega
  have hlimit : (pdxLimit true).toNat = 1 := rfl
  rw [isLow, decide_eq_true_iff, BitVec.lt_def, hpdx, hlimit]
  omega

/-- **The pages that are mapped** at their kernel addresses are the lower ones. -/
theorem page_mapped_iff {mem : Mem} {pgdir pgtable : BitVec 32} (h : EntryTables mem pgdir pgtable)
    (c : Control) {npages : BitVec 32} (hnpages : npages.toNat ≤ 2 ^ 16) (pp : Fin npages.toNat) :
    ∃ kva, page2kva npages pp = .ok kva ∧ ∀ (a : Access) (off : BitVec 32), off < pgSize →
      translate mem (enablePaging pgdir c) a (kva + off) =
        if isLow pp then some (page2pa pp + off) else none := by
  obtain ⟨-, kva, hkva, -, hsum⟩ := page_ok hnpages pp
  have hpa := page2pa_toNat (hnpages.trans (by decide)) pp
  have hlow := isLow_iff (hnpages.trans (by decide)) pp
  have hbase : kernBase.toNat = 0xF0000000 := rfl
  have hlt := pp.isLt
  refine ⟨kva, hkva, fun a off hoff ↦ ?_⟩
  have hoff : off.toNat < 4096 := BitVec.lt_def.mp hoff
  have hva : (kva + off).toNat = pp * 4096 + 0xF0000000 + off.toNat := by
    rw [BitVec.toNat_add, hsum, hbase]
    omega
  have hnot : ¬ kva + off < ptSize := by
    rw [lt_ptSize_iff, hva]
    omega
  have hkernel : kernBase ≤ kva + off ∧ kva + off - kernBase < ptSize ↔ isLow pp = true := by
    rw [kernel_iff, hva, hlow]
    omega
  have hsub : kva + off - kernBase = page2pa pp + off := by
    refine BitVec.eq_of_toNat_eq ?_
    rw [BitVec.toNat_sub, hva, hbase, BitVec.toNat_add, hpa]
    omega
  rw [h.translate_eq, entryMap, if_neg hnot, if_congr hkernel (congrArg some hsub) rfl]

/-- Of 1280 pages the last is not mapped. -/
theorem sampleMemory_page :
    ∃ kva, page2kva 0x500 (Fin.last 0x4FF) = .ok kva ∧ ∀ (a : Access) (off : BitVec 32),
      off < pgSize → translate sampleMemory (enablePaging 0xF011E000 ⟨0x11, 0⟩) a (kva + off) =
        if isLow (Fin.last 0x4FF) then some (page2pa (Fin.last 0x4FF) + off) else none :=
  page_mapped_iff sampleMemory_tables ⟨0x11, 0⟩
    (show (0x500 : BitVec 32).toNat ≤ 2 ^ 16 by decide) (Fin.last 0x4FF)

end JosKernel.Pmap
