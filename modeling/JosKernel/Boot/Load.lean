import JosKernel.Boot.Readseg

/-!
# The image that `bootmain` loads

`readseg` writes whole sectors, before and after what was asked for.  The comment in
`readseg` argues that this does not matter, since segments are loaded in increasing
order: what one load writes past its end, the next load writes over.

The argument leaves out what a load writes *before* its start.  If a segment starts
in the sector where the one before it ends, its first sector replaces the end of
that segment.  `bootmain_loads_iff` says exactly when the image is nevertheless
loaded as it should be: the bytes that are replaced are replaced by equal ones, as
they are when both segments have the same distance from the image.
-/

namespace JosKernel.Boot

variable {disk : Disk} {mem mem₀ mem₁ mem' : Mem} {fuel i j k n : Nat}

/-! ## The image -/

/-- The bytes of the kernel image, which starts at sector 1. -/
def image (disk : Disk) : Nat → Byte := fun n ↦ disk (sectsize + n)

/-- The ELF header of the image. -/
def elf (disk : Disk) : Elf := Elf.read (image disk)

/-- The number of program headers. -/
def phnum (disk : Disk) : Nat := (elf disk).ePhnum.toNat

/-- The place of program header `i` in the image. -/
def phdrOff (disk : Disk) (i : Nat) : Nat := (elf disk).ePhoff.toNat + proghdrSize * i

/-- Program header `i` of the image. -/
def phdr (disk : Disk) (i : Nat) : ElfProghdr :=
  ElfProghdr.read fun k ↦ image disk (phdrOff disk i + k)

/-- What the load of segment `i` writes. -/
def segment (disk : Disk) (i : Nat) : Patch (BitVec 32) Byte :=
  loads disk (phdr disk i).pPa (phdr disk i).pMemsz (phdr disk i).pOffset

/-- The images the boot loader is meant for.  All addresses are those of single
bytes, and those of the scratch space are the sectors of the first page. -/
structure Loadable (disk : Disk) : Prop where
  magic : (elf disk).eMagic = elfMagic
  table : phdrOff disk (phnum disk) ≤ sectsize * 8
  increasing : ∀ i j, i < j → j < phnum disk → (phdr disk i).pPa ≤ (phdr disk j).pPa
  disjoint : ∀ i j, i < j → j < phnum disk → ∀ x,
    (phdr disk i).pPa.toNat ≤ x → x < (phdr disk i).pPa.toNat + (phdr disk i).pMemsz.toNat →
    (phdr disk j).pPa.toNat ≤ x → ¬ x < (phdr disk j).pPa.toNat + (phdr disk j).pMemsz.toNat
  filesz : ∀ i < phnum disk, (phdr disk i).pFilesz ≤ (phdr disk i).pMemsz
  aligned : ∀ i < phnum disk,
    (phdr disk i).pPa.toNat % sectsize = (phdr disk i).pOffset.toNat % sectsize
  wrap : ∀ i < phnum disk, (phdr disk i).pPa.toNat + (phdr disk i).pMemsz.toNat < 2 ^ 32
  scratch : ∀ i < phnum disk, ∀ n < sectsize * 8,
    (segment disk i).dom (elfhdr + BitVec.ofNat 32 n) = false

/-- Every program segment is in memory where its header puts it. -/
def Loaded (disk : Disk) (mem : Mem) : Prop :=
  ∀ i < phnum disk, ∀ k < (phdr disk i).pFilesz.toNat,
    mem ((phdr disk i).pPa + BitVec.ofNat 32 k) = image disk ((phdr disk i).pOffset.toNat + k)

/-- Where a later segment is the last one whose sectors have a byte of segment `i`,
it brings the same byte. -/
def Agrees (disk : Disk) : Prop :=
  ∀ i < phnum disk, ∀ k < (phdr disk i).pFilesz.toNat, ∀ j, i < j →
    Patch.IsLast (segment disk) (phnum disk) ((phdr disk i).pPa + BitVec.ofNat 32 k) j →
      image disk ((phdr disk j).pOffset.toNat + ((phdr disk i).pPa.toNat + k) -
          (phdr disk j).pPa.toNat) =
        image disk ((phdr disk i).pOffset.toNat + k)

/-! ## The header page -/

/-- The first page of the image is in the scratch space. -/
def HasPage (disk : Disk) (mem : Mem) : Prop :=
  ∀ n < sectsize * 8, mem (elfhdr + BitVec.ofNat 32 n) = image disk n

theorem elfhdr_toNat : elfhdr.toNat = 0x10000 := rfl

theorem elfhdr_add_toNat (hn : n < sectsize * 8) :
    (elfhdr + BitVec.ofNat 32 n).toNat = 0x10000 + n := by
  simp only [sectsize] at hn
  simp only [elfhdr]
  bv_omega

/-- Loading the first page. -/
theorem hasPage_readseg
    (h : readseg fuel disk mem elfhdr (BitVec.ofNat 32 (sectsize * 8)) 0 = some mem') :
    HasPage disk mem' := by
  intro n hn
  have hx := elfhdr_add_toNat hn
  rw [readseg_eq (by decide) h, loads, Patch.apply_of_dom]
  · simp only [span, image, hx]
    refine congrArg disk ?_
    simp [sectsize, elfhdr]
  · rw [span_dom, hx, elfhdr_toNat]
    simp only [sectsize] at hn ⊢
    simp only [BitVec.toNat_ofNat]
    omega

/-- Loads outside the scratch space keep the page. -/
theorem HasPage.segments (h : HasPage disk mem) (hload : Loadable disk) (hi : i ≤ phnum disk) :
    HasPage disk (Patch.applyUpTo (segment disk) i mem) := by
  intro n hn
  rw [Patch.applyUpTo_of_none fun j hj ↦ hload.scratch j (by omega) n hn]
  exact h n hn

theorem HasPage.bytesFrom (h : HasPage disk mem) (hn : n + k < sectsize * 8) :
    mem.bytesFrom (elfhdr + BitVec.ofNat 32 n) k = image disk (n + k) := by
  rw [Mem.bytesFrom, BitVec.add_assoc, ← BitVec.ofNat_add]
  exact h (n + k) hn

/-- The ELF header in memory is that of the image. -/
theorem HasPage.elf (h : HasPage disk mem) : Elf.read (mem.bytesFrom elfhdr) = elf disk := by
  have hbytes : ∀ k < 48, mem.bytesFrom elfhdr k = image disk k := fun k hk ↦
    h k (by simp only [sectsize]; omega)
  simp [Elf.read, Boot.elf, le32, le16, hbytes]

/-- A program header in memory is that of the image. -/
theorem HasPage.phdr (h : HasPage disk mem) (hi : phdrOff disk i + proghdrSize ≤ sectsize * 8) :
    ElfProghdr.read (mem.bytesFrom (elfhdr + BitVec.ofNat 32 (phdrOff disk i))) = phdr disk i := by
  have hbytes : ∀ k < 32, mem.bytesFrom (elfhdr + BitVec.ofNat 32 (phdrOff disk i)) k =
      image disk (phdrOff disk i + k) := fun k hk ↦
    h.bytesFrom (by simp only [proghdrSize] at hi; omega)
  simp [ElfProghdr.read, Boot.phdr, le32, hbytes]

/-! ## The loop -/

/-- The address of program header `i` in memory. -/
def phAddr (disk : Disk) (i : Nat) : BitVec 32 := elfhdr + BitVec.ofNat 32 (phdrOff disk i)

section

variable (hload : Loadable disk)

include hload

theorem Loadable.phdrOff_le (hi : i ≤ phnum disk) :
    phdrOff disk i + proghdrSize * (phnum disk - i) ≤ sectsize * 8 := by
  have htable := hload.table
  simp only [phdrOff, proghdrSize] at htable ⊢
  omega

theorem Loadable.phAddr_toNat (hi : i ≤ phnum disk) :
    (phAddr disk i).toNat = 0x10000 + phdrOff disk i := by
  have hle := hload.phdrOff_le hi
  simp only [sectsize] at hle
  simp only [phAddr, elfhdr]
  bv_omega

theorem Loadable.phAddr_lt_iff (hi : i ≤ phnum disk) :
    phAddr disk i < phAddr disk (phnum disk) ↔ i < phnum disk := by
  rw [BitVec.lt_def, hload.phAddr_toNat hi, hload.phAddr_toNat (le_refl _)]
  simp only [phdrOff, proghdrSize]
  omega

omit hload in
theorem phAddr_succ : phAddr disk i + BitVec.ofNat 32 proghdrSize = phAddr disk (i + 1) := by
  rw [phAddr, phAddr, BitVec.add_assoc, ← BitVec.ofNat_add]
  rfl

/-- The header that the loop reads. -/
theorem Loadable.phdr_read (hpage : HasPage disk mem₁) (hi : i < phnum disk) :
    ElfProghdr.read (Mem.bytesFrom (Patch.applyUpTo (segment disk) i mem₁) (phAddr disk i)) =
      phdr disk i := by
  refine (hpage.segments hload (by omega)).phdr ?_
  have hle := hload.phdrOff_le hi.le
  simp only [proghdrSize] at hle ⊢
  omega

/-- A loop that ends has loaded all segments in order. -/
theorem bootLoop_some (hpage : HasPage disk mem₁) (hi : i ≤ phnum disk)
    (h : bootLoop disk (phAddr disk (phnum disk)) fuel (Patch.applyUpTo (segment disk) i mem₁)
      (phAddr disk i) = some mem') :
    mem' = Patch.applyUpTo (segment disk) (phnum disk) mem₁ := by
  induction fuel generalizing i with
  | zero => cases h
  | succ fuel ih =>
      rw [bootLoop] at h
      split_ifs at h with hlt
      · rw [hload.phAddr_lt_iff hi] at hlt
        rw [hload.phdr_read hpage hlt] at h
        obtain ⟨mem, hmem, h⟩ := Option.bind_eq_some_iff.mp h
        obtain rfl := readseg_eq (hload.wrap i hlt) hmem
        rw [phAddr_succ] at h
        exact ih hlt h
      · rw [hload.phAddr_lt_iff hi] at hlt
        obtain rfl : i = phnum disk := by omega
        exact (Option.some.inj h).symm

/-- The loop ends when no segment reaches the last sector of the address space. -/
theorem bootLoop_total
    (hend : ∀ i < phnum disk,
      (phdr disk i).pPa.toNat + (phdr disk i).pMemsz.toNat ≤ 2 ^ 32 - sectsize)
    (hpage : HasPage disk mem₁) (hi : i ≤ phnum disk)
    (hfuel : 2 ^ 23 + (phnum disk - i) < fuel) :
    ∃ mem', bootLoop disk (phAddr disk (phnum disk)) fuel
      (Patch.applyUpTo (segment disk) i mem₁) (phAddr disk i) = some mem' := by
  induction fuel generalizing i with
  | zero => omega
  | succ fuel ih =>
      rw [bootLoop]
      split_ifs with hlt
      · rw [hload.phAddr_lt_iff hi] at hlt
        rw [hload.phdr_read hpage hlt, phAddr_succ]
        obtain ⟨mem, hmem⟩ : ∃ mem, readseg fuel disk (Patch.applyUpTo (segment disk) i mem₁)
            (phdr disk i).pPa (phdr disk i).pMemsz (phdr disk i).pOffset = some mem :=
          readseg_total (hload.wrap i hlt) (hend i hlt) (by omega)
        obtain rfl := readseg_eq (hload.wrap i hlt) hmem
        obtain ⟨mem', hmem'⟩ := ih hlt (by omega)
        exact ⟨mem', by simp only [hmem, Option.bind_eq_bind, Option.bind_some]; exact hmem'⟩
      · exact ⟨_, rfl⟩

end

/-! ## `bootmain` -/

theorem phAddr_zero (disk : Disk) : elfhdr + (elf disk).ePhoff = phAddr disk 0 := by
  simp [phAddr, phdrOff]

/-- The end of the program header table, as `bootmain` computes it. -/
theorem phAddr_eph (disk : Disk) :
    phAddr disk 0 + (elf disk).ePhnum.setWidth 32 * BitVec.ofNat 32 proghdrSize =
      phAddr disk (phnum disk) := by
  have hnum : (elf disk).ePhnum.setWidth 32 = BitVec.ofNat 32 (phnum disk) := by
    simp [phnum, BitVec.ofNat_toNat]
  rw [hnum, phAddr, phAddr, phdrOff, phdrOff, BitVec.add_assoc, BitVec.mul_comm, ← BitVec.ofNat_mul,
    ← BitVec.ofNat_add, Nat.mul_zero, Nat.add_zero]

/-- `bootmain` jumps to the entry point of the image, with all segments loaded in
order over the first page. -/
theorem bootmain_jump {entry : BitVec 32} (hload : Loadable disk)
    (h : bootmain fuel disk mem₀ = some (.jump entry, mem)) :
    entry = (elf disk).eEntry ∧ ∃ mem₁, HasPage disk mem₁ ∧
      mem = Patch.applyUpTo (segment disk) (phnum disk) mem₁ := by
  obtain ⟨mem₁, hfirst, h⟩ := Option.bind_eq_some_iff.mp h
  have hpage := hasPage_readseg hfirst
  rw [hpage.elf] at h
  simp only [hload.magic, ne_eq, not_true_eq_false, if_false, phAddr_zero, phAddr_eph] at h
  obtain ⟨mem₂, hloop, h⟩ := Option.bind_eq_some_iff.mp h
  obtain rfl : mem₂ = Patch.applyUpTo (segment disk) (phnum disk) mem₁ :=
    bootLoop_some hload hpage (Nat.zero_le _) hloop
  rw [(hpage.segments hload (le_refl _)).elf] at h
  obtain ⟨hentry, rfl⟩ := Prod.mk.inj (Option.some.inj h)
  exact ⟨(Outcome.jump.inj hentry).symm, mem₁, hpage, rfl⟩

/-- `bootmain` reaches the jump when no segment reaches the last sector of the
address space. -/
theorem bootmain_total (hload : Loadable disk)
    (hend : ∀ i < phnum disk,
      (phdr disk i).pPa.toNat + (phdr disk i).pMemsz.toNat ≤ 2 ^ 32 - sectsize) (mem₀ : Mem) :
    ∃ fuel entry mem, bootmain fuel disk mem₀ = some (.jump entry, mem) := by
  obtain ⟨mem₁, hfirst⟩ : ∃ mem₁, readseg (2 ^ 23 + phnum disk + 1) disk mem₀ elfhdr
      (BitVec.ofNat 32 (sectsize * 8)) 0 = some mem₁ :=
    readseg_total (by decide) (by decide) (by omega)
  have hpage := hasPage_readseg hfirst
  have hfuel : 2 ^ 23 + (phnum disk - 0) < 2 ^ 23 + phnum disk + 1 := by omega
  obtain ⟨mem, hloop⟩ := bootLoop_total hload hend hpage (Nat.zero_le _) hfuel
  refine ⟨2 ^ 23 + phnum disk + 1, (Elf.read (mem.bytesFrom elfhdr)).eEntry, mem, ?_⟩
  simp only [bootmain, hfirst, Option.bind_eq_bind, Option.bind_some, hpage.elf, hload.magic, ne_eq,
    not_true_eq_false, if_false, phAddr_zero, phAddr_eph]
  rw [Patch.applyUpTo] at hloop
  rw [hloop]
  rfl

/-- The byte of the image that a segment brings to one of its sectors. -/
theorem segment_val {x : BitVec 32} (hload : Loadable disk) (hj : j < phnum disk)
    (hdom : (segment disk j).dom x = true) :
    (segment disk j).val x =
      image disk ((phdr disk j).pOffset.toNat + x.toNat - (phdr disk j).pPa.toNat) := by
  have halign := hload.aligned j hj
  rw [segment, loads, span_dom] at hdom
  refine congrArg disk ?_
  simp only [sectsize] at halign hdom ⊢
  omega

theorem Loadable.byte_toNat (hload : Loadable disk) (hi : i < phnum disk)
    (hk : k < (phdr disk i).pFilesz.toNat) :
    ((phdr disk i).pPa + BitVec.ofNat 32 k).toNat = (phdr disk i).pPa.toNat + k ∧
      (segment disk i).dom ((phdr disk i).pPa + BitVec.ofNat 32 k) = true := by
  have hwrap := hload.wrap i hi
  have hle : (phdr disk i).pFilesz.toNat ≤ (phdr disk i).pMemsz.toNat := hload.filesz i hi
  have hx : ((phdr disk i).pPa + BitVec.ofNat 32 k).toNat = (phdr disk i).pPa.toNat + k := by
    bv_omega
  refine ⟨hx, ?_⟩
  rw [segment, loads, span_dom, hx]
  simp only [sectsize]
  omega

/-- The segments are loaded as they should be exactly when the last writers agree. -/
theorem loaded_iff (hload : Loadable disk) :
    Loaded disk (Patch.applyUpTo (segment disk) (phnum disk) mem₁) ↔ Agrees disk := by
  constructor
  · intro h i hi k hk j _ hlast
    obtain ⟨hx, -⟩ := hload.byte_toNat hi hk
    have hbyte := h i hi k hk
    rwa [Patch.applyUpTo_of_isLast hlast, segment_val hload hlast.lt hlast.dom, hx] at hbyte
  · intro h i hi k hk
    obtain ⟨hx, hdom⟩ := hload.byte_toNat hi hk
    obtain ⟨j, hij, hlast⟩ := Patch.exists_isLast (f := segment disk) hi hdom
    rw [Patch.applyUpTo_of_isLast hlast, segment_val hload hlast.lt hlast.dom, hx]
    rcases Nat.eq_or_lt_of_le hij with rfl | hlt
    · congr 1
      omega
    · exact h i hi k hk j hlt hlast

/-- **The image that is in memory at the jump.**  `bootmain` reaches the jump when no
segment reaches the last sector of the address space, and whenever it does, every
segment is in memory as it is in the image exactly when, of the segments that share
a sector, the last one agrees with the others. -/
theorem bootmain_loads_iff (hload : Loadable disk) (mem₀ : Mem) :
    ((∀ i < phnum disk,
        (phdr disk i).pPa.toNat + (phdr disk i).pMemsz.toNat ≤ 2 ^ 32 - sectsize) →
      ∃ fuel entry mem, bootmain fuel disk mem₀ = some (.jump entry, mem)) ∧
    ∀ fuel entry mem, bootmain fuel disk mem₀ = some (.jump entry, mem) →
      entry = (elf disk).eEntry ∧ (Loaded disk mem ↔ Agrees disk) := by
  refine ⟨fun hend ↦ bootmain_total hload hend mem₀, ?_⟩
  intro fuel entry mem h
  obtain ⟨hentry, mem₁, -, rfl⟩ := bootmain_jump hload h
  exact ⟨hentry, loaded_iff hload⟩

/-! ## Two segments in one sector -/

/-- The bytes of a 32-bit word. -/
def wordBytes (w : BitVec 32) : List Byte :=
  [w.setWidth 8, (w >>> 8).setWidth 8, (w >>> 16).setWidth 8, (w >>> 24).setWidth 8]

/-- An ELF header with the program headers right after it. -/
def elfBytes (phnum : Byte) : List Byte :=
  wordBytes elfMagic ++ List.replicate 20 0 ++ wordBytes 0x10000c ++ wordBytes 52 ++
    List.replicate 12 0 ++ [phnum, 0] ++ List.replicate 6 0

/-- A program header for `size` bytes. -/
def proghdrBytes (offset pa size : BitVec 32) : List Byte :=
  wordBytes 1 ++ wordBytes offset ++ wordBytes pa ++ wordBytes pa ++ wordBytes size ++
    wordBytes size ++ wordBytes 7 ++ wordBytes 16

/-- A segment of 16 bytes at `0x100000` and one right behind it, which come from
different sectors of the image.  The first segment starts with a 1. -/
def sharedSector : Disk := fun n ↦
  let bytes := elfBytes 2 ++ proghdrBytes 0x1000 0x100000 16 ++ proghdrBytes 0x1210 0x100010 16
  (bytes[n - sectsize]?).getD (if n - sectsize = 0x1000 then 1 else 0)

theorem sharedSector_elf : elf sharedSector = ⟨elfMagic, 0x10000c, 52, 2⟩ := by decide

theorem sharedSector_phnum : phnum sharedSector = 2 := by decide

theorem sharedSector_phdr :
    phdr sharedSector 0 = ⟨0x1000, 0x100000, 16, 16⟩ ∧
      phdr sharedSector 1 = ⟨0x1210, 0x100010, 16, 16⟩ := by decide

theorem sharedSector_loadable : Loadable sharedSector := by
  obtain ⟨h0, h1⟩ := sharedSector_phdr
  have hcases : ∀ i < phnum sharedSector, i = 0 ∨ i = 1 := by
    rw [sharedSector_phnum]
    omega
  have hpairs : ∀ i j, i < j → j < phnum sharedSector → i = 0 ∧ j = 1 := by
    rw [sharedSector_phnum]
    omega
  constructor
  · rw [sharedSector_elf]
  · decide
  · intro i j hij hj
    obtain ⟨rfl, rfl⟩ := hpairs i j hij hj
    rw [h0, h1]
    decide
  · intro i j hij hj x
    obtain ⟨rfl, rfl⟩ := hpairs i j hij hj
    simp only [h0, h1, BitVec.reduceToNat]
    omega
  · intro i hi
    rcases hcases i hi with rfl | rfl <;> simp [h0, h1]
  · intro i hi
    rcases hcases i hi with rfl | rfl <;> simp [h0, h1, sectsize]
  · intro i hi
    rcases hcases i hi with rfl | rfl <;> simp [h0, h1]
  · intro i hi n hn
    rw [Bool.eq_false_iff, ne_eq, segment, loads, span_dom, elfhdr_add_toNat hn]
    simp only [sectsize] at hn ⊢
    rcases hcases i hi with rfl | rfl
    · simp only [h0, BitVec.reduceToNat]
      omega
    · simp only [h1, BitVec.reduceToNat]
      omega

theorem sharedSector_loads_iff :
    ((∀ i < phnum sharedSector,
        (phdr sharedSector i).pPa.toNat + (phdr sharedSector i).pMemsz.toNat ≤
          2 ^ 32 - sectsize) →
      ∃ fuel entry mem,
        bootmain fuel sharedSector (fun _ ↦ 0) = some (.jump entry, mem)) ∧
    ∀ fuel entry mem, bootmain fuel sharedSector (fun _ ↦ 0) = some (.jump entry, mem) →
      entry = (elf sharedSector).eEntry ∧ (Loaded sharedSector mem ↔ Agrees sharedSector) :=
  bootmain_loads_iff sharedSector_loadable fun _ ↦ 0

/-- The first byte of the first segment is 1, and the load of the second segment
replaces it by 0. -/
theorem sharedSector_not_loaded :
    Loadable sharedSector ∧ ∃ mem,
      bootmain 20 sharedSector (fun _ ↦ 0) = some (.jump 0x10000c, mem) ∧
      mem 0x100000 = 0 ∧ image sharedSector 0x1000 = 1 ∧ ¬ Loaded sharedSector mem := by
  have hrun : (bootmain 20 sharedSector (fun _ ↦ 0)).map (fun r ↦ (r.1, r.2 0x100000)) =
      some (.jump 0x10000c, 0) := by decide +kernel
  obtain ⟨⟨outcome, mem⟩, hboot, hbyte⟩ := Option.map_eq_some_iff.mp hrun
  obtain ⟨rfl, hzero⟩ := Prod.mk.inj hbyte
  have hone : image sharedSector 0x1000 = 1 := by decide
  refine ⟨sharedSector_loadable, mem, hboot, hzero, hone, ?_⟩
  intro hloaded
  obtain ⟨h0, -⟩ := sharedSector_phdr
  have hfirst := hloaded 0 (by decide) 0 (by decide)
  rw [h0] at hfirst
  exact absurd (hzero.symm.trans (hfirst.trans hone)) (by decide)

end JosKernel.Boot
