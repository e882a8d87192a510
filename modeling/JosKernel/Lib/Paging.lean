import JosKernel.Lib.Memory

/-!
# Paging

The x86 translates a virtual address by two tables in the physical memory: the highest ten bits
choose an entry of the page directory, which gives a page table, the next ten an entry of that
table, which gives a page, and the others are the offset in the page.  A table whose entries
are consecutive pages maps its 4 megabytes as they are (`walk_linear`).

Accesses are those of the kernel: an entry has to be present, and for a write also writeable
if write protection is on.
-/

namespace JosKernel.Paging

/-- An access to memory. -/
inductive Access where
  | read
  | write
deriving DecidableEq, Repr

/-- The control registers. -/
structure Control where
  cr0 : BitVec 32
  cr3 : BitVec 32
deriving DecidableEq, Repr

/-- The address in an entry. -/
def frame (e : BitVec 32) : BitVec 32 := e &&& ~~~0xFFF

/-- The entry is present, and writeable if it has to be. -/
def Allows (e : BitVec 32) (a : Access) : Prop := e &&& 0x001 ≠ 0 ∧ (a = .write → e &&& 0x002 ≠ 0)

instance (e : BitVec 32) (a : Access) : Decidable (Allows e a) :=
  inferInstanceAs (Decidable (_ ∧ _))

/-- The entry of the page directory for an address. -/
def dirIndex (va : BitVec 32) : BitVec 32 := va >>> 22

/-- The entry of the page table. -/
def tableIndex (va : BitVec 32) : BitVec 32 := (va >>> 12) &&& 0x3FF

/-- The offset in the page. -/
def offset (va : BitVec 32) : BitVec 32 := va &&& 0xFFF

/-- An entry of a table in memory. -/
def entry (mem : Mem) (table i : BitVec 32) : BitVec 32 := loadInt mem (table + i <<< 2)

/-- The walk through the tables. -/
def walk (mem : Mem) (cr3 : BitVec 32) (a : Access) (va : BitVec 32) : Option (BitVec 32) :=
  let pde := entry mem (frame cr3) (dirIndex va)
  if Allows pde a then
    let pte := entry mem (frame pde) (tableIndex va)
    if Allows pte a then some (frame pte + offset va) else none
  else none

/-- The physical address of a virtual one, unless there is a page fault. -/
def translate (mem : Mem) (c : Control) (a : Access) (va : BitVec 32) : Option (BitVec 32) :=
  if c.cr0.getLsbD 31 then walk mem c.cr3 (if c.cr0.getLsbD 16 then a else .read) va else some va

/-! ## Entries -/

theorem offset_toNat (va : BitVec 32) : (offset va).toNat = va.toNat % 2 ^ 12 := by
  rw [offset, BitVec.toNat_and]
  exact Nat.and_two_pow_sub_one_eq_mod _ 12

theorem offset_shiftLeft (x : BitVec 32) : offset (x <<< 12) = 0#32 := by
  refine BitVec.eq_of_toNat_eq ?_
  rw [offset_toNat, BitVec.toNat_shiftLeft, Nat.shiftLeft_eq]
  change _ = 0
  omega

section

variable {base flags bits : BitVec 32}

/-- An address at the start of a page. -/
theorem frame_of_aligned (hbase : offset base = 0#32) : frame base = base := by
  have hsplit : offset base ||| base &&& ~~~0xFFF = base := by
    rw [offset, ← BitVec.and_or_distrib_left, BitVec.or_not_self, BitVec.and_allOnes]
  rwa [hbase, BitVec.zero_or] at hsplit

/-- An entry is an address and its flags. -/
theorem frame_or (hbase : offset base = 0#32) (hflags : frame flags = 0#32) :
    frame (base ||| flags) = base := by
  rw [frame, BitVec.and_or_distrib_right, ← frame, ← frame, frame_of_aligned hbase, hflags,
    BitVec.or_zero]

theorem flag_or (hbase : offset base = 0#32) (hbits : 0xFFF &&& bits = bits) :
    (base ||| flags) &&& bits = flags &&& bits := by
  rw [BitVec.and_or_distrib_right, ← hbits, ← BitVec.and_assoc, ← offset, hbase, BitVec.zero_and,
    hbits, BitVec.zero_or]

theorem allows_or (hbase : offset base = 0#32) (a : Access) :
    Allows (base ||| flags) a ↔ Allows flags a := by
  rw [Allows, Allows, flag_or hbase (by decide), flag_or hbase (by decide)]

end

/-- The bytes of a table. -/
def tableByte (table : Fin 1024 → BitVec 32) (off : Nat) : Byte :=
  (table (Fin.ofNat 1024 (off / 4)) >>> (8 * (off % 4))).setWidth 8

/-- A table in memory. -/
theorem entry_of_bytes {mem : Mem} {a : BitVec 32} {table : Fin 1024 → BitVec 32}
    (h : ∀ off < 4096, mem (a + BitVec.ofNat 32 off) = tableByte table off) (i : Fin 1024) :
    entry mem a (BitVec.ofNat 32 i) = table i := by
  have hbyte : ∀ k < 4, mem (a + BitVec.ofNat 32 i <<< 2 + BitVec.ofNat 32 k) =
      (table i >>> (8 * k)).setWidth 8 := by
    intro k hk
    have hoff : a + BitVec.ofNat 32 i <<< 2 + BitVec.ofNat 32 k =
      a + BitVec.ofNat 32 (4 * i + k) := by
      rw [BitVec.add_assoc]
      congr 1
      refine BitVec.eq_of_toNat_eq ?_
      simp only [BitVec.toNat_add, BitVec.toNat_shiftLeft, BitVec.toNat_ofNat, Nat.shiftLeft_eq]
      omega
    have hindex : Fin.ofNat 1024 ((4 * i + k) / 4) = i := by
      refine Fin.ext ?_
      change (4 * i.val + k) / 4 % 1024 = i
      omega
    rw [hoff, h _ (by omega), tableByte, hindex, show (4 * i.val + k) % 4 = k by omega]
  have h0 := hbyte 0 (by decide)
  rw [show a + BitVec.ofNat 32 i <<< 2 + BitVec.ofNat 32 0 = a + BitVec.ofNat 32 i <<< 2 from
    BitVec.add_zero _, Nat.mul_zero, BitVec.ushiftRight_zero] at h0
  have h1 : mem (a + BitVec.ofNat 32 i <<< 2 + 1) = _ := hbyte 1 (by decide)
  have h2 : mem (a + BitVec.ofNat 32 i <<< 2 + 2) = _ := hbyte 2 (by decide)
  have h3 : mem (a + BitVec.ofNat 32 i <<< 2 + 3) = _ := hbyte 3 (by decide)
  rw [entry, loadInt, h0, h1, h2, h3]
  exact word_of_bytes (table i)

/-! ## Consecutive pages -/

theorem tableIndex_toNat (va : BitVec 32) : (tableIndex va).toNat = va.toNat / 2 ^ 12 % 2 ^ 10 := by
  rw [tableIndex, BitVec.toNat_and, BitVec.toNat_ushiftRight, Nat.shiftRight_eq_div_pow]
  exact Nat.and_two_pow_sub_one_eq_mod _ 10

theorem dirIndex_toNat (va : BitVec 32) : (dirIndex va).toNat = va.toNat / 2 ^ 22 := by
  rw [dirIndex, BitVec.toNat_ushiftRight, Nat.shiftRight_eq_div_pow]

theorem lower_toNat (va : BitVec 32) : (va &&& 0x3FFFFF).toNat = va.toNat % 2 ^ 22 := by
  rw [BitVec.toNat_and]
  exact Nat.and_two_pow_sub_one_eq_mod _ 22

/-- The page and the offset are the lower bits. -/
theorem page_add_offset (va : BitVec 32) :
    tableIndex va <<< 12 + offset va = va &&& 0x3FFFFF := by
  refine BitVec.eq_of_toNat_eq ?_
  rw [lower_toNat, BitVec.toNat_add, BitVec.toNat_shiftLeft, tableIndex_toNat, offset_toNat,
    Nat.shiftLeft_eq]
  omega

/-- The table at this address has consecutive pages, from `base` on, which allow the access. -/
structure Linear (mem : Mem) (table base : BitVec 32) (a : Access) : Prop where
  frame : ∀ va, frame (entry mem table (tableIndex va)) = base + tableIndex va <<< 12
  allows : ∀ va, Allows (entry mem table (tableIndex va)) a

variable {mem : Mem} {cr3 table base va : BitVec 32} {a : Access}

/-- **A table of consecutive pages maps them as they are.** -/
theorem walk_linear (hdir : frame (entry mem (frame cr3) (dirIndex va)) = table)
    (hallows : Allows (entry mem (frame cr3) (dirIndex va)) a) (h : Linear mem table base a) :
    walk mem cr3 a va = some (base + (va &&& 0x3FFFFF)) := by
  simp only [walk, if_pos hallows, hdir, if_pos (h.allows va), h.frame va, ← page_add_offset,
    BitVec.add_assoc]

theorem walk_of_not_allows (h : ¬ Allows (entry mem (frame cr3) (dirIndex va)) a) :
    walk mem cr3 a va = none := if_neg h

end JosKernel.Paging
