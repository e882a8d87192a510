import JosKernel.Lib.Memory
import JosKernel.Lib.Result

/-!
# The boot loader

`boot/main.c` reads the first page of the kernel image, checks that it is an ELF
image, loads each program segment at its physical address and jumps to the entry
point.

## The model

* Memory and the disk are functions to bytes.  Addresses, sector numbers and the
  fields of the headers are 32-bit words, and all arithmetic on them wraps.
* The headers are read from memory, where the first page of the image has been put,
  whenever the code reads them.
* The drive gets the sector number in the bytes written to its ports and delivers
  the sector with that 28-bit number.  `waitdisk` only waits.
* The loops take fuel, since `readseg` need not end: `none` is a run that is still
  going when the fuel is used up.
-/

namespace JosKernel.Boot

/-- The bytes of the disk, sector after sector. -/
abbrev Disk := Nat → Byte

/-- `SECTSIZE`. -/
def sectsize : Nat := 512

/-- `ELFHDR`, the scratch space for the first page of the image. -/
def elfhdr : BitVec 32 := 0x10000

/-- `ELF_MAGIC`. -/
def elfMagic : BitVec 32 := 0x464C457F

/-! ## Headers -/

/-- The little-endian 32-bit word at `off`. -/
def le32 (b : Nat → Byte) (off : Nat) : BitVec 32 :=
  b (off + 3) ++ b (off + 2) ++ b (off + 1) ++ b off

/-- The little-endian 16-bit word at `off`. -/
def le16 (b : Nat → Byte) (off : Nat) : BitVec 16 := b (off + 1) ++ b off

/-- The fields of `struct elf` that the boot loader reads. -/
structure Elf where
  eMagic : BitVec 32
  eEntry : BitVec 32
  ePhoff : BitVec 32
  ePhnum : BitVec 16
deriving DecidableEq, Repr

/-- The `struct elf` in the bytes `b`. -/
def Elf.read (b : Nat → Byte) : Elf :=
  { eMagic := le32 b 0, eEntry := le32 b 24, ePhoff := le32 b 28, ePhnum := le16 b 44 }

/-- The fields of `struct elf_proghdr` that the boot loader reads, and `p_filesz`. -/
structure ElfProghdr where
  pOffset : BitVec 32
  pPa : BitVec 32
  pFilesz : BitVec 32
  pMemsz : BitVec 32
deriving DecidableEq, Repr

/-- The `struct elf_proghdr` in the bytes `b`. -/
def ElfProghdr.read (b : Nat → Byte) : ElfProghdr :=
  { pOffset := le32 b 4, pPa := le32 b 12, pFilesz := le32 b 16, pMemsz := le32 b 20 }

/-- `sizeof(struct elf_proghdr)`. -/
def proghdrSize : Nat := 32

/-! ## Reading the disk -/

/-- The bytes that `readsect` writes to the ports `0x1F3` to `0x1F6`. -/
structure SectorPorts where
  port1F3 : Byte
  port1F4 : Byte
  port1F5 : Byte
  port1F6 : Byte
deriving DecidableEq, Repr

def sectorPorts (offset : BitVec 32) : SectorPorts :=
  { port1F3 := offset.setWidth 8
    port1F4 := (offset >>> 8).setWidth 8
    port1F5 := (offset >>> 16).setWidth 8
    port1F6 := ((offset >>> 24) ||| 0xE0).setWidth 8 }

/-- The 28-bit sector number that the drive finds in its ports; the upper half of
the last one selects the drive. -/
def SectorPorts.number (p : SectorPorts) : BitVec 28 :=
  p.port1F6.setWidth 4 ++ p.port1F5 ++ p.port1F4 ++ p.port1F3

/-- `readsect(dst, offset)`. -/
def readsect (disk : Disk) (mem : Mem) (dst offset : BitVec 32) : Mem := fun x ↦
  if (x - dst).toNat < sectsize then
    disk (sectsize * (sectorPorts offset).number.toNat + (x - dst).toNat)
  else mem x

/-- The loop of `readseg`. -/
def readsegLoop (disk : Disk) (endPa : BitVec 32) :
    Nat → Mem → BitVec 32 → BitVec 32 → Option Mem
  | 0, _, _, _ => none
  | fuel + 1, mem, pa, offset =>
      if pa < endPa then
        readsegLoop disk endPa fuel (readsect disk mem pa offset) (pa + BitVec.ofNat 32 sectsize)
          (offset + 1)
      else some mem

/-- `readseg(pa, count, offset)`. -/
def readseg (fuel : Nat) (disk : Disk) (mem : Mem) (pa count offset : BitVec 32) : Option Mem :=
  let endPa := pa + count
  let pa := pa &&& ~~~BitVec.ofNat 32 (sectsize - 1)
  -- translate from bytes to sectors, and kernel starts at sector 1
  let offset := offset / BitVec.ofNat 32 sectsize + 1
  readsegLoop disk endPa fuel mem pa offset

/-! ## `bootmain` -/

/-- How `bootmain` ends. -/
inductive Outcome where
  /-- The jump to the entry point. -/
  | jump (entry : BitVec 32)
  /-- The endless loop at `bad`. -/
  | bad
deriving DecidableEq, Repr

/-- The loop that loads each program segment. -/
def bootLoop (disk : Disk) (eph : BitVec 32) : Nat → Mem → BitVec 32 → Option Mem
  | 0, _, _ => none
  | fuel + 1, mem, ph =>
      if ph < eph then do
        let h := ElfProghdr.read (mem.bytesFrom ph)
        let mem ← readseg fuel disk mem h.pPa h.pMemsz h.pOffset
        bootLoop disk eph fuel mem (ph + BitVec.ofNat 32 proghdrSize)
      else some mem

/-- `bootmain`, and the memory it leaves. -/
def bootmain (fuel : Nat) (disk : Disk) (mem : Mem) : Option (Outcome × Mem) := do
  let mem ← readseg fuel disk mem elfhdr (BitVec.ofNat 32 (sectsize * 8)) 0
  let elf := Elf.read (mem.bytesFrom elfhdr)
  if elf.eMagic ≠ elfMagic then
    return (.bad, mem)
  let ph := elfhdr + elf.ePhoff
  let eph := ph + elf.ePhnum.setWidth 32 * BitVec.ofNat 32 proghdrSize
  let mem ← bootLoop disk eph fuel mem ph
  return (.jump (Elf.read (mem.bytesFrom elfhdr)).eEntry, mem)

end JosKernel.Boot
