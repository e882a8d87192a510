import JosKernel.Boot.Main
import JosKernel.Lib.StringOp

/-!
# The boot loader and its drive

`readsect` talks to an IDE drive through its ports.  The model of `Boot/Main` takes the drive
for the bytes of its sectors, and `waitdisk` for nothing.  Here the boot loader is once more
what it is in the source, a program that reads and writes ports, and it does with any drive
what it does with the bytes of the drive (`bootmain_refines`).

## The model

* A drive is busy for a while after each command: for how many reads of its status, is open.
  As long as it is busy it ignores what is written to its ports, and its data port is
  undefined: all bits are set.
* It knows one command, to read as many sectors as the count says, where 0 stands for 256.
* It is the only drive: the bits that select one are not looked at.
-/

namespace JosKernel.Boot

/-! ## The drive -/

/-- An IDE drive. -/
structure Drive where
  disk : Disk
  /-- The sector count. -/
  count : Byte
  /-- The sector number. -/
  ports : SectorPorts
  /-- How many more reads of the status find the drive busy. -/
  busy : Nat
  /-- What is still to be read of the sectors. -/
  data : List Byte
  /-- For how many reads of the status the commands to come keep it busy. -/
  delays : Nat → Nat

/-- The bytes of a sector. -/
def sectorBytes (disk : Disk) (k : Nat) : List Byte :=
  (List.range sectsize).map fun i ↦ disk (sectsize * k + i)

namespace Drive

/-- The number of sectors that the count stands for. -/
def sectors (d : Drive) : Nat := if d.count = 0 then 256 else d.count.toNat

/-- The command `0x20`. -/
def readSectors (d : Drive) : Drive :=
  { d with
    data := (List.range d.sectors).flatMap fun k ↦ sectorBytes d.disk (d.ports.number.toNat + k)
    busy := d.delays 0
    delays := fun n ↦ d.delays (n + 1) }

/-- A write to a port of a drive that is not busy. -/
def write (port : BitVec 16) (b : Byte) (d : Drive) : Drive :=
  if port = 0x1F2 then { d with count := b }
  else if port = 0x1F3 then { d with ports := { d.ports with port1F3 := b } }
  else if port = 0x1F4 then { d with ports := { d.ports with port1F4 := b } }
  else if port = 0x1F5 then { d with ports := { d.ports with port1F5 := b } }
  else if port = 0x1F6 then { d with ports := { d.ports with port1F6 := b } }
  else if port = 0x1F7 ∧ b = 0x20 then d.readSectors
  else d

/-- `outb(port, b)`. -/
def outb (port : BitVec 16) (b : Byte) (d : Drive) : Drive :=
  if 0 < d.busy then d else d.write port b

/-- The status: busy, or ready and perhaps with data. -/
def status (d : Drive) : Byte :=
  if 0 < d.busy then 0x80 else if d.data = [] then 0x40 else 0x48

/-- `inb(0x1F7)`. -/
def inStatus (d : Drive) : Byte × Drive := (d.status, { d with busy := d.busy - 1 })

/-- The next double word at the data port. -/
def inData (d : Drive) : List Byte × Drive :=
  if 0 < d.busy then ([0xFF, 0xFF, 0xFF, 0xFF], d)
  else ((d.data.take 4).rightpad 4 0xFF, { d with data := d.data.drop 4 })

theorem busy_of_status {d : Drive} (h : d.status &&& 0xC0 ≠ 0x40) : 0 < d.busy := by
  by_contra hbusy
  rw [status, if_neg hbusy] at h
  split_ifs at h <;> exact h (by decide)

end Drive

/-! ## The code -/

namespace Io

/-- `waitdisk()`. -/
def waitdisk (d : Drive) : Drive :=
  if _h : d.inStatus.1 &&& 0xC0 ≠ 0x40 then waitdisk d.inStatus.2 else d.inStatus.2
termination_by d.busy
decreasing_by
  have := Drive.busy_of_status _h
  simp only [Drive.inStatus]
  omega

/-- `insl(0x1F0, addr, cnt)`. -/
def insl : Nat → BitVec 32 → Drive × Mem → Drive × Mem
  | 0, _, s => s
  | cnt + 1, addr, (d, mem) => insl cnt (addr + 4) (d.inData.2, mem.storeAll addr d.inData.1)

/-- `readsect(dst, offset)`. -/
def readsect (dst offset : BitVec 32) : Drive × Mem → Drive × Mem
  | (d, mem) =>
      let d := waitdisk d
      let d := d.outb 0x1F2 1
      let d := d.outb 0x1F3 (offset.setWidth 8)
      let d := d.outb 0x1F4 ((offset >>> 8).setWidth 8)
      let d := d.outb 0x1F5 ((offset >>> 16).setWidth 8)
      let d := d.outb 0x1F6 ((offset >>> 24 ||| 0xE0).setWidth 8)
      let d := d.outb 0x1F7 0x20
      let d := waitdisk d
      insl (sectsize / 4) dst (d, mem)

/-- The loop of `readseg`. -/
def readsegLoop (endPa : BitVec 32) :
    Nat → Drive × Mem → BitVec 32 → BitVec 32 → Option (Drive × Mem)
  | 0, _, _, _ => none
  | fuel + 1, s, pa, offset =>
      if pa < endPa then
        readsegLoop endPa fuel (readsect pa offset s) (pa + BitVec.ofNat 32 sectsize) (offset + 1)
      else some s

/-- `readseg(pa, count, offset)`. -/
def readseg (fuel : Nat) (s : Drive × Mem) (pa count offset : BitVec 32) : Option (Drive × Mem) :=
  let endPa := pa + count
  let pa := pa &&& ~~~BitVec.ofNat 32 (sectsize - 1)
  let offset := offset / BitVec.ofNat 32 sectsize + 1
  readsegLoop endPa fuel s pa offset

/-- The loop that loads each program segment. -/
def bootLoop (eph : BitVec 32) : Nat → Drive × Mem → BitVec 32 → Option (Drive × Mem)
  | 0, _, _ => none
  | fuel + 1, (d, mem), ph =>
      if ph < eph then do
        let h := ElfProghdr.read (mem.bytesFrom ph)
        let s ← readseg fuel (d, mem) h.pPa h.pMemsz h.pOffset
        bootLoop eph fuel s (ph + BitVec.ofNat 32 proghdrSize)
      else some (d, mem)

/-- `bootmain`, and the drive and the memory it leaves. -/
def bootmain (fuel : Nat) (s : Drive × Mem) : Option (Outcome × Drive × Mem) := do
  let (d, mem) ← readseg fuel s elfhdr (BitVec.ofNat 32 (sectsize * 8)) 0
  let elf := Elf.read (mem.bytesFrom elfhdr)
  if elf.eMagic ≠ elfMagic then
    return (.bad, d, mem)
  let ph := elfhdr + elf.ePhoff
  let eph := ph + elf.ePhnum.setWidth 32 * BitVec.ofNat 32 proghdrSize
  let (d, mem) ← bootLoop eph fuel (d, mem) ph
  return (.jump (Elf.read (mem.bytesFrom elfhdr)).eEntry, d, mem)

end Io

/-! ## One sector -/

section

variable {d : Drive} {mem : Mem}

/-- The drive once it is not busy any more. -/
def Drive.ready (d : Drive) : Drive := { d with busy := 0 }

@[simp] theorem Drive.ready_data (d : Drive) : d.ready.data = d.data := rfl

/-- The wait ends, and the drive is as it was but for being busy. -/
theorem waitdisk_eq (d : Drive) : Io.waitdisk d = d.ready := by
  rw [Io.waitdisk]
  by_cases hbusy : 0 < d.busy
  · have hstatus : d.inStatus.1 = 0x80 := if_pos hbusy
    have hlt : d.busy - 1 < d.busy := by omega
    rw [hstatus, dif_pos (by decide), waitdisk_eq]
    rfl
  · obtain hzero : d.busy = 0 := by omega
    have hready : ¬ d.inStatus.1 &&& 0xC0 ≠ 0x40 := fun h ↦ hbusy (Drive.busy_of_status h)
    rw [dif_neg hready, Drive.inStatus, hzero]
    rfl
termination_by d.busy

/-- The next bytes of the data are put into memory. -/
theorem insl_eq (hbusy : d.busy = 0) {bs rest : List Byte} (hdata : d.data = bs ++ rest) {n : Nat}
    (hlen : bs.length = 4 * n) (addr : BitVec 32) (mem : Mem) :
    Io.insl n addr (d, mem) = ({ d with data := rest }, mem.storeAll addr bs) := by
  induction n generalizing d bs addr mem with
  | zero =>
      obtain rfl := List.length_eq_zero_iff.mp hlen
      rw [List.nil_append] at hdata
      subst hdata
      rfl
  | succ n ih =>
      match bs, hlen with
      | a :: b :: c :: e :: bs, hlen =>
          simp only [List.length_cons] at hlen
          have hin : d.inData = ([a, b, c, e], { d with data := bs ++ rest }) := by
            rw [Drive.inData, if_neg (by omega), hdata]
            rfl
          have hrest := ih (d := { d with data := bs ++ rest }) hbusy rfl (by omega) (addr + 4)
            (mem.storeAll addr [a, b, c, e])
          have hsplit : mem.storeAll addr (a :: b :: c :: e :: bs) =
              (mem.storeAll addr [a, b, c, e]).storeAll (addr + 4) bs :=
            Mem.storeAll_append mem addr [a, b, c, e] bs
          rw [Io.insl, hin, hsplit]
          exact hrest

theorem length_sectorBytes (disk : Disk) (k : Nat) : (sectorBytes disk k).length = sectsize := by
  rw [sectorBytes, List.length_map, List.length_range]

/-- The command for one sector. -/
theorem readSectors_data (hcount : d.count = 1) :
    d.readSectors.data = sectorBytes d.disk d.ports.number.toNat := by
  have hone : d.sectors = 1 := by
    rw [Drive.sectors, hcount]
    rfl
  rw [Drive.readSectors, hone]
  exact List.append_nil _

theorem storeAll_sectorBytes (disk : Disk) (mem : Mem) (dst offset : BitVec 32) :
    mem.storeAll dst (sectorBytes disk (sectorPorts offset).number.toNat) =
      readsect disk mem dst offset := by
  funext x
  rw [Mem.storeAll_apply (by rw [length_sectorBytes]; decide), readsect]
  split_ifs with hx
  · rw [sectorBytes, List.getElem?_map, List.getElem?_range hx]
    rfl
  · rw [List.getElem?_eq_none (by rw [length_sectorBytes]; omega)]
    rfl

/-- The drive when it gets the command for a sector. -/
def Drive.asked (d : Drive) (offset : BitVec 32) : Drive :=
  { d with busy := 0, count := 1, ports := sectorPorts offset }

/-- The drive gets the command once it is ready. -/
theorem readsect_asked (d : Drive) (mem : Mem) (dst offset : BitVec 32) :
    Io.readsect dst offset (d, mem) =
      Io.insl (sectsize / 4) dst ((d.asked offset).readSectors.ready, mem) := by
  simp only [Io.readsect, waitdisk_eq]
  rfl

/-- **One sector.**  Whatever the drive was doing, `readsect` puts the bytes of the sector into
memory. -/
theorem readsect_eq (d : Drive) (mem : Mem) (dst offset : BitVec 32) :
    ∃ d', Io.readsect dst offset (d, mem) = (d', readsect d.disk mem dst offset) ∧
      d'.disk = d.disk := by
  have hasked : (d.asked offset).readSectors.data =
      sectorBytes d.disk (sectorPorts offset).number.toNat :=
        readSectors_data (d := d.asked offset) rfl
  have hdata : (d.asked offset).readSectors.ready.data =
      sectorBytes d.disk (sectorPorts offset).number.toNat ++ [] := by
    rw [Drive.ready_data, hasked, List.append_nil]
  have hlen : (sectorBytes d.disk (sectorPorts offset).number.toNat).length =
    4 * (sectsize / 4) := by
    rw [length_sectorBytes]
    decide
  have hinsl := insl_eq rfl hdata hlen dst mem
  rw [storeAll_sectorBytes] at hinsl
  exact ⟨_, (readsect_asked d mem dst offset).trans hinsl, rfl⟩

/-! ## The boot loader -/

/-- The same memory, and a drive with the disk. -/
def Same (disk : Disk) (s : Drive × Mem) (mem : Mem) : Prop := s.1.disk = disk ∧ s.2 = mem

variable {disk : Disk} {s : Drive × Mem}

theorem Same.readsect (h : Same disk s mem) (dst offset : BitVec 32) :
    Same disk (Io.readsect dst offset s) (readsect disk mem dst offset) := by
  obtain ⟨d, mem⟩ := s
  obtain ⟨rfl, rfl⟩ := h
  obtain ⟨d', heq, hdisk⟩ := readsect_eq d mem dst offset
  rw [heq]
  exact ⟨hdisk, rfl⟩

theorem readsegLoop_refines (h : Same disk s mem) (endPa : BitVec 32) (fuel : Nat)
    (pa offset : BitVec 32) :
    Option.Rel (Same disk) (Io.readsegLoop endPa fuel s pa offset)
      (readsegLoop disk endPa fuel mem pa offset) := by
  induction fuel generalizing s mem pa offset with
  | zero => exact .none
  | succ fuel ih =>
      rw [Io.readsegLoop, readsegLoop]
      split_ifs
      · exact ih (h.readsect pa offset) _ _
      · exact .some h

theorem readseg_refines (h : Same disk s mem) (fuel : Nat) (pa count offset : BitVec 32) :
    Option.Rel (Same disk) (Io.readseg fuel s pa count offset)
      (readseg fuel disk mem pa count offset) :=
  readsegLoop_refines h _ fuel _ _

theorem bootLoop_refines (h : Same disk s mem) (eph : BitVec 32) (fuel : Nat) (ph : BitVec 32) :
    Option.Rel (Same disk) (Io.bootLoop eph fuel s ph) (bootLoop disk eph fuel mem ph) := by
  induction fuel generalizing s mem ph with
  | zero => exact .none
  | succ fuel ih =>
      obtain ⟨d, mem⟩ := s
      obtain ⟨rfl, rfl⟩ := h
      rw [Io.bootLoop, bootLoop]
      split_ifs
      · exact Result.rel_bind (readseg_refines ⟨rfl, rfl⟩ fuel _ _ _) fun _ _ h' ↦ ih h' _
      · exact .some ⟨rfl, rfl⟩

/-- The same end, with the same memory. -/
def SameEnd (disk : Disk) (r : Outcome × Drive × Mem) (r' : Outcome × Mem) : Prop :=
  r.1 = r'.1 ∧ Same disk r.2 r'.2

/-- **The boot loader over its ports.**  Whatever the drive is doing at the start, and however
long it takes for each command: the boot loader that reads and writes the ports of the drive
ends as the one that reads the bytes of the disk does, with the same memory, or goes on for
ever as that one does. -/
theorem bootmain_refines (d : Drive) (mem : Mem) (fuel : Nat) :
    Option.Rel (SameEnd d.disk) (Io.bootmain fuel (d, mem)) (bootmain fuel d.disk mem) := by
  refine Result.rel_bind (readseg_refines ⟨rfl, rfl⟩ fuel _ _ _) ?_
  rintro ⟨d₁, mem₁⟩ _ ⟨hdisk, rfl⟩
  dsimp only
  split_ifs
  · exact .some ⟨rfl, hdisk, rfl⟩
  · refine Result.rel_bind (bootLoop_refines ⟨hdisk, rfl⟩ _ fuel _) ?_
    rintro ⟨d₂, mem₂⟩ _ ⟨hdisk₂, rfl⟩
    exact .some ⟨rfl, hdisk₂, rfl⟩

end

end JosKernel.Boot
