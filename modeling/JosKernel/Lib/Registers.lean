import JosKernel.Lib.Bytes
import Mathlib.Logic.Function.Basic
import Mathlib.Tactic.Common

/-!
# Registers behind two ports

Many devices of a PC have more registers than ports: one port takes the number of a register,
and the port behind it is this register.
-/

namespace JosKernel

/-- The registers of such a device. -/
structure Registers where
  /-- The number of the register at the data port. -/
  index : Byte
  value : Byte → Byte

namespace Registers

variable {base port : BitVec 16} {b i : Byte} {r : Registers}

/-- A write to a port, where the index port is `base`. -/
def write (base port : BitVec 16) (b : Byte) (r : Registers) : Registers :=
  if port = base then { r with index := b }
  else if port = base + 1 then { r with value := Function.update r.value r.index b }
  else r

/-- A read of the data port. -/
def read (r : Registers) : Byte := r.value r.index

/-- The device does not listen to other ports. -/
theorem write_of_ne (hindex : port ≠ base) (hdata : port ≠ base + 1) : r.write base port b = r := by
  rw [write, if_neg hindex, if_neg hdata]

@[simp] theorem write_index : r.write base base b = { r with index := b } := if_pos rfl

@[simp] theorem write_data :
    r.write base (base + 1) b = { r with value := Function.update r.value r.index b } := by
  have hne : base + 1 ≠ base := by
    intro h
    bv_omega
  rw [write, if_neg hne, if_pos rfl]

/-- A register is written through both ports. -/
def set (base : BitVec 16) (i b : Byte) (r : Registers) : Registers :=
  (r.write base base i).write base (base + 1) b

theorem set_eq : r.set base i b = { index := i, value := Function.update r.value i b } := by
  rw [set, write_index, write_data]

/-- What has been written is there. -/
@[simp] theorem value_set : (r.set base i b).value i = b := by
  rw [set_eq]
  exact Function.update_self ..

/-- The other registers are as they were. -/
theorem value_set_of_ne {j : Byte} (h : j ≠ i) : (r.set base i b).value j = r.value j := by
  rw [set_eq]
  exact Function.update_of_ne h ..

end Registers

end JosKernel
