/-!
# Bytes

Strings of C programs are lists of bytes.
-/

namespace JosKernel

/-- A `char` or an `unsigned char`. -/
abbrev Byte := BitVec 8

/-- The byte of an ASCII character. -/
def ascii (c : Char) : Byte := BitVec.ofNat 8 c.toNat

/-- The bytes of a list of ASCII characters. -/
def asciis (cs : List Char) : List Byte := cs.map ascii

/-- The lowest byte of a word, by a mask. -/
theorem and_0xFF_toNat (w : BitVec 32) : (w &&& 0xFF).toNat = (w.setWidth 8).toNat := by
  rw [BitVec.toNat_and, BitVec.toNat_setWidth]
  exact Nat.and_two_pow_sub_one_eq_mod w.toNat 8

end JosKernel
