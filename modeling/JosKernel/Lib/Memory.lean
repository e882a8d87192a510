import JosKernel.Lib.Bytes
import Mathlib.Algebra.Ring.Nat
import Mathlib.Logic.Function.Basic
import Mathlib.Tactic.Common

/-!
# Byte-addressed memory

Memory is a function from 32-bit addresses, whose arithmetic wraps, to bytes.
-/

namespace JosKernel

/-- Memory. -/
abbrev Mem := BitVec 32 → Byte

/-- The word at an address, the lowest byte first: `*a`, where `a` is of type `int *`. -/
def loadInt (mem : Mem) (a : BitVec 32) : BitVec 32 :=
  mem (a + 3) ++ mem (a + 2) ++ mem (a + 1) ++ mem a

/-- The lowest byte of a word, and the bytes above it. -/
theorem append_byte {n : Nat} (w : BitVec n) (m : Nat) :
    (w >>> 8).setWidth m ++ w.setWidth 8 = w.setWidth (m + 8) := by
  refine BitVec.eq_of_getLsbD_eq fun i hi ↦ ?_
  simp only [BitVec.getLsbD_append, BitVec.getLsbD_setWidth, BitVec.getLsbD_ushiftRight]
  rcases Nat.lt_or_ge i 8 with hlow | hhigh
  · simp [hlow, hi]
  · have hout : ¬ i < 8 := Nat.not_lt.mpr hhigh
    have hin : i - 8 < m := by omega
    have hsum : 8 + (i - 8) = i := by omega
    simp only [hout, hin, hi, hsum, decide_false, decide_true, Bool.true_and, if_false]

theorem word_of_bytes (w : BitVec 32) :
    (w >>> 24).setWidth 8 ++ (w >>> 16).setWidth 8 ++ (w >>> 8).setWidth 8 ++ w.setWidth 8 = w := by
  have htop := append_byte (w >>> 16) 8
  have hmiddle := append_byte (w >>> 8) 16
  have hlow := append_byte w 24
  rw [← BitVec.shiftRight_add] at htop hmiddle
  rw [htop, hmiddle, hlow, BitVec.setWidth_eq]

namespace Mem

/-- The bytes of memory from `a` on. -/
def bytesFrom (mem : Mem) (a : BitVec 32) : Nat → Byte := fun k ↦ mem (a + BitVec.ofNat 32 k)

/-- The `n` bytes of memory from `a` on. -/
def bytesAt (mem : Mem) (a : BitVec 32) (n : Nat) : List Byte :=
  (List.range n).map (mem.bytesFrom a)

/-- Store one byte. -/
def store (mem : Mem) (a : BitVec 32) (b : Byte) : Mem := Function.update mem a b

/-- Store bytes from `a` on, one after another. -/
def storeAll : Mem → BitVec 32 → List Byte → Mem
  | mem, _, [] => mem
  | mem, a, b :: bs => (mem.store a b).storeAll (a + 1) bs

variable {mem : Mem} {a x : BitVec 32} {b : Byte}

@[simp] theorem store_self : mem.store a b a = b := Function.update_self ..

theorem store_of_ne (h : x ≠ a) : mem.store a b x = mem x := Function.update_of_ne h ..

/-- What is in memory after a sequence of stores that does not come back to its start. -/
theorem storeAll_apply {bs : List Byte} (h : bs.length ≤ 2 ^ 32) :
    mem.storeAll a bs x = (bs[(x - a).toNat]?).getD (mem x) := by
  induction bs generalizing mem a with
  | nil => rfl
  | cons b bs ih =>
      rw [List.length_cons] at h
      rw [storeAll, ih (by omega)]
      by_cases hx : x = a
      · subst hx
        have hlast : (x - (x + 1)).toNat = 2 ^ 32 - 1 := by bv_omega
        rw [hlast, List.getElem?_eq_none (by omega)]
        simp
      · have hsucc : (x - a).toNat = (x - (a + 1)).toNat + 1 := by bv_omega
        rw [hsucc, List.getElem?_cons_succ, store_of_ne hx]

theorem storeAll_append (mem : Mem) (a : BitVec 32) (bs bs' : List Byte) :
    mem.storeAll a (bs ++ bs') =
      (mem.storeAll a bs).storeAll (a + BitVec.ofNat 32 bs.length) bs' := by
  induction bs generalizing mem a with
  | nil => simp [storeAll]
  | cons c bs ih =>
      rw [List.cons_append, storeAll, storeAll, ih, List.length_cons, Nat.add_comm bs.length,
        BitVec.ofNat_add, ← BitVec.add_assoc]
      rfl

theorem storeAll_concat (mem : Mem) (a : BitVec 32) (bs : List Byte) (b : Byte) :
    mem.storeAll a (bs ++ [b]) = (mem.storeAll a bs).store (a + BitVec.ofNat 32 bs.length) b :=
  storeAll_append mem a bs [b]

/-- What has been stored is there, and something behind it. -/
theorem bytesAt_storeAll (mem : Mem) (a : BitVec 32) {bs : List Byte} {n : Nat}
    (h : bs.length ≤ n) (hn : n ≤ 2 ^ 32) :
    ∃ rest, (mem.storeAll a bs).bytesAt a n = bs ++ rest := by
  obtain ⟨k, rfl⟩ := Nat.exists_eq_add_of_le h
  refine ⟨(List.range k).map fun i ↦ (mem.storeAll a bs).bytesFrom a (bs.length + i), ?_⟩
  rw [bytesAt, List.range_add, List.map_append, List.map_map]
  congr 1
  refine List.ext_getElem (by rw [List.length_map, List.length_range]) ?_
  intro i hi hi'
  have hoffset : (a + BitVec.ofNat 32 i - a).toNat = i := by bv_omega
  rw [List.getElem_map, List.getElem_range, bytesFrom, storeAll_apply (by omega), hoffset,
    List.getElem?_eq_getElem hi']
  rfl

end Mem

end JosKernel
