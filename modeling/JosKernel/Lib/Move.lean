import JosKernel.Lib.Memory

/-!
# Copying and filling memory

`Mem.move` is memory after a copy that reads everything before it writes anything, and
`Mem.fill` is memory after a fill.  A fill falls into fills of adjacent parts
(`Mem.fill_append`).  A copy that may overlap itself falls into copies of its parts in one
of two orders: from the first byte on (`Mem.move_forward`), unless the target starts
within the source behind its first byte, and from the last byte on (`Mem.move_backward`),
unless the source starts within the target behind its first byte.

All addresses wrap, and only the distance from source to target matters.
-/

namespace JosKernel.Mem

/-- Memory after the `n` bytes from `s` on have been copied to `d`. -/
def move (mem : Mem) (d s : BitVec 32) (n : Nat) : Mem :=
  fun x ↦ if (x - d).toNat < n then mem (s + (x - d)) else mem x

/-- Memory after the `n` bytes from `a` on have been set to `b`. -/
def fill (mem : Mem) (a : BitVec 32) (n : Nat) (b : Byte) : Mem :=
  fun x ↦ if (x - a).toNat < n then b else mem x

variable {mem : Mem} {a d s x : BitVec 32} {m n u : Nat} {b : Byte}

theorem move_of_lt (h : (x - d).toNat < n) : mem.move d s n x = mem (s + (x - d)) := if_pos h

theorem move_of_le (h : n ≤ (x - d).toNat) : mem.move d s n x = mem x := if_neg (by omega)

theorem fill_of_lt (h : (x - a).toNat < n) : mem.fill a n b x = b := if_pos h

theorem fill_of_le (h : n ≤ (x - a).toNat) : mem.fill a n b x = mem x := if_neg (by omega)

@[simp] theorem move_zero (mem : Mem) (d s : BitVec 32) : mem.move d s 0 = mem := rfl

@[simp] theorem fill_zero (mem : Mem) (a : BitVec 32) (b : Byte) : mem.fill a 0 b = mem := rfl

/-! ## A few bytes at a time -/

/-- The bytes that are loaded are stored. -/
theorem storeAll_bytesAt (hn : n ≤ 2 ^ 32) (mem : Mem) (d s : BitVec 32) :
    mem.storeAll d (mem.bytesAt s n) = mem.move d s n := by
  have hlen : (mem.bytesAt s n).length = n := by rw [bytesAt, List.length_map, List.length_range]
  funext x
  rw [storeAll_apply (by omega)]
  by_cases hx : (x - d).toNat < n
  · rw [move_of_lt hx, bytesAt, List.getElem?_map, List.getElem?_range hx, Option.map_some,
      Option.getD_some, bytesFrom, BitVec.ofNat_toNat, BitVec.setWidth_eq]
  · rw [move_of_le (by omega), List.getElem?_eq_none (by omega), Option.getD_none]

theorem storeAll_replicate (hn : n ≤ 2 ^ 32) (mem : Mem) (a : BitVec 32) (b : Byte) :
    mem.storeAll a (List.replicate n b) = mem.fill a n b := by
  funext x
  rw [storeAll_apply (by rwa [List.length_replicate])]
  by_cases hx : (x - a).toNat < n
  · rw [fill_of_lt hx, List.getElem?_replicate_of_lt hx, Option.getD_some]
  · rw [fill_of_le (by omega), List.getElem?_eq_none (by rw [List.length_replicate]; omega),
      Option.getD_none]

/-- One byte is copied by a load and a store. -/
theorem store_eq_move (mem : Mem) (d s : BitVec 32) : mem.store d (mem s) = mem.move d s 1 := by
  have hbytes : mem.bytesAt s 1 = [mem s] := by simp [bytesAt, bytesFrom]
  rw [← storeAll_bytesAt (by decide), hbytes]
  rfl

theorem store_eq_fill (mem : Mem) (a : BitVec 32) (b : Byte) : mem.store a b = mem.fill a 1 b :=
  storeAll_replicate (n := 1) (by decide) mem a b

/-! ## Parts -/

/-- An offset behind a first part of `m` bytes. -/
theorem offset_of_le {y : BitVec 32} (h : m ≤ y.toNat) :
    (y - BitVec.ofNat 32 m).toNat = y.toNat - m := by bv_omega

/-- An offset in the first part is far behind everything else. -/
theorem offset_of_lt {y : BitVec 32} (h : y.toNat < m) (hm : m < 2 ^ 32) :
    (y - BitVec.ofNat 32 m).toNat = y.toNat + (2 ^ 32 - m) := by bv_omega

/-- One part, and then the next. -/
theorem fill_append (h : m + n < 2 ^ 32) :
    (mem.fill a m b).fill (a + BitVec.ofNat 32 m) n b = mem.fill a (m + n) b := by
  funext x
  have hoffset : x - (a + BitVec.ofNat 32 m) = x - a - BitVec.ofNat 32 m := by grind
  by_cases hfirst : (x - a).toNat < m
  · have hafter := offset_of_lt hfirst (by omega)
    rw [fill_of_le (by rw [hoffset]; omega), fill_of_lt hfirst, fill_of_lt (by omega)]
  · have hafter := offset_of_le (not_lt.mp hfirst)
    by_cases hsecond : (x - a).toNat < m + n
    · rw [fill_of_lt (by rw [hoffset]; omega), fill_of_lt hsecond]
    · rw [fill_of_le (by rw [hoffset]; omega), fill_of_le (by omega), fill_of_le (by omega)]

/-- A fill changes nothing if all the bytes are set already. -/
theorem fill_eq_self_iff (hn : n ≤ 2 ^ 32) :
    mem.fill a n b = mem ↔ ∀ k < n, mem (a + BitVec.ofNat 32 k) = b := by
  constructor
  · intro h k hk
    have hoffset : (a + BitVec.ofNat 32 k - a).toNat = k := by bv_omega
    rw [← h, fill_of_lt (by omega)]
  · intro h
    funext x
    by_cases hx : (x - a).toNat < n
    · have hk := h _ hx
      have hsum : a + (x - a) = x := by grind
      rw [BitVec.ofNat_toNat, BitVec.setWidth_eq, hsum] at hk
      rw [fill_of_lt hx, hk]
    · rw [fill_of_le (by omega)]

/-- Copying from the first byte on is right if the target starts at the source or outside
of it. -/
def ForwardSafe (d s : BitVec 32) (n : Nat) : Prop := (d - s).toNat = 0 ∨ n ≤ (d - s).toNat

/-- Copying from the last byte on is right if the source starts at the target or outside
of it. -/
def BackwardSafe (d s : BitVec 32) (n : Nat) : Prop := (d - s).toNat + n ≤ 2 ^ 32

/-- The first part, and then the rest. -/
theorem move_forward (h : ForwardSafe d s (u + n)) (hlt : u + n < 2 ^ 32) :
    (mem.move d s u).move (d + BitVec.ofNat 32 u) (s + BitVec.ofNat 32 u) n =
      mem.move d s (u + n) := by
  unfold ForwardSafe at h
  funext x
  have hoffset : x - (d + BitVec.ofNat 32 u) = x - d - BitVec.ofNat 32 u := by grind
  have hsrc : s + BitVec.ofNat 32 u + (x - (d + BitVec.ofNat 32 u)) = s + (x - d) := by grind
  have hback : s + (x - d) - d = x - d - (d - s) := by grind
  by_cases hfirst : (x - d).toNat < u
  · have hafter := offset_of_lt hfirst (by omega)
    rw [move_of_le (by rw [hoffset]; omega), move_of_lt hfirst, move_of_lt (by omega)]
  · have hafter := offset_of_le (not_lt.mp hfirst)
    by_cases hrest : (x - d).toNat < u + n
    -- the rest of the source has not been written to
    · have hkept : u ≤ (s + (x - d) - d).toNat := by
        rw [hback, BitVec.toNat_sub]
        omega
      rw [move_of_lt (by rw [hoffset]; omega), hsrc, move_of_le hkept, move_of_lt hrest]
    · rw [move_of_le (by rw [hoffset]; omega), move_of_le (by omega), move_of_le (by omega)]

/-- The last part, and then the rest. -/
theorem move_backward (h : BackwardSafe d s (n + u)) (hlt : n + u < 2 ^ 32) :
    (mem.move (d + BitVec.ofNat 32 n) (s + BitVec.ofNat 32 n) u).move d s n =
      mem.move d s (n + u) := by
  unfold BackwardSafe at h
  funext x
  have hoffset : x - (d + BitVec.ofNat 32 n) = x - d - BitVec.ofNat 32 n := by grind
  have hsrc : s + BitVec.ofNat 32 n + (x - (d + BitVec.ofNat 32 n)) = s + (x - d) := by grind
  have hback : s + (x - d) - (d + BitVec.ofNat 32 n) = x - d - (d - s) - BitVec.ofNat 32 n := by
    grind
  by_cases hrest : (x - d).toNat < n
  · have hkept : u ≤ (s + (x - d) - (d + BitVec.ofNat 32 n)).toNat := by
      have hn : (BitVec.ofNat 32 n).toNat = n := by
        rw [BitVec.toNat_ofNat]
        omega
      rw [hback, BitVec.toNat_sub, BitVec.toNat_sub, hn]
      omega
    rw [move_of_lt hrest, move_of_le hkept, move_of_lt (by omega)]
  · have hafter := offset_of_le (not_lt.mp hrest)
    by_cases hlast : (x - d).toNat < n + u
    · rw [move_of_le (by omega), move_of_lt (by rw [hoffset]; omega), hsrc, move_of_lt hlast]
    · rw [move_of_le (by omega), move_of_le (by rw [hoffset]; omega), move_of_le (by omega)]

/-- The rest of a copy from the first byte on. -/
theorem ForwardSafe.rest (h : ForwardSafe d s (u + n)) :
    ForwardSafe (d + BitVec.ofNat 32 u) (s + BitVec.ofNat 32 u) n := by
  have hdist : d + BitVec.ofNat 32 u - (s + BitVec.ofNat 32 u) = d - s := by grind
  unfold ForwardSafe at h ⊢
  rw [hdist]
  omega

/-- The rest of a copy from the last byte on. -/
theorem BackwardSafe.rest (h : BackwardSafe d s (n + u)) : BackwardSafe d s n := by
  unfold BackwardSafe at h ⊢
  omega

/-! ## One byte at a time -/

/-- The first byte, and then the rest. -/
theorem move_store_first (h : ForwardSafe d s (1 + n)) (hlt : 1 + n < 2 ^ 32) :
    (mem.store d (mem s)).move (d + 1) (s + 1) n = mem.move d s (1 + n) := by
  rw [store_eq_move]
  exact move_forward h hlt

/-- The last byte, and then the rest. -/
theorem move_store_last (h : BackwardSafe d s (n + 1)) (hlt : n + 1 < 2 ^ 32) :
    (mem.store (d + BitVec.ofNat 32 n) (mem (s + BitVec.ofNat 32 n))).move d s n =
      mem.move d s (n + 1) := by
  rw [store_eq_move]
  exact move_backward h hlt

/-- The first byte, and then the rest. -/
theorem fill_store_first (h : 1 + n < 2 ^ 32) :
    (mem.store a b).fill (a + 1) n b = mem.fill a (1 + n) b := by
  rw [store_eq_fill]
  exact fill_append h

end JosKernel.Mem
