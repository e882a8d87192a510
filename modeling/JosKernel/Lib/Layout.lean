import JosKernel.Lib.StringOp

/-!
# Structures in memory

Words and half words are stored with the lowest byte first.  What is stored is loaded again
(`loadInt_storeInt`, `loadShort_storeShort`), and a store or a fill changes its own bytes only
(`ChangesOnly`), so that bytes which are apart from these stay the same (`Keeps`).  The structures
of an array and the fields of a structure are at offsets from its start, and parts at different
offsets are apart (`apart_offsets`).
-/

namespace JosKernel

/-- The half word at an address: `*a`, where `a` is of type `uint16_t *`. -/
def loadShort (mem : Mem) (a : BitVec 32) : BitVec 16 := mem (a + 1) ++ mem a

/-- `*a = w`, where `a` is of type `int *`. -/
def storeInt (mem : Mem) (a w : BitVec 32) : Mem := mem.storeAll a (StringRegs.leBytes w)

/-- The bytes of a half word. -/
def shortBytes (w : BitVec 16) : List Byte := [w.setWidth 8, (w >>> 8).setWidth 8]

/-- `*a = w`, where `a` is of type `uint16_t *`. -/
def storeShort (mem : Mem) (a : BitVec 32) (w : BitVec 16) : Mem := mem.storeAll a (shortBytes w)

/-! ## Parts that are apart -/

/-- The `n` bytes from `a` on and the `m` bytes from `b` on. -/
def Apart (a : BitVec 32) (n : Nat) (b : BitVec 32) (m : Nat) : Prop :=
  n ≤ (b - a).toNat ∧ m ≤ (a - b).toNat

/-- The `n` bytes from `a` on are the same. -/
def Keeps (mem mem' : Mem) (a : BitVec 32) (n : Nat) : Prop :=
  ∀ k < n, mem' (a + BitVec.ofNat 32 k) = mem (a + BitVec.ofNat 32 k)

/-- All but the `n` bytes from `a` on are the same. -/
def ChangesOnly (mem mem' : Mem) (a : BitVec 32) (n : Nat) : Prop :=
  ∀ x, n ≤ (x - a).toNat → mem' x = mem x

section

variable {mem mem' mem'' : Mem} {a b : BitVec 32} {m n x y : Nat} {bs : List Byte} {c : Byte}

theorem Apart.symm (h : Apart a n b m) : Apart b m a n := ⟨h.2, h.1⟩

/-- A byte of the first is none of the second. -/
theorem Apart.le (h : Apart a n b m) (hx : x < n) : m ≤ (a + BitVec.ofNat 32 x - b).toNat := by
  obtain ⟨hab, hba⟩ := h
  have hlt := (b - a).isLt
  bv_omega

/-- Parts of a whole that does not wrap around. -/
theorem apart_offsets (hx : x + n ≤ y) (hy : y + m ≤ 2 ^ 32) (hn : 0 < n) (hm : 0 < m) :
    Apart (a + BitVec.ofNat 32 x) n (a + BitVec.ofNat 32 y) m := by
  constructor <;> bv_omega

/-- A part of what is the same. -/
theorem Keeps.part (h : Keeps mem mem' a n) (hx : x + y ≤ n) :
    Keeps mem mem' (a + BitVec.ofNat 32 x) y := by
  intro k hk
  rw [BitVec.add_assoc, ← BitVec.ofNat_add]
  exact h (x + k) (by omega)

theorem ChangesOnly.refl (mem : Mem) (a : BitVec 32) (n : Nat) : ChangesOnly mem mem a n :=
  fun _ _ ↦ rfl

theorem ChangesOnly.trans (h : ChangesOnly mem mem' a n) (h' : ChangesOnly mem' mem'' a n) :
    ChangesOnly mem mem'' a n :=
  fun x hx ↦ (h' x hx).trans (h x hx)

theorem ChangesOnly.keeps (h : ChangesOnly mem mem' b m) (hapart : Apart a n b m) :
    Keeps mem mem' a n :=
  fun _ hk ↦ h _ (hapart.le hk)

/-- A change of a part. -/
theorem ChangesOnly.whole (h : ChangesOnly mem mem' (a + BitVec.ofNat 32 x) y) (hx : x + y ≤ n) :
    ChangesOnly mem mem' a n := by
  intro z hz
  refine h z ?_
  have hlt := (z - a).isLt
  bv_omega

theorem changesOnly_storeAll (mem : Mem) (a : BitVec 32) (hlen : bs.length ≤ 2 ^ 32) :
    ChangesOnly mem (mem.storeAll a bs) a bs.length := by
  intro x hx
  rw [Mem.storeAll_apply hlen, List.getElem?_eq_none hx, Option.getD_none]

theorem changesOnly_fill (mem : Mem) (a : BitVec 32) (n : Nat) (c : Byte) :
    ChangesOnly mem (mem.fill a n c) a n :=
  fun _ hx ↦ Mem.fill_of_le hx

theorem changesOnly_storeInt (mem : Mem) (a w : BitVec 32) :
    ChangesOnly mem (storeInt mem a w) a 4 :=
  changesOnly_storeAll mem a (show 4 ≤ 2 ^ 32 by decide)

theorem changesOnly_storeShort (mem : Mem) (a : BitVec 32) (w : BitVec 16) :
    ChangesOnly mem (storeShort mem a w) a 2 :=
  changesOnly_storeAll mem a (show 2 ≤ 2 ^ 32 by decide)

/-! ## Loads -/

theorem Keeps.loadInt (h : Keeps mem mem' a 4) : loadInt mem' a = loadInt mem a := by
  have h0 := h 0 (by decide)
  have h1 : mem' (a + 1) = mem (a + 1) := h 1 (by decide)
  have h2 : mem' (a + 2) = mem (a + 2) := h 2 (by decide)
  have h3 : mem' (a + 3) = mem (a + 3) := h 3 (by decide)
  rw [show a + BitVec.ofNat 32 0 = a from BitVec.add_zero a] at h0
  rw [JosKernel.loadInt, JosKernel.loadInt, h0, h1, h2, h3]

theorem Keeps.loadShort (h : Keeps mem mem' a 2) : loadShort mem' a = loadShort mem a := by
  have h0 := h 0 (by decide)
  have h1 : mem' (a + 1) = mem (a + 1) := h 1 (by decide)
  rw [show a + BitVec.ofNat 32 0 = a from BitVec.add_zero a] at h0
  rw [JosKernel.loadShort, JosKernel.loadShort, h0, h1]

/-- A byte of what has been stored. -/
theorem storeAll_get {k : Nat} (hk : k < bs.length) (hlen : bs.length ≤ 2 ^ 32) :
    mem.storeAll a bs (a + BitVec.ofNat 32 k) = bs.get ⟨k, hk⟩ := by
  have hoffset : (a + BitVec.ofNat 32 k - a).toNat = k := by bv_omega
  rw [Mem.storeAll_apply hlen, hoffset, List.getElem?_eq_getElem hk]
  rfl

@[simp] theorem loadInt_storeInt (mem : Mem) (a w : BitVec 32) :
    loadInt (storeInt mem a w) a = w := by
  have hget : ∀ k (hk : k < 4), storeInt mem a w (a + BitVec.ofNat 32 k) =
      (StringRegs.leBytes w).get ⟨k, hk⟩ := fun k hk ↦ storeAll_get hk (show 4 ≤ 2 ^ 32 by decide)
  have h0 := hget 0 (by decide)
  have h1 : storeInt mem a w (a + 1) = _ := hget 1 (by decide)
  have h2 : storeInt mem a w (a + 2) = _ := hget 2 (by decide)
  have h3 : storeInt mem a w (a + 3) = _ := hget 3 (by decide)
  rw [show a + BitVec.ofNat 32 0 = a from BitVec.add_zero a] at h0
  rw [loadInt, h0, h1, h2, h3]
  exact word_of_bytes w

@[simp] theorem loadShort_storeShort (mem : Mem) (a : BitVec 32) (w : BitVec 16) :
    loadShort (storeShort mem a w) a = w := by
  have hget : ∀ k (hk : k < 2), storeShort mem a w (a + BitVec.ofNat 32 k) =
      (shortBytes w).get ⟨k, hk⟩ := fun k hk ↦ storeAll_get hk (show 2 ≤ 2 ^ 32 by decide)
  have h0 := hget 0 (by decide)
  have h1 : storeShort mem a w (a + 1) = _ := hget 1 (by decide)
  rw [show a + BitVec.ofNat 32 0 = a from BitVec.add_zero a] at h0
  rw [loadShort, h0, h1]
  exact (append_byte w 8).trans (BitVec.setWidth_eq w)

end

end JosKernel
