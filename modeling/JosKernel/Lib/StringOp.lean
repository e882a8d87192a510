import JosKernel.Lib.Move

/-!
# The string instructions of the x86

`movsb`, `movsl`, `stosb` and `stosl` with the prefix `rep`, by their meaning in the
architecture: each works on one byte or one double word at `%edi` and `%esi`, and moves the
pointers up, or down if the direction flag is set.  `rep` repeats the instruction `%ecx`
times.  A double word is read before it is written.
-/

namespace JosKernel

/-- What the string instructions read and write. -/
structure StringRegs where
  mem : Mem
  edi : BitVec 32
  esi : BitVec 32
  ecx : BitVec 32
  eax : BitVec 32
  /-- The direction flag. -/
  df : Bool

namespace StringRegs

def cld (r : StringRegs) : StringRegs := { r with df := false }

def std (r : StringRegs) : StringRegs := { r with df := true }

/-- A pointer after an instruction on `u` bytes. -/
def advance (r : StringRegs) (u : Nat) (p : BitVec 32) : BitVec 32 :=
  if r.df then p - BitVec.ofNat 32 u else p + BitVec.ofNat 32 u

/-- `movs` on `u` bytes. -/
def movs (u : Nat) (r : StringRegs) : StringRegs :=
  { r with
    mem := r.mem.storeAll r.edi (r.mem.bytesAt r.esi u)
    edi := r.advance u r.edi
    esi := r.advance u r.esi }

def movsb : StringRegs → StringRegs := movs 1

def movsl : StringRegs → StringRegs := movs 4

/-- `stos` of some bytes of `%eax`. -/
def stos (bytes : BitVec 32 → List Byte) (r : StringRegs) : StringRegs :=
  { r with
    mem := r.mem.storeAll r.edi (bytes r.eax)
    edi := r.advance (bytes r.eax).length r.edi }

/-- The bytes of a double word, the lowest first. -/
def leBytes (w : BitVec 32) : List Byte :=
  [w.setWidth 8, (w >>> 8).setWidth 8, (w >>> 16).setWidth 8, (w >>> 24).setWidth 8]

def stosb : StringRegs → StringRegs := stos fun w ↦ [w.setWidth 8]

def stosl : StringRegs → StringRegs := stos leBytes

/-- The prefix `rep`. -/
def rep (op : StringRegs → StringRegs) (r : StringRegs) : StringRegs :=
  if r.ecx = 0 then r else rep op { op r with ecx := r.ecx - 1 }
termination_by r.ecx.toNat
decreasing_by bv_omega

variable {op : StringRegs → StringRegs} {u : Nat}

theorem rep_zero {r : StringRegs} (h : r.ecx = 0) : rep op r = r := by rw [rep, if_pos h]

theorem rep_succ {r : StringRegs} (h : r.ecx ≠ 0) :
    rep op r = rep op { op r with ecx := r.ecx - 1 } := by
  rw [rep, if_neg h]

theorem rep_movs_df (u : Nat) (r : StringRegs) : (rep (movs u) r).df = r.df := by
  by_cases hzero : r.ecx = 0
  · rw [rep_zero hzero]
  · rw [rep_succ hzero]
    exact rep_movs_df u { movs u r with ecx := r.ecx - 1 }
termination_by r.ecx.toNat
decreasing_by bv_omega

/-- A count of bytes as one of double words. -/
theorem toNat_div_four {n : BitVec 32} (h : n % 4 = 0) : n.toNat = 4 * (n / 4).toNat := by
  have hmod : n.toNat % 4 = 0 := congrArg BitVec.toNat h
  have hdiv : (n / 4).toNat = n.toNat / 4 := BitVec.toNat_udiv
  omega

/-- All units but the first one. -/
theorem mul_toNat_of_ne_zero {c : BitVec 32} (h : c ≠ 0) (u : Nat) :
    u * c.toNat = u * (c - 1).toNat + u := by
  have hpos : c.toNat = (c - 1).toNat + 1 := by bv_omega
  rw [hpos, Nat.mul_succ]

theorem mul_toNat_of_eq_zero {c : BitVec 32} (h : c = 0) (u : Nat) : u * c.toNat = 0 := by
  rw [h]
  exact Nat.mul_zero u

/-! ## Copies -/

/-- `rep movs` with the direction flag clear. -/
theorem rep_movs_forward {r : StringRegs} (hdf : r.df = false) {n : Nat}
    (hn : n = u * r.ecx.toNat) (hlt : n < 2 ^ 32) (hsafe : Mem.ForwardSafe r.edi r.esi n) :
    (rep (movs u) r).mem = r.mem.move r.edi r.esi n := by
  by_cases hzero : r.ecx = 0
  · rw [rep_zero hzero, hn, mul_toNat_of_eq_zero hzero, Mem.move_zero]
  · rw [mul_toNat_of_ne_zero hzero, Nat.add_comm] at hn
    have hrest : { movs u r with ecx := r.ecx - 1 } =
        ({ mem := r.mem.move r.edi r.esi u, edi := r.edi + BitVec.ofNat 32 u,
            esi := r.esi + BitVec.ofNat 32 u, ecx := r.ecx - 1, eax := r.eax, df := false } :
          StringRegs) := by
      simp only [movs, advance, hdf, Bool.false_eq_true, if_false]
      rw [Mem.storeAll_bytesAt (by omega)]
    rw [hn] at hsafe hlt
    have hless : u * (r.ecx - 1).toNat < 2 ^ 32 := by omega
    have hrec (m : Mem) :
        (rep (movs u) ⟨m, r.edi + BitVec.ofNat 32 u, r.esi + BitVec.ofNat 32 u, r.ecx - 1, r.eax,
            false⟩).mem =
          m.move (r.edi + BitVec.ofNat 32 u) (r.esi + BitVec.ofNat 32 u) (u * (r.ecx - 1).toNat) :=
      rep_movs_forward
        (r := ⟨m, r.edi + BitVec.ofNat 32 u, r.esi + BitVec.ofNat 32 u, r.ecx - 1, r.eax, false⟩)
        rfl rfl hless hsafe.rest
    rw [rep_succ hzero, hrest, hrec, Mem.move_forward hsafe hlt, hn]
termination_by r.ecx.toNat
decreasing_by bv_omega

/-- `rep movs` with the direction flag set.  The pointers start at the last unit. -/
theorem rep_movs_backward {r : StringRegs} (hdf : r.df = true) {n : Nat}
    (hn : n = u * r.ecx.toNat) (hlt : n < 2 ^ 32) {d s : BitVec 32}
    (hd : r.edi = d + BitVec.ofNat 32 n - BitVec.ofNat 32 u)
    (hs : r.esi = s + BitVec.ofNat 32 n - BitVec.ofNat 32 u) (hsafe : Mem.BackwardSafe d s n) :
    (rep (movs u) r).mem = r.mem.move d s n := by
  by_cases hzero : r.ecx = 0
  · rw [rep_zero hzero, hn, mul_toNat_of_eq_zero hzero, Mem.move_zero]
  · rw [mul_toNat_of_ne_zero hzero] at hn
    have hlast : ∀ a : BitVec 32, a + BitVec.ofNat 32 n - BitVec.ofNat 32 u =
        a + BitVec.ofNat 32 (u * (r.ecx - 1).toNat) := by
      intro a
      rw [hn, BitVec.ofNat_add]
      grind
    rw [hlast] at hd hs
    have hrest : { movs u r with ecx := r.ecx - 1 } =
        ({ mem := r.mem.move r.edi r.esi u, edi := r.edi - BitVec.ofNat 32 u,
            esi := r.esi - BitVec.ofNat 32 u, ecx := r.ecx - 1, eax := r.eax, df := true } :
          StringRegs) := by
      simp only [movs, advance, hdf, if_true]
      rw [Mem.storeAll_bytesAt (by omega)]
    rw [hn] at hsafe hlt
    have hless : u * (r.ecx - 1).toNat < 2 ^ 32 := by omega
    have hrec (m : Mem) :
        (rep (movs u) ⟨m, r.edi - BitVec.ofNat 32 u, r.esi - BitVec.ofNat 32 u, r.ecx - 1, r.eax,
            true⟩).mem = m.move d s (u * (r.ecx - 1).toNat) :=
      rep_movs_backward
        (r := ⟨m, r.edi - BitVec.ofNat 32 u, r.esi - BitVec.ofNat 32 u, r.ecx - 1, r.eax, true⟩)
        rfl rfl hless (by rw [← hd]) (by rw [← hs]) hsafe.rest
    rw [rep_succ hzero, hrest, hrec, hd, hs, Mem.move_backward hsafe hlt, hn]
termination_by r.ecx.toNat
decreasing_by bv_omega

/-! ## Fills -/

/-- `rep stos` with the direction flag clear, of bytes that are all the same. -/
theorem rep_stos {bytes : BitVec 32 → List Byte} {b : Byte} {r : StringRegs}
    (hbytes : bytes r.eax = List.replicate u b) (hdf : r.df = false) {n : Nat}
    (hn : n = u * r.ecx.toNat) (hlt : n < 2 ^ 32) :
    (rep (stos bytes) r).mem = r.mem.fill r.edi n b := by
  by_cases hzero : r.ecx = 0
  · rw [rep_zero hzero, hn, mul_toNat_of_eq_zero hzero, Mem.fill_zero]
  · rw [mul_toNat_of_ne_zero hzero, Nat.add_comm] at hn
    have hrest : { stos bytes r with ecx := r.ecx - 1 } =
        ({ mem := r.mem.fill r.edi u b, edi := r.edi + BitVec.ofNat 32 u, esi := r.esi,
            ecx := r.ecx - 1, eax := r.eax, df := false } : StringRegs) := by
      simp only [stos, hbytes, advance, hdf, Bool.false_eq_true, if_false, List.length_replicate]
      rw [Mem.storeAll_replicate (by omega)]
    rw [hn] at hlt
    have hless : u * (r.ecx - 1).toNat < 2 ^ 32 := by omega
    have hrec (m : Mem) (a : BitVec 32) :
        (rep (stos bytes) ⟨m, a, r.esi, r.ecx - 1, r.eax, false⟩).mem =
          m.fill a (u * (r.ecx - 1).toNat) b :=
      rep_stos (r := ⟨m, a, r.esi, r.ecx - 1, r.eax, false⟩) hbytes rfl rfl hless
    rw [rep_succ hzero, hrest, hrec, Mem.fill_append hlt, hn]
termination_by r.ecx.toNat
decreasing_by bv_omega

end StringRegs

end JosKernel
