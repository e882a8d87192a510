import JosKernel.Pmap.Address
import JosKernel.Pmap.PageInfo
import JosKernel.Strings.Memset
import Mathlib.Data.Fintype.Card

/-!
# Checking the free list

`check_page_free_list` reorders the free list, writes over the start of each page that can be
reached, and then walks through the list with its assertions.  What it finds for a list in the
array is a matter of the pages in it alone (`check_refines`); and whatever is in memory, a list
that it accepts is one of different entries of the array, with no page that must not be free
(`check_sound`).

## The model

* The code of the kernel, its variables and its stack are not in the memory.
* A failed assertion is a constructor, and a walk that has not ended after some steps is
  `endless`.
* `memset` is the one with string instructions, and the other registers hold anything.
-/

namespace JosKernel.Pmap

/-! ## The code -/

/-- `IOPHYSMEM`. -/
def ioPhysMem : BitVec 32 := 0x0A0000

/-- The assertions of `check_page_free_list`. -/
inductive Assertion where
  /-- `pp >= pages`. -/
  | fromPages
  /-- `pp < pages + npages`. -/
  | inPages
  /-- `((char *) pp - (char *) pages) % sizeof(*pp) == 0`. -/
  | atEntry
  /-- `page2pa(pp) != 0`. -/
  | notZero
  /-- `page2pa(pp) != IOPHYSMEM`. -/
  | notIo
  /-- `page2pa(pp) != EXTPHYSMEM - PGSIZE`. -/
  | notBios
  /-- `page2pa(pp) != EXTPHYSMEM`. -/
  | notKernel
  /-- `page2pa(pp) < EXTPHYSMEM || (char *) page2kva(pp) >= first_free_page`. -/
  | notAllocated
  /-- `nfree_basemem > 0`. -/
  | someBase
  /-- `nfree_extmem > 0`. -/
  | someExt
deriving DecidableEq, Repr

/-- Why the check does not return. -/
inductive Refusal where
  /-- `"'page_free_list' is a null pointer!"`. -/
  | null
  /-- `"assertion failed: %s"`. -/
  | failed (a : Assertion)
  | panic (p : Panic)
  | endless
deriving DecidableEq, Repr

/-- `assert(x)`. -/
def assert (x : Prop) [Decidable x] (a : Assertion) : Except Refusal Unit :=
  if x then .ok () else .error (.failed a)

/-- A call that can panic. -/
def orPanic {α : Type} (x : Except Panic α) : Except Refusal α := x.mapError .panic

/-- `boot_alloc(n)`: what it returns, and `nextfree`. -/
def bootAlloc (finish nextfree _n : BitVec 32) : BitVec 32 × BitVec 32 :=
  (0, if nextfree = 0 then roundUp finish pgSize else nextfree)

namespace Ptr

/-- `page2kva(pp)`. -/
def page2kva (pages npages pp : BitVec 32) : Except Refusal (BitVec 32) :=
  orPanic (kaddr npages (page2pa pages pp))

/-- `if (PDX(page2pa(pp)) < pdx_limit) memset(page2kva(pp), 0x97, 128);` for each page. -/
def poisonLoop (pages npages limit : BitVec 32) (r : StringRegs) : Nat → BitVec 32 → Mem →
    Except Refusal Mem
  | 0, _, _ => .error .endless
  | fuel + 1, pp, mem =>
      if pp = 0 then .ok mem
      else if pdx (page2pa pages pp) < limit then do
        let kva ← page2kva pages npages pp
        let mem := (Strings.Asm.memset kva 0x97 128 { r with mem := mem }).2.mem
        poisonLoop pages npages limit r fuel (loadInt mem pp) mem
      else poisonLoop pages npages limit r fuel (loadInt mem pp) mem

/-- The assertions about a page. -/
def checkPage (pages npages firstFreePage pp : BitVec 32) : Except Refusal Unit := do
  assert (pages ≤ pp) .fromPages
  assert (pp < entry pages npages.toNat) .inPages
  assert ((pp - pages) % BitVec.ofNat 32 pageInfoSize = 0) .atEntry
  assert (page2pa pages pp ≠ 0) .notZero
  assert (page2pa pages pp ≠ ioPhysMem) .notIo
  assert (page2pa pages pp ≠ extPhysMem - pgSize) .notBios
  assert (page2pa pages pp ≠ extPhysMem) .notKernel
  if page2pa pages pp < extPhysMem then return
  let kva ← page2kva pages npages pp
  assert (firstFreePage ≤ kva) .notAllocated

/-- The loop with the assertions; `nfree_basemem` and `nfree_extmem`. -/
def checkLoop (pages npages firstFreePage : BitVec 32) (mem : Mem) : Nat → BitVec 32 →
    BitVec 32 × BitVec 32 → Except Refusal (BitVec 32 × BitVec 32)
  | 0, _, _ => .error .endless
  | fuel + 1, pp, (base, ext) => do
      if pp = 0 then return (base, ext)
      checkPage pages npages firstFreePage pp
      checkLoop pages npages firstFreePage mem fuel (loadInt mem pp)
        (if page2pa pages pp < extPhysMem then (base + 1, ext) else (base, ext + 1))

/-- `if (only_low_memory) { ... }`. -/
def reorder (pages : BitVec 32) (fuel : Nat) (onlyLowMemory : Bool) (s : State) :
    Except Refusal State :=
  if onlyLowMemory then (lowFirst pages fuel s).elim (.error .endless) .ok else .ok s

/-- `check_page_free_list(only_low_memory)`. -/
def checkPageFreeList (pages npages finish : BitVec 32) (r : StringRegs) (fuel : Nat)
    (onlyLowMemory : Bool) (s : State) : Except Refusal State := do
  if s.pageFreeList = 0 then throw .null
  let s ← reorder pages fuel onlyLowMemory s
  let mem ← poisonLoop pages npages (pdxLimit onlyLowMemory) r fuel s.pageFreeList s.mem
  let (firstFreePage, nextfree) := bootAlloc finish s.nextfree 0
  let (base, ext) ← checkLoop pages npages firstFreePage mem fuel s.pageFreeList (0, 0)
  assert (0 < base.toInt) .someBase
  assert (0 < ext.toInt) .someExt
  return { s with mem, nextfree }

end Ptr

/-! ## What it is to find -/

section

variable {npages : Nat}

/-- The page is in base memory. -/
def isBase (pp : Fin npages) : Bool := page2pa pp < extPhysMem

/-- The assertion that fails for a page that must not be free. -/
def reserved (pp : Fin npages) : Option Assertion :=
  if page2pa pp = 0 then some .notZero
  else if page2pa pp = ioPhysMem then some .notIo
  else if page2pa pp = extPhysMem - pgSize then some .notBios
  else if page2pa pp = extPhysMem then some .notKernel
  else none

/-- The first page that must not be free. -/
def firstReserved (l : List (Fin npages)) : Except Refusal Unit :=
  (l.findSome? reserved).elim (.ok ()) fun a ↦ .error (.failed a)

/-- What the check says about a free list. -/
def verdict (l : List (Fin npages)) : Except Refusal Unit := do
  if l = [] then throw .null
  firstReserved l
  assert (l.any isBase) .someBase
  assert (l.any (!isBase ·)) .someExt

/-- The free list as the check orders it. -/
def ordered (onlyLowMemory : Bool) (l : List (Fin npages)) : List (Fin npages) :=
  if onlyLowMemory then l.filter isLow ++ l.filter fun pp ↦ !isLow pp else l

/-- A free list that is accepted. -/
structure Acceptable (l : List (Fin npages)) : Prop where
  free : ∀ pp ∈ l, page2pa pp ≠ 0 ∧ page2pa pp ≠ ioPhysMem ∧ page2pa pp ≠ extPhysMem - pgSize ∧
    page2pa pp ≠ extPhysMem
  base : ∃ pp ∈ l, page2pa pp < extPhysMem
  ext : ∃ pp ∈ l, extPhysMem ≤ page2pa pp

variable {l : List (Fin npages)}

theorem reserved_eq_none_iff (pp : Fin npages) :
    reserved pp = none ↔ page2pa pp ≠ 0 ∧ page2pa pp ≠ ioPhysMem ∧
      page2pa pp ≠ extPhysMem - pgSize ∧ page2pa pp ≠ extPhysMem := by
  rw [reserved]
  split_ifs with hzero hio hbios hkernel
  · exact ⟨fun h ↦ h.elim, fun h ↦ absurd hzero h.1⟩
  · exact ⟨fun h ↦ h.elim, fun h ↦ absurd hio h.2.1⟩
  · exact ⟨fun h ↦ h.elim, fun h ↦ absurd hbios h.2.2.1⟩
  · exact ⟨fun h ↦ h.elim, fun h ↦ absurd hkernel h.2.2.2⟩
  · exact ⟨fun _ ↦ ⟨hzero, hio, hbios, hkernel⟩, fun _ ↦ rfl⟩

theorem assert_pos {x : Prop} [Decidable x] (h : x) (a : Assertion) : assert x a = .ok () :=
  if_pos h

theorem assert_neg {x : Prop} [Decidable x] (h : ¬ x) (a : Assertion) :
    assert x a = .error (.failed a) := if_neg h

theorem assert_eq_ok_iff {x : Prop} [Decidable x] {a : Assertion} : assert x a = .ok () ↔ x := by
  rw [assert]
  split_ifs with h <;> simp [h]

theorem firstReserved_eq_ok_iff :
    firstReserved l = .ok () ↔ ∀ pp ∈ l, reserved pp = none := by
  rw [firstReserved, ← List.findSome?_eq_none_iff]
  cases l.findSome? reserved <;> simp

/-- The order of the list matters only to which page is refused. -/
theorem verdict_eq_ok_iff : verdict l = .ok () ↔ Acceptable l := by
  have hbase : (l.any isBase : Prop) ↔ ∃ pp ∈ l, page2pa pp < extPhysMem := by
    simp [isBase]
  have hext : (l.any (!isBase ·) : Prop) ↔ ∃ pp ∈ l, extPhysMem ≤ page2pa pp := by
    simp [isBase]
  have hfree := firstReserved_eq_ok_iff (l := l)
  simp only [reserved_eq_none_iff] at hfree
  by_cases hnil : l = []
  · subst hnil
    refine ⟨fun h ↦ ?_, fun h ↦ ?_⟩
    · cases h
    · obtain ⟨pp, hpp, -⟩ := h.base
      cases hpp
  · simp only [verdict, if_neg hnil, Result.check_bind_eq_ok, assert_eq_ok_iff]
    rw [hfree, hbase, hext]
    exact ⟨fun ⟨h, hb, he⟩ ↦ ⟨h, hb, he⟩, fun h ↦ ⟨h.free, h.base, h.ext⟩⟩

theorem mem_ordered (onlyLowMemory : Bool) (pp : Fin npages) :
    pp ∈ ordered onlyLowMemory l ↔ pp ∈ l := by
  cases onlyLowMemory
  · rfl
  · have hsplit : pp ∈ l.filter isLow ++ l.filter (fun pp ↦ !isLow pp) ↔ pp ∈ l := by
      simp only [List.mem_append, List.mem_filter]
      cases isLow pp <;> simp
    exact hsplit

theorem length_ordered (onlyLowMemory : Bool) (l : List (Fin npages)) :
    (ordered onlyLowMemory l).length = l.length := by
  cases onlyLowMemory
  · rfl
  · exact (List.length_append ..).trans (List.length_eq_length_filter_add isLow).symm

theorem acceptable_ordered (onlyLowMemory : Bool) :
    Acceptable (ordered onlyLowMemory l) ↔ Acceptable l := by
  constructor
  · rintro ⟨hfree, hbase, hext⟩
    simp only [mem_ordered] at hfree hbase hext
    exact ⟨hfree, hbase, hext⟩
  · rintro ⟨hfree, hbase, hext⟩
    constructor <;> simpa only [mem_ordered]

end

/-! ## A list in the array -/

namespace Ptr

section

variable {pages npages : BitVec 32}

theorem page2kva_entry (hplaced : Placed pages npages.toNat) (hnpages : npages.toNat ≤ 2 ^ 16)
    (i : Fin npages.toNat) :
    page2kva pages npages (entry pages i) = .ok (Pmap.page2pa i + kernBase) := by
  have hnum := pgnum_page2pa hnpages i
  have hlt : ¬ npages ≤ pgnum (Pmap.page2pa i) := by
    rw [BitVec.le_def, hnum]
    exact Nat.not_le.mpr i.isLt
  rw [page2kva, page2pa_entry hplaced, kaddr, if_neg hlt]
  rfl

/-- The first assertions hold for an entry of the array. -/
theorem entry_inside (hplaced : Placed pages npages.toNat) (i : Fin npages.toNat) :
    pages ≤ entry pages i ∧ entry pages i < entry pages npages.toNat ∧
      (entry pages i - pages) % BitVec.ofNat 32 pageInfoSize = 0 := by
  have hlt := i.isLt
  have hfits := hplaced.fits
  have hentry := entry_toNat hplaced hlt.le
  have hend := entry_toNat hplaced (Nat.le_refl npages.toNat)
  simp only [pageInfoSize] at hfits
  refine ⟨?_, ?_, BitVec.eq_of_toNat_eq ?_⟩
  · rw [BitVec.le_def, hentry]
    omega
  · rw [BitVec.lt_def, hentry, hend]
    omega
  · rw [entry, BitVec.add_comm, BitVec.add_sub_cancel, pageInfoSize, BitVec.toNat_umod,
      BitVec.toNat_ofNat]
    change _ % 8 = 0
    omega

/-- The assertions about a page of the array. -/
theorem checkPage_entry (hplaced : Placed pages npages.toNat) (hnpages : npages.toNat ≤ 2 ^ 16)
    (i : Fin npages.toNat) : checkPage pages npages 0 (entry pages i) =
      (reserved i).elim (.ok ()) fun a ↦ .error (.failed a) := by
  obtain ⟨hfrom, hin, hat⟩ := entry_inside hplaced i
  have hkva := page2kva_entry hplaced hnpages i
  have hnull : (0 : BitVec 32) ≤ Pmap.page2pa i + kernBase :=
    BitVec.le_def.mpr (Nat.zero_le _)
  rw [checkPage, assert_pos hfrom, Result.ok_bind, assert_pos hin, Result.ok_bind, assert_pos hat,
    Result.ok_bind, page2pa_entry hplaced, reserved]
  by_cases hzero : Pmap.page2pa i = 0
  · rw [assert_neg (not_not.mpr hzero), if_pos hzero, Result.error_bind, Option.elim_some]
  rw [assert_pos hzero, Result.ok_bind, if_neg hzero]
  by_cases hio : Pmap.page2pa i = ioPhysMem
  · rw [assert_neg (not_not.mpr hio), if_pos hio, Result.error_bind, Option.elim_some]
  rw [assert_pos hio, Result.ok_bind, if_neg hio]
  by_cases hbios : Pmap.page2pa i = extPhysMem - pgSize
  · rw [assert_neg (not_not.mpr hbios), if_pos hbios, Result.error_bind, Option.elim_some]
  rw [assert_pos hbios, Result.ok_bind, if_neg hbios]
  by_cases hkernel : Pmap.page2pa i = extPhysMem
  · rw [assert_neg (not_not.mpr hkernel), if_pos hkernel, Result.error_bind, Option.elim_some]
  rw [assert_pos hkernel, Result.ok_bind, if_neg hkernel, Option.elim_none]
  split_ifs with hbase
  · rfl
  · rw [page2kva_entry hplaced hnpages, Result.ok_bind, assert_pos hnull]

theorem add_one_add (b : BitVec 32) (n : Nat) :
    b + 1 + BitVec.ofNat 32 n = b + BitVec.ofNat 32 (n + 1) := by
  bv_omega

theorem firstReserved_cons {n : Nat} (i : Fin n) (l : List (Fin n)) :
    firstReserved (i :: l) = (reserved i).elim (firstReserved l) fun a ↦ .error (.failed a) := by
  rw [firstReserved, List.findSome?_cons]
  cases reserved i <;> rfl

/-- The loop with the assertions. -/
theorem checkLoop_eq (hplaced : Placed pages npages.toNat) (hnpages : npages.toNat ≤ 2 ^ 16)
    {mem : Mem}
    {s : Pmap.State npages.toNat} (harray : ∀ i, HoldsAt pages mem s i)
    {l : List (Fin npages.toNat)}
    {p : Option (Fin npages.toNat)} (hl : Linked s.links p l none) {fuel : Nat}
    (hfuel : l.length < fuel) (base ext : BitVec 32) :
    checkLoop pages npages 0 mem fuel (ptr pages p) (base, ext) =
      (firstReserved l).map fun _ ↦ (base + BitVec.ofNat 32 (l.countP isBase),
        ext + BitVec.ofNat 32 (l.countP (!isBase ·))) := by
  induction l generalizing p fuel base ext with
  | nil =>
      obtain ⟨fuel, rfl⟩ := Nat.exists_eq_succ_of_ne_zero (by omega : fuel ≠ 0)
      obtain rfl : p = none := hl
      have hzero : ptr pages (none : Option (Fin npages.toNat)) = 0 := rfl
      rw [checkLoop, if_pos hzero]
      simp [firstReserved]
  | cons i l ih =>
      obtain ⟨fuel, rfl⟩ := Nat.exists_eq_succ_of_ne_zero (by omega : fuel ≠ 0)
      obtain ⟨rfl, hrest⟩ := hl
      have hnext : loadInt mem (entry pages i) = ptr pages (s.links (.link i)) := (harray i).link
      rw [ptr, checkLoop, if_neg (entry_ne_zero hplaced i), checkPage_entry hplaced hnpages,
        page2pa_entry hplaced, hnext, firstReserved_cons]
      cases reserved i with
      | some a => rfl
      | none =>
          rw [Option.elim_none, Option.elim_none, Result.ok_bind]
          by_cases hbase : Pmap.page2pa i < extPhysMem
          · have hin : isBase i = true := decide_eq_true hbase
            rw [if_pos hbase, List.countP_cons_of_pos hin, List.countP_cons_of_neg (by simp [hin]),
              ih hrest (Nat.lt_of_succ_lt_succ hfuel), add_one_add]
          · have hout : isBase i = false := decide_eq_false hbase
            rw [if_neg hbase, List.countP_cons_of_neg (by simp [hout]),
              List.countP_cons_of_pos (by simp [hout]), ih hrest (Nat.lt_of_succ_lt_succ hfuel),
              add_one_add]

/-- The counters do not overflow. -/
theorem count_pos {n : Nat} (hn : n ≤ 2 ^ 20) {l : List (Fin n)} (hnodup : l.Nodup)
    (p : Fin n → Bool) :
    0 < (0 + BitVec.ofNat 32 (l.countP p)).toInt ↔ l.any p = true := by
  have hcard := hnodup.length_le_card
  rw [Fintype.card_fin] at hcard
  have hle := List.countP_le_length (p := p) (l := l)
  have hnat : (0 + BitVec.ofNat 32 (l.countP p)).toNat = l.countP p := by
    rw [show 0 + BitVec.ofNat 32 (l.countP p) = BitVec.ofNat 32 (l.countP p) from BitVec.zero_add _,
      BitVec.toNat_ofNat]
    omega
  have hpos : 0 < l.countP p ↔ l.any p = true := by
    rw [List.countP_pos_iff, List.any_eq_true]
  rw [BitVec.toInt_eq_toNat_cond, hnat, if_pos (by omega), ← hpos]
  omega

/-! ## What is written over -/

/-- The start of each page that is mapped. -/
structure Poisoned {n : Nat} (limit : BitVec 32) (l : List (Fin n)) (mem mem' : Mem) : Prop where
  set : ∀ pp ∈ l, pdx (Pmap.page2pa pp) < limit → ∀ k < 128,
    mem' (Pmap.page2pa pp + kernBase + BitVec.ofNat 32 k) = 0x97
  others : ∀ x, (∀ pp ∈ l, pdx (Pmap.page2pa pp) < limit →
    128 ≤ (x - (Pmap.page2pa pp + kernBase)).toNat) → mem' x = mem x

theorem Poisoned.skip {n : Nat} {limit : BitVec 32} {i : Fin n} {l : List (Fin n)} {mem mem' : Mem}
    (h : Poisoned limit l mem mem') (hi : ¬ pdx (Pmap.page2pa i) < limit) :
    Poisoned limit (i :: l) mem mem' := by
  refine ⟨fun pp hpp hlow ↦ ?_, fun x hx ↦ ?_⟩
  · rcases List.mem_cons.mp hpp with rfl | hmem
    · exact absurd hlow hi
    · exact h.set pp hmem hlow
  · exact h.others x fun pp hpp ↦ hx pp (List.mem_cons_of_mem i hpp)

/-- A byte that is written twice is the same. -/
theorem Poisoned.fill {n : Nat} {limit : BitVec 32} {i : Fin n} {l : List (Fin n)} {mem mem' : Mem}
    (h : Poisoned limit l (mem.fill (Pmap.page2pa i + kernBase) 128 0x97) mem')
    (hi : pdx (Pmap.page2pa i) < limit) : Poisoned limit (i :: l) mem mem' := by
  refine ⟨fun pp hpp hlow k hk ↦ ?_, fun x hx ↦ ?_⟩
  · rcases List.mem_cons.mp hpp with rfl | hmem
    · by_cases hagain : ∃ pp' ∈ l, pdx (Pmap.page2pa pp') < limit ∧
          (Pmap.page2pa pp + kernBase + BitVec.ofNat 32 k - (Pmap.page2pa pp' + kernBase)).toNat <
            128
      · obtain ⟨pp', hpp', hlow', hlt⟩ := hagain
        have hset := h.set pp' hpp' hlow' _ hlt
        rwa [BitVec.ofNat_toNat, BitVec.setWidth_eq, BitVec.add_comm (Pmap.page2pa pp' + kernBase),
          BitVec.sub_add_cancel] at hset
      · rw [h.others _ fun pp' hpp' hlow' ↦ not_lt.mp fun hlt ↦ hagain ⟨pp', hpp', hlow', hlt⟩]
        refine Mem.fill_of_lt ?_
        rw [BitVec.add_comm, BitVec.add_sub_cancel, BitVec.toNat_ofNat]
        omega
    · exact h.set pp hmem hlow k hk
  · rw [h.others x fun pp hpp ↦ hx pp (List.mem_cons_of_mem i hpp)]
    exact Mem.fill_of_le (hx i (List.mem_cons_self ..) hi)

/-- The loop with `memset`, when it stays off the array. -/
theorem poisonLoop_ok (hplaced : Placed pages npages.toNat) (hnpages : npages.toNat ≤ 2 ^ 16)
    {limit : BitVec 32} {mem : Mem} {s : Pmap.State npages.toNat}
    (harray : ∀ i, HoldsAt pages mem s i) {l : List (Fin npages.toNat)}
    {p : Option (Fin npages.toNat)} (hl : Linked s.links p l none) {fuel : Nat}
    (hfuel : l.length < fuel) (r : StringRegs)
    (hapart : ∀ pp ∈ l, pdx (Pmap.page2pa pp) < limit →
      Apart pages (pageInfoSize * npages.toNat) (Pmap.page2pa pp + kernBase) 128) :
    ∃ mem', poisonLoop pages npages limit r fuel (ptr pages p) mem = .ok mem' ∧
      (∀ i, HoldsAt pages mem' s i) ∧ Poisoned limit l mem mem' := by
  induction l generalizing p fuel mem with
  | nil =>
      obtain ⟨fuel, rfl⟩ := Nat.exists_eq_succ_of_ne_zero (by omega : fuel ≠ 0)
      obtain rfl : p = none := hl
      have hzero : ptr pages (none : Option (Fin npages.toNat)) = 0 := rfl
      refine ⟨mem, ?_, harray, fun pp hpp ↦ (List.not_mem_nil hpp).elim, fun _ _ ↦ rfl⟩
      rw [poisonLoop, if_pos hzero]
  | cons i l ih =>
      obtain ⟨fuel, rfl⟩ := Nat.exists_eq_succ_of_ne_zero (by omega : fuel ≠ 0)
      obtain ⟨rfl, hrest⟩ := hl
      have hfuel' := Nat.lt_of_succ_lt_succ hfuel
      have hapart' := fun pp hpp ↦ hapart pp (List.mem_cons_of_mem i hpp)
      rw [ptr, poisonLoop, if_neg (entry_ne_zero hplaced i), page2pa_entry hplaced]
      by_cases hlow : pdx (Pmap.page2pa i) < limit
      · have hmemset : (Strings.Asm.memset (Pmap.page2pa i + kernBase) 0x97 128
            { r with mem := mem }).2.mem = mem.fill (Pmap.page2pa i + kernBase) 128 0x97 :=
          Strings.Asm.memset_fill ..
        have harray' : ∀ j, HoldsAt pages (mem.fill (Pmap.page2pa i + kernBase) 128 0x97) s j :=
          fun j ↦ (harray j).keep_array
            ((changesOnly_fill _ _ _ _).keeps (hapart i (List.mem_cons_self ..) hlow))
        have hnext : loadInt (mem.fill (Pmap.page2pa i + kernBase) 128 0x97) (entry pages i) =
            ptr pages (s.links (.link i)) := (harray' i).link
        obtain ⟨mem', hrun, hholds, hpoisoned⟩ := ih harray' hrest hfuel' hapart'
        refine ⟨mem', ?_, hholds, hpoisoned.fill hlow⟩
        rw [if_pos hlow, page2kva_entry hplaced hnpages, Result.ok_bind]
        simp only [hmemset, hnext]
        exact hrun
      · have hnext : loadInt mem (entry pages i) = ptr pages (s.links (.link i)) := (harray i).link
        obtain ⟨mem', hrun, hholds, hpoisoned⟩ := ih harray hrest hfuel' hapart'
        refine ⟨mem', ?_, hholds, hpoisoned.skip hlow⟩
        rw [if_neg hlow, hnext]
        exact hrun

/-! ## The whole check -/

/-- Reordering gives the free list that is checked. -/
theorem reorder_ok (hplaced : Placed pages npages.toNat) {c : State} {s : Pmap.State npages.toNat}
    (h : Holds pages c s) {l : List (Fin npages.toNat)} (hl : FreeList s l) {fuel : Nat}
    (hfuel : l.length < fuel) (onlyLowMemory : Bool) :
    ∃ c' s', reorder pages fuel onlyLowMemory c = .ok c' ∧
      Holds pages c' s' ∧ FreeList s' (ordered onlyLowMemory l) ∧
      (∀ i, (s'.pages i).ppRef = (s.pages i).ppRef) ∧
      ChangesOnly c.mem c'.mem pages (pageInfoSize * npages.toNat) := by
  cases onlyLowMemory with
  | false => exact ⟨c, s, rfl, h, hl, fun _ ↦ rfl, .refl _ _ _⟩
  | true =>
      obtain ⟨s', hrun, hlist, hrefs, -⟩ := lowFirst_ok hl hfuel
      have hrel := lowFirst_refines hplaced h fuel
      rw [hrun] at hrel
      rcases hc : lowFirst pages fuel c with _ | c'
      · rw [hc] at hrel
        cases hrel
      · rw [hc] at hrel
        obtain ⟨hholds, hchange, -⟩ : Holds pages c' s' ∧ _ := by
          cases hrel with
          | some h => exact h
        exact ⟨c', s', by rw [reorder, if_pos rfl, hc]; rfl, hholds, hlist, hrefs, hchange⟩

theorem assert_congr {x y : Prop} [Decidable x] [Decidable y] (h : x ↔ y) (a : Assertion) :
    assert x a = assert y a := if_congr h rfl rfl

/-- What is left once the list has been walked through. -/
theorem verdict_map {n : Nat} (hn : n ≤ 2 ^ 20) {l : List (Fin n)} (hne : l ≠ []) (hnodup : l.Nodup)
    (c : State) :
    (do
      let (base, ext) ← (firstReserved l).map fun _ ↦ (0 + BitVec.ofNat 32 (l.countP isBase),
        0 + BitVec.ofNat 32 (l.countP (!isBase ·)))
      assert (0 < base.toInt) .someBase
      assert (0 < ext.toInt) .someExt
      return c) = (verdict l).map fun _ ↦ c := by
  rw [verdict, if_neg hne]
  cases firstReserved l with
  | error refusal => rfl
  | ok =>
      simp only [Result.map_ok, Result.ok_bind]
      rw [assert_congr (count_pos hn hnodup isBase), assert_congr (count_pos hn hnodup (!isBase ·))]
      cases assert (l.any isBase = true) .someBase with
      | error refusal => rfl
      | ok =>
          cases assert (l.any (!isBase ·) = true) .someExt <;> rfl

theorem checkPageFreeList_eq (hplaced : Placed pages npages.toNat) (hnpages : npages.toNat ≤ 2 ^ 16)
    {c : State} {s : Pmap.State npages.toNat} (h : Holds pages c s) {l : List (Fin npages.toNat)}
    (hl : FreeList s l) {fuel : Nat} (hfuel : l.length < fuel) (onlyLowMemory : Bool)
    (hapart : ∀ pp ∈ l, pdx (Pmap.page2pa pp) < pdxLimit onlyLowMemory →
      Apart pages (pageInfoSize * npages.toNat) (Pmap.page2pa pp + kernBase) 128)
    (finish : BitVec 32) (r : StringRegs) :
    ∃ c' s' mem, checkPageFreeList pages npages finish r fuel onlyLowMemory c =
        (verdict (ordered onlyLowMemory l)).map (fun _ ↦ c') ∧
      Holds pages c' s' ∧ FreeList s' (ordered onlyLowMemory l) ∧
      (∀ i, (s'.pages i).ppRef = (s.pages i).ppRef) ∧
      ChangesOnly c.mem mem pages (pageInfoSize * npages.toNat) ∧
      Poisoned (pdxLimit onlyLowMemory) (ordered onlyLowMemory l) mem c'.mem := by
  by_cases hnil : l = []
  · subst hnil
    have hnull : s.pageFreeList = none := hl
    have hordered : ordered onlyLowMemory ([] : List (Fin npages.toNat)) = [] := by
      cases onlyLowMemory <;> rfl
    rw [hordered]
    refine ⟨c, s, c.mem, ?_, h, hl, fun _ ↦ rfl, .refl _ _ _,
      fun pp hpp ↦ (List.not_mem_nil hpp).elim, fun _ _ ↦ rfl⟩
    rw [checkPageFreeList, if_pos (by rw [h.pageFreeList, hnull]; rfl)]
    rfl
  · have hnull : c.pageFreeList ≠ 0 := by
      rw [h.pageFreeList, ne_eq, ptr_eq_zero_iff hplaced]
      intro hnone
      rw [FreeList, hnone] at hl
      cases l with
      | nil => exact hnil rfl
      | cons i l => cases hl.1
    have hordered : ordered onlyLowMemory l ≠ [] := by
      rw [← List.length_pos_iff, length_ordered]
      exact List.length_pos_iff.mpr hnil
    have hfuel' : (ordered onlyLowMemory l).length < fuel := by rwa [length_ordered]
    obtain ⟨c₁, s₁, hreorder, hholds, hlist, hrefs, hchange⟩ :=
      reorder_ok hplaced h hl hfuel onlyLowMemory
    obtain ⟨mem, hpoison, harray, hpoisoned⟩ :=
      poisonLoop_ok hplaced hnpages hholds.array hlist hfuel' r
      fun pp hpp ↦ hapart pp ((mem_ordered onlyLowMemory pp).mp hpp)
    have hloop := checkLoop_eq hplaced hnpages harray hlist hfuel' 0 0
    rw [← hholds.pageFreeList] at hpoison hloop
    refine ⟨{ c₁ with mem, nextfree := (bootAlloc finish c₁.nextfree 0).2 }, s₁, c₁.mem, ?_,
      ⟨harray, hholds.pageFreeList⟩, hlist, hrefs, hchange, hpoisoned⟩
    rw [← verdict_map (hnpages.trans (by decide)) hordered hlist.nodup, ← hloop, checkPageFreeList,
      if_neg hnull]
    simp only [hreorder, Result.ok_bind, hpoison]
    rfl

/-- **Checking a list in the array.**  Take a free list of pages of the array, where the pages
that are written over do not overlap the array.  What the check says depends on these pages and
their order alone, and it is content exactly with a list that has no page that must not be free
and some of both kinds.  When it is, the list is in the array in its new order, no reference count
has changed, and outside of the array only the starts of the pages that are mapped are written. -/
theorem check_refines (hplaced : Placed pages npages.toNat) (hnpages : npages.toNat ≤ 2 ^ 16)
    {c : State} {s : Pmap.State npages.toNat} (h : Holds pages c s) {l : List (Fin npages.toNat)}
    (hl : FreeList s l) {fuel : Nat} (hfuel : l.length < fuel) (onlyLowMemory : Bool)
    (hapart : ∀ pp ∈ l, pdx (Pmap.page2pa pp) < pdxLimit onlyLowMemory →
      Apart pages (pageInfoSize * npages.toNat) (Pmap.page2pa pp + kernBase) 128)
    (finish : BitVec 32) (r : StringRegs) :
    ∃ c' s', checkPageFreeList pages npages finish r fuel onlyLowMemory c =
        (verdict (ordered onlyLowMemory l)).map (fun _ ↦ c') ∧
      (verdict (ordered onlyLowMemory l) = .ok () ↔ Acceptable l) ∧
      Holds pages c' s' ∧ FreeList s' (ordered onlyLowMemory l) ∧
      (∀ i, (s'.pages i).ppRef = (s.pages i).ppRef) ∧
      (∀ pp ∈ l, pdx (Pmap.page2pa pp) < pdxLimit onlyLowMemory → ∀ k < 128,
        c'.mem (Pmap.page2pa pp + kernBase + BitVec.ofNat 32 k) = 0x97) ∧
      ∀ x, pageInfoSize * npages.toNat ≤ (x - pages).toNat →
        (∀ pp ∈ l, pdx (Pmap.page2pa pp) < pdxLimit onlyLowMemory →
          128 ≤ (x - (Pmap.page2pa pp + kernBase)).toNat) → c'.mem x = c.mem x := by
  obtain ⟨c', s', mem, hcheck, hholds, hlist, hrefs, hchange, hpoisoned⟩ :=
    checkPageFreeList_eq hplaced hnpages h hl hfuel onlyLowMemory hapart finish r
  have hmem := fun pp ↦ mem_ordered (l := l) onlyLowMemory pp
  refine ⟨c', s', hcheck, verdict_eq_ok_iff.trans (acceptable_ordered onlyLowMemory), hholds, hlist,
    hrefs, fun pp hpp ↦ hpoisoned.set pp ((hmem pp).mpr hpp), fun x hx hpages ↦ ?_⟩
  exact (hpoisoned.others x fun pp hpp ↦ hpages pp ((hmem pp).mp hpp)).trans (hchange x hx)

theorem linkedArray_apart : ∀ pp ∈ [extPage, basePage],
    pdx (Pmap.page2pa pp) < pdxLimit true →
      Apart 0xF0200000 (pageInfoSize * sampleSize.toNat) (Pmap.page2pa pp + kernBase) 128 := by
  intro pp hpp _
  rcases List.mem_pair.mp hpp with rfl | rfl
  · exact ⟨by decide, by decide⟩
  · exact ⟨by decide, by decide⟩

theorem linkedArray_verdict : verdict (ordered true [extPage, basePage]) = .ok () := by
  decide

theorem linkedArray_accepted :
    ∃ c', checkPageFreeList 0xF0200000 sampleSize 0xF0112960 Strings.zeroRegs 3 true linkedArray =
        .ok c' ∧ c'.mem 0xF0001000 = 0x97 := by
  obtain ⟨c', s', hcheck, -, -, -, -, hset, -⟩ := check_refines linkedArray_placed (by decide)
    linkedArray_holds linkedArray_list (Nat.lt_succ_self 2) true linkedArray_apart 0xF0112960
      Strings.zeroRegs
  rw [linkedArray_verdict] at hcheck
  exact ⟨c', hcheck, hset basePage (by decide) (by decide) 0 (by decide)⟩

/-! ## Whatever is in memory -/

/-- The pointers in memory. -/
def nonNull (p : BitVec 32) : Option (BitVec 32) := if p = 0 then none else some p

/-- The links of the pages, by their addresses. -/
def memLinks (mem : Mem) : Links Empty (BitVec 32)
  | .link pp => nonNull (loadInt mem pp)

/-- A page that passes the assertions is an entry of the array. -/
theorem checkPage_sound (hplaced : Placed pages npages.toNat) {firstFreePage pp : BitVec 32}
    (h : checkPage pages npages firstFreePage pp = .ok ()) :
    ∃ i : Fin npages.toNat, pp = entry pages i ∧ reserved i = none := by
  simp only [checkPage, Result.check_bind_eq_ok, assert_eq_ok_iff] at h
  obtain ⟨hfrom, hin, hat, hzero, hio, hbios, hkernel, -⟩ := h
  rw [BitVec.le_def] at hfrom
  rw [BitVec.lt_def, entry_toNat hplaced (Nat.le_refl npages.toNat)] at hin
  have hdistance : (pp - pages).toNat = pp.toNat - pages.toNat := by bv_omega
  have hmod : (pp - pages).toNat % 8 = 0 := congrArg BitVec.toNat hat
  have hlt : (pp - pages).toNat / 8 < npages.toNat := by omega
  have hentry : pp = entry pages (⟨(pp - pages).toNat / 8, hlt⟩ : Fin npages.toNat) := by
    refine BitVec.eq_of_toNat_eq ?_
    rw [entry_toNat hplaced hlt.le]
    omega
  rw [hentry, page2pa_entry hplaced] at hzero hio hbios hkernel
  exact ⟨_, hentry, (reserved_eq_none_iff _).mpr ⟨hzero, hio, hbios, hkernel⟩⟩

theorem checkLoop_sound (hplaced : Placed pages npages.toNat) {firstFreePage : BitVec 32}
    {mem : Mem} {fuel : Nat} {pp base ext base' ext' : BitVec 32}
    (h : checkLoop pages npages firstFreePage mem fuel pp (base, ext) = .ok (base', ext')) :
    ∃ l : List (Fin npages.toNat),
      Linked (memLinks mem) (nonNull pp) (l.map fun i : Fin npages.toNat ↦ entry pages i) none ∧
      (∀ i ∈ l, reserved i = none) ∧ base' = base + BitVec.ofNat 32 (l.countP isBase) ∧
      ext' = ext + BitVec.ofNat 32 (l.countP (!isBase ·)) := by
  induction fuel generalizing pp base ext with
  | zero => cases h
  | succ fuel ih =>
      rw [checkLoop] at h
      by_cases hzero : pp = 0
      · rw [if_pos hzero] at h
        cases h
        refine ⟨[], if_pos hzero, fun i hi ↦ (List.not_mem_nil hi).elim, ?_, ?_⟩
        · exact (BitVec.add_zero _).symm
        · exact (BitVec.add_zero _).symm
      · rw [if_neg hzero, Result.check_bind_eq_ok] at h
        obtain ⟨hpage, hrest⟩ := h
        obtain ⟨i, hi, hfree⟩ := checkPage_sound hplaced hpage
        rw [hi, page2pa_entry hplaced, ← hi] at hrest
        have hlink : ∀ l : List (Fin npages.toNat),
            Linked (memLinks mem) (nonNull (loadInt mem pp))
              (l.map fun i : Fin npages.toNat ↦ entry pages i)
              none →
            Linked (memLinks mem) (nonNull pp)
              ((i :: l).map fun i : Fin npages.toNat ↦ entry pages i) none := by
          intro l hl
          rw [List.map_cons, ← hi]
          exact ⟨if_neg hzero, hl⟩
        by_cases hlow : Pmap.page2pa i < extPhysMem
        · have hin : isBase i = true := decide_eq_true hlow
          rw [if_pos hlow] at hrest
          obtain ⟨l, hlinked, hall, hbase, hext⟩ := ih hrest
          refine ⟨i :: l, hlink l hlinked, List.forall_mem_cons.mpr ⟨hfree, hall⟩, ?_, ?_⟩
          · rw [List.countP_cons_of_pos hin, hbase, add_one_add]
          · rw [List.countP_cons_of_neg (by simp [hin]), hext]
        · have hout : isBase i = false := decide_eq_false hlow
          rw [if_neg hlow] at hrest
          obtain ⟨l, hlinked, hall, hbase, hext⟩ := ih hrest
          refine ⟨i :: l, hlink l hlinked, List.forall_mem_cons.mpr ⟨hfree, hall⟩, ?_, ?_⟩
          · rw [List.countP_cons_of_neg (by simp [hout]), hbase]
          · rw [List.countP_cons_of_pos (by simp [hout]), hext, add_one_add]

/-- **An accepted list.**  Whatever the memory and the variables held before: if the check
returns, the free list in memory ends, all its pages are different entries of the array, none of
them is one that must not be free, and there are some of both kinds. -/
theorem check_sound (hplaced : Placed pages npages.toNat) {finish : BitVec 32} {r : StringRegs}
    {fuel : Nat} {onlyLowMemory : Bool} {c c' : State}
    (h : checkPageFreeList pages npages finish r fuel onlyLowMemory c = .ok c') :
    ∃ l : List (Fin npages.toNat),
      Linked (memLinks c'.mem) (nonNull c'.pageFreeList)
        (l.map fun i : Fin npages.toNat ↦ entry pages i) none ∧
      l.Nodup ∧ Acceptable l := by
  rw [checkPageFreeList] at h
  by_cases hnull : c.pageFreeList = 0
  · rw [if_pos hnull] at h
    cases h
  rw [if_neg hnull] at h
  obtain ⟨c₁, -, h⟩ := Result.bind_eq_ok.mp h
  obtain ⟨mem, -, h⟩ := Result.bind_eq_ok.mp h
  obtain ⟨⟨base, ext⟩, hloop, h⟩ := Result.bind_eq_ok.mp h
  obtain ⟨hbase, h⟩ := Result.check_bind_eq_ok.mp h
  obtain ⟨hext, h⟩ := Result.check_bind_eq_ok.mp h
  cases h
  rw [assert_eq_ok_iff] at hbase hext
  obtain ⟨l, hlinked, hfree, rfl, rfl⟩ := checkLoop_sound hplaced hloop
  have hnodup : l.Nodup := hlinked.nodup.of_map _
  rw [count_pos hplaced.length hnodup, List.any_eq_true] at hbase hext
  refine ⟨l, hlinked, hnodup, fun pp hpp ↦ (reserved_eq_none_iff pp).mp (hfree pp hpp), ?_, ?_⟩
  · obtain ⟨pp, hpp, hlow⟩ := hbase
    exact ⟨pp, hpp, of_decide_eq_true hlow⟩
  · obtain ⟨pp, hpp, hhigh⟩ := hext
    refine ⟨pp, hpp, BitVec.not_lt.mp fun hlow ↦ ?_⟩
    rw [isBase, decide_eq_true hlow] at hhigh
    cases hhigh

theorem linkedArray_sound :
    ∃ c', checkPageFreeList 0xF0200000 sampleSize 0xF0112960 Strings.zeroRegs 3 true linkedArray =
        .ok c' ∧
      ∃ l : List (Fin sampleSize.toNat), Linked (memLinks c'.mem) (nonNull c'.pageFreeList)
        (l.map fun i : Fin sampleSize.toNat ↦ entry 0xF0200000 i) none ∧ l.Nodup ∧
          Acceptable l := by
  obtain ⟨c', s', mem, hcheck, -⟩ := checkPageFreeList_eq linkedArray_placed (by decide)
    linkedArray_holds linkedArray_list (Nat.lt_succ_self 2) true linkedArray_apart 0xF0112960
      Strings.zeroRegs
  rw [linkedArray_verdict] at hcheck
  exact ⟨c', hcheck, check_sound linkedArray_placed hcheck⟩

end

end Ptr

end JosKernel.Pmap
