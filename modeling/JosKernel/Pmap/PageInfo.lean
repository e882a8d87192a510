import JosKernel.Lib.Layout
import JosKernel.Lib.Result
import JosKernel.Pmap.FreeList

/-!
# The array of pages in memory

In memory a `struct page_info *` is an address, and nothing but the code keeps it in the array
`pages`.  As long as the array holds a free list of its own entries, the code on addresses does
to it what the code on indices does: `page_init` whatever the array held before
and the reordering of `check_page_free_list` for any free list, also one with a cycle
(`array_refines`).

## The model

* The memory is the virtual memory of the kernel.  The local variables and `page_free_list` are
  not in it.
* The difference of two pointers is their distance shifted to the right.
-/

namespace JosKernel.Pmap

namespace Ptr

/-! ## The code -/

/-- `sizeof(struct page_info)`. -/
def pageInfoSize : Nat := 8

/-- The memory and the variables. -/
structure State where
  mem : Mem
  pageFreeList : BitVec 32
  pp1 : BitVec 32
  pp2 : BitVec 32
  /-- `nextfree` of `boot_alloc`. -/
  nextfree : BitVec 32

/-- A local variable. -/
def State.var (s : State) : Local → BitVec 32
  | .pp1 => s.pp1
  | .pp2 => s.pp2

/-- `*tp = v`; the link of a page is at its address. -/
def State.store (s : State) (tp : Slot Local (BitVec 32)) (v : BitVec 32) : State :=
  match tp with
  | .root .pp1 => { s with pp1 := v }
  | .root .pp2 => { s with pp2 := v }
  | .link pp => { s with mem := storeInt s.mem pp v }

/-- `&pages[i]`. -/
def entry (pages : BitVec 32) (i : Nat) : BitVec 32 := pages + BitVec.ofNat 32 (pageInfoSize * i)

/-- `page2pa(pp)`. -/
def page2pa (pages pp : BitVec 32) : BitVec 32 := (pp - pages).sshiftRight 3 <<< 12

/-- The body of the loop of `page_init`. -/
def pageInitStep (pages : BitVec 32) (s : State) (i : Nat) : State :=
  let mem := storeShort s.mem (entry pages i + 4) 0
  { s with mem := storeInt mem (entry pages i) s.pageFreeList, pageFreeList := entry pages i }

/-- `page_init()`. -/
def pageInit (pages npages : BitVec 32) (s : State) : State :=
  (List.range npages.toNat).foldl (pageInitStep pages) s

/-- `int pagetype = PDX(page2pa(pp)) >= pdx_limit;` -/
def pagetype (pages limit pp : BitVec 32) : Fin 2 :=
  if limit ≤ pdx (page2pa pages pp) then ⟨1, Nat.one_lt_two⟩ else ⟨0, Nat.zero_lt_two⟩

/-- The loop over the free list in `check_page_free_list`. -/
def moveLoop (pages limit : BitVec 32) : Nat → BitVec 32 → (Fin 2 → Slot Local (BitVec 32)) →
    State → Option ((Fin 2 → Slot Local (BitVec 32)) × State)
  | 0, _, _, _ => none
  | fuel + 1, pp, tp, s =>
      if pp = 0 then some (tp, s)
      else
        let s := s.store (tp (pagetype pages limit pp)) pp
        let tp := Function.update tp (pagetype pages limit pp) (.link pp)
        moveLoop pages limit fuel (loadInt s.mem pp) tp s

/-- What `check_page_free_list` does first with `only_low_memory`. -/
def lowFirst (pages : BitVec 32) (fuel : Nat) (s : State) : Option State := do
  let (tp, s) ← moveLoop pages (pdxLimit true) fuel s.pageFreeList (fun t ↦ .root (heads t)) s
  let s := s.store (tp ⟨1, Nat.one_lt_two⟩) 0
  let s := s.store (tp ⟨0, Nat.zero_lt_two⟩) s.pp2
  return { s with pageFreeList := s.pp1 }

/-! ## Entries and pointers -/

/-- There is room for the array, and a pointer to an entry is not null. -/
structure Placed (pages : BitVec 32) (npages : Nat) : Prop where
  pos : 0 < pages.toNat
  fits : pages.toNat + pageInfoSize * npages < 2 ^ 32
  length : npages ≤ 2 ^ 20

variable {pages : BitVec 32} {npages : Nat}

/-- A pointer to an entry, or null. -/
def ptr (pages : BitVec 32) : Option (Fin npages) → BitVec 32
  | none => 0
  | some i => entry pages i

theorem entry_toNat (hplaced : Placed pages npages) {i : Nat} (hi : i ≤ npages) :
    (entry pages i).toNat = pages.toNat + 8 * i := by
  have hfits := hplaced.fits
  simp only [pageInfoSize] at hfits
  rw [entry, pageInfoSize, BitVec.toNat_add, BitVec.toNat_ofNat]
  omega

theorem entry_ne_zero (hplaced : Placed pages npages) (i : Fin npages) : entry pages i ≠ 0 := by
  intro hzero
  have hpos := hplaced.pos
  have hnat := entry_toNat hplaced i.isLt.le
  rw [hzero] at hnat
  change 0 = _ at hnat
  omega

theorem ptr_eq_zero_iff (hplaced : Placed pages npages) (p : Option (Fin npages)) :
    ptr pages p = 0 ↔ p = none := by
  cases p with
  | none => exact ⟨fun _ ↦ rfl, fun _ ↦ rfl⟩
  | some i => exact ⟨fun hzero ↦ absurd hzero (entry_ne_zero hplaced i), fun hnone ↦ by cases hnone⟩

/-- The page of an entry. -/
theorem page2pa_entry (hplaced : Placed pages npages) (i : Fin npages) :
    page2pa pages (entry pages i) = Pmap.page2pa i := by
  have hfits := hplaced.fits
  have hlength := hplaced.length
  have hlt := i.isLt
  have hdistance : (entry pages i - pages).toNat = 8 * i := by
    rw [entry, pageInfoSize, BitVec.add_comm, BitVec.add_sub_cancel, BitVec.toNat_ofNat]
    omega
  have hmsb : (entry pages i - pages).msb = false := by
    rw [BitVec.msb_eq_decide, hdistance]
    exact decide_eq_false (by omega)
  have hindex : (entry pages i - pages).sshiftRight 3 = BitVec.ofNat 32 i := by
    rw [BitVec.sshiftRight_eq_of_msb_false hmsb]
    refine BitVec.eq_of_toNat_eq ?_
    rw [BitVec.toNat_ushiftRight, hdistance, Nat.shiftRight_eq_div_pow, BitVec.toNat_ofNat]
    omega
  rw [page2pa, hindex, Pmap.page2pa]

/-- Two entries. -/
theorem entry_apart (hplaced : Placed pages npages) {i j : Fin npages} (hij : i ≠ j) :
    Apart (entry pages i) pageInfoSize (entry pages j) pageInfoSize := by
  have hfits := hplaced.fits
  have hi := i.isLt
  have hj := j.isLt
  have hne : i.val ≠ j.val := mt Fin.ext hij
  simp only [entry, pageInfoSize] at hfits ⊢
  rcases Nat.lt_or_gt_of_ne hne with hlt | hgt
  · exact apart_offsets (by omega) (by omega) (by decide) (by decide)
  · exact (apart_offsets (by omega) (by omega) (by decide) (by decide)).symm

/-! ## What the array holds -/

/-- An entry of the array. -/
structure HoldsAt (pages : BitVec 32) (mem : Mem) (s : Pmap.State npages) (i : Fin npages) :
    Prop where
  link : loadInt mem (entry pages i) = ptr pages (s.pages i).ppLink
  ref : loadShort mem (entry pages i + 4) = (s.pages i).ppRef

/-- The array and the free list. -/
structure Holds (pages : BitVec 32) (c : State) (s : Pmap.State npages) : Prop where
  array : ∀ i, HoldsAt pages c.mem s i
  pageFreeList : c.pageFreeList = ptr pages s.pageFreeList

/-- The entry stays as it is. -/
theorem HoldsAt.keep {mem mem' : Mem} {s s' : Pmap.State npages} {i : Fin npages}
    (h : HoldsAt pages mem s i) (hmem : Keeps mem mem' (entry pages i) pageInfoSize)
    (hs : s'.pages i = s.pages i) : HoldsAt pages mem' s' i := by
  have hlink := hmem.part (x := 0) (y := 4) (by decide)
  rw [show entry pages i + BitVec.ofNat 32 0 = entry pages i from BitVec.add_zero _] at hlink
  have href := hmem.part (x := 4) (y := 2) (by decide)
  exact ⟨by rw [hlink.loadInt, hs, h.link], by rw [hs, ← h.ref]; exact href.loadShort⟩

/-- Only the array matters. -/
theorem HoldsAt.keep_array {mem mem' : Mem} {s : Pmap.State npages} {i : Fin npages}
    (h : HoldsAt pages mem s i) (hmem : Keeps mem mem' pages (pageInfoSize * npages)) :
    HoldsAt pages mem' s i := by
  have hlt := i.isLt
  refine h.keep (hmem.part ?_) rfl
  simp only [pageInfoSize]
  omega

/-! ## Stores -/

/-- The slot of an entry. -/
def slot (pages : BitVec 32) : PageSlot npages → Slot Local (BitVec 32)
  | .root r => .root r
  | .link i => .link (entry pages i)

theorem changesOnly_link (mem : Mem) (i : Fin npages) (w : BitVec 32) :
    ChangesOnly mem (storeInt mem (entry pages i) w) (entry pages i) pageInfoSize :=
  fun x hx ↦ changesOnly_storeInt mem _ w x (le_trans (by decide) hx)

theorem changesOnly_ref (mem : Mem) (i : Fin npages) (w : BitVec 16) :
    ChangesOnly mem (storeShort mem (entry pages i + 4) w) (entry pages i) pageInfoSize :=
  (changesOnly_storeShort mem _ w).whole (x := 4) (by decide)

/-- An entry is in the array. -/
theorem changesOnly_array {mem mem' : Mem} {i : Fin npages}
    (h : ChangesOnly mem mem' (entry pages i) pageInfoSize) :
    ChangesOnly mem mem' pages (pageInfoSize * npages) := by
  have hlt := i.isLt
  refine h.whole ?_
  simp only [pageInfoSize]
  omega

/-- The reference count is behind the link. -/
theorem loadShort_link (mem : Mem) (i : Fin npages) (w : BitVec 32) :
    loadShort (storeInt mem (entry pages i) w) (entry pages i + 4) =
      loadShort mem (entry pages i + 4) := by
  have hapart := apart_offsets (a := entry pages i) (n := 4) (y := 4) (m := 2) (x := 0) (by decide)
    (by decide) (by decide) (by decide)
  rw [show entry pages i + BitVec.ofNat 32 0 = entry pages i from BitVec.add_zero _] at hapart
  exact ((changesOnly_storeInt mem _ w).keeps hapart.symm).loadShort

theorem HoldsAt.store (hplaced : Placed pages npages) {c : State} {s : Pmap.State npages}
    {i : Fin npages} (h : HoldsAt pages c.mem s i) (tp : PageSlot npages)
    (v : Option (Fin npages)) :
    HoldsAt pages (c.store (slot pages tp) (ptr pages v)).mem (s.store tp v) i := by
  rcases tp with (_ | _) | j
  · exact ⟨h.link, h.ref⟩
  · exact ⟨h.link, h.ref⟩
  · by_cases hij : i = j
    · subst hij
      have hself : (s.store (.link i) v).pages i = { s.pages i with ppLink := v } :=
        Function.update_self ..
      refine ⟨?_, ?_⟩
      · rw [hself]
        exact loadInt_storeInt ..
      · rw [hself]
        exact (loadShort_link ..).trans h.ref
    · refine h.keep ((changesOnly_link _ j _).keeps (entry_apart hplaced hij)) ?_
      exact Function.update_of_ne hij ..

/-- A store to a slot stays in the array. -/
theorem store_changesOnly (c : State) (tp : PageSlot npages) (v : BitVec 32) :
    ChangesOnly c.mem (c.store (slot pages tp) v).mem pages (pageInfoSize * npages) := by
  rcases tp with (_ | _) | j
  · exact .refl _ _ _
  · exact .refl _ _ _
  · exact changesOnly_array (changesOnly_link _ j _)

theorem store_nextfree (c : State) (tp : Slot Local (BitVec 32)) (v : BitVec 32) :
    (c.store tp v).nextfree = c.nextfree := by
  rcases tp with (_ | _) | j <;> rfl

theorem store_var (c : State) (tp : Slot Local (BitVec 32)) (v : BitVec 32) (r : Local) :
    (c.store tp v).var r = if tp = .root r then v else c.var r := by
  rcases tp with (_ | _) | j <;> cases r <;> rfl

/-! ## `page_init` -/

/-- One page: its entry is right, and no other is written. -/
theorem pageInitStep_holds (hplaced : Placed pages npages) {c : State} {s : Pmap.State npages}
    (hlist : c.pageFreeList = ptr pages s.pageFreeList) (i : Fin npages) :
    HoldsAt pages (pageInitStep pages c i).mem (Pmap.pageInitStep s i) i ∧
      (pageInitStep pages c i).pageFreeList = ptr pages (Pmap.pageInitStep s i).pageFreeList ∧
      (∀ j, j ≠ i → HoldsAt pages c.mem s j →
        HoldsAt pages (pageInitStep pages c i).mem (Pmap.pageInitStep s i) j) ∧
      ChangesOnly c.mem (pageInitStep pages c i).mem pages (pageInfoSize * npages) := by
  have hchange : ChangesOnly c.mem (pageInitStep pages c i).mem (entry pages i) pageInfoSize :=
    (changesOnly_ref c.mem i 0).trans (changesOnly_link _ i _)
  have hself : (Pmap.pageInitStep s i).pages i = { ppLink := s.pageFreeList, ppRef := 0 } :=
    Function.update_self ..
  refine ⟨⟨?_, ?_⟩, rfl, ?_, changesOnly_array hchange⟩
  · rw [hself]
    exact (loadInt_storeInt ..).trans hlist
  · rw [hself]
    exact (loadShort_link ..).trans (loadShort_storeShort ..)
  · intro j hj h
    exact h.keep (hchange.keeps (entry_apart hplaced hj)) (Function.update_of_ne hj ..)

/-- The pages one after another: the entries that have been written, or were right before. -/
theorem pageInit_foldl (hplaced : Placed pages npages) {is : List (Fin npages)} {c : State}
    {s : Pmap.State npages} (hnodup : is.Nodup)
    (hlist : c.pageFreeList = ptr pages s.pageFreeList) :
    let c' := (is.map Fin.val).foldl (pageInitStep pages) c
    let s' := is.foldl Pmap.pageInitStep s
    (∀ i, (i ∈ is ∨ HoldsAt pages c.mem s i) → HoldsAt pages c'.mem s' i) ∧
      c'.pageFreeList = ptr pages s'.pageFreeList ∧
      ChangesOnly c.mem c'.mem pages (pageInfoSize * npages) := by
  induction is generalizing c s with
  | nil => exact ⟨fun i hi ↦ hi.resolve_left List.not_mem_nil, hlist, .refl _ _ _⟩
  | cons i is ih =>
      obtain ⟨hi, hnodup⟩ := List.nodup_cons.mp hnodup
      obtain ⟨hself, hlist', hothers, hchange⟩ := pageInitStep_holds hplaced hlist i
      obtain ⟨harray, hend, hrest⟩ := ih hnodup hlist'
      refine ⟨fun j hj ↦ harray j ?_, hend, hchange.trans hrest⟩
      by_cases hji : j = i
      · exact .inr (hji ▸ hself)
      · exact hj.imp (fun hmem ↦ (List.mem_cons.mp hmem).resolve_left hji) (hothers j hji)

/-- **`page_init`** makes its list of all pages, whatever is in the array. -/
theorem pageInit_refines {pages npages : BitVec 32} (hplaced : Placed pages npages.toNat)
    {c : State} {s : Pmap.State npages.toNat} (hlist : c.pageFreeList = ptr pages s.pageFreeList) :
    Holds pages (pageInit pages npages c) (Pmap.pageInit s) ∧
      ChangesOnly c.mem (pageInit pages npages c).mem pages (pageInfoSize * npages.toNat) := by
  obtain ⟨harray, hend, hchange⟩ := pageInit_foldl hplaced (List.nodup_finRange npages.toNat) hlist
  rw [List.map_coe_finRange_eq_range] at harray hend hchange
  exact ⟨⟨fun i ↦ harray i (.inl (List.mem_finRange i)), hend⟩, hchange⟩

/-! ## Reordering -/

theorem pagetype_entry (hplaced : Placed pages npages) (limit : BitVec 32) (i : Fin npages) :
    pagetype pages limit (entry pages i) = Pmap.pagetype limit i := by
  rw [pagetype, page2pa_entry hplaced, Pmap.pagetype]
  rfl

/-- While the pages are moved: a local variable is uninitialised as long as its tail points to
it. -/
structure Moving (pages : BitVec 32) (c₀ c : State) (s : Pmap.State npages)
    (tp : Fin 2 → PageSlot npages) : Prop where
  array : ∀ i, HoldsAt pages c.mem s i
  tails : ∀ t, tp t = .root (heads t) ∨
    (∃ i, tp t = .link i) ∧ c.var (heads t) = ptr pages (s.links (.root (heads t)))
  changes : ChangesOnly c₀.mem c.mem pages (pageInfoSize * npages)
  nextfree : c.nextfree = c₀.nextfree

/-- The variable at the head of a list after a store to its tail or to that of the other list. -/
theorem Moving.var {c₀ c : State} {s : Pmap.State npages} {tp : Fin 2 → PageSlot npages}
    (h : Moving pages c₀ c s tp) (t t' : Fin 2) (v : Option (Fin npages))
    (ht : t = t' ∨ c.var (heads t) = ptr pages (s.links (.root (heads t)))) :
    (c.store (slot pages (tp t')) (ptr pages v)).var (heads t) =
      ptr pages ((s.store (tp t') v).links (.root (heads t))) := by
  rw [store_var, links_store]
  by_cases hslot : tp t' = .root (heads t)
  · have hself : slot pages (.root (heads t) : PageSlot npages) = .root (heads t) := rfl
    rw [hslot, if_pos hself, Function.update_self]
  · have hslot' : slot pages (tp t') ≠ .root (heads t) := by
      cases htp : tp t' with
      | root r => simpa [slot, htp] using hslot
      | link i => simp [slot]
    rw [if_neg hslot', Function.update_of_ne (Ne.symm hslot)]
    rcases ht with rfl | hvar
    · exact ((h.tails t).resolve_left hslot).2
    · exact hvar

/-- A store to a tail. -/
theorem Moving.store (hplaced : Placed pages npages) {c₀ c : State} {s : Pmap.State npages}
    {tp : Fin 2 → PageSlot npages} (h : Moving pages c₀ c s tp) (t : Fin 2)
    (v : Option (Fin npages)) :
    Moving pages c₀ (c.store (slot pages (tp t)) (ptr pages v)) (s.store (tp t) v) tp where
  array j := (h.array j).store hplaced (tp t) v
  tails t' := (h.tails t').imp_right fun htail ↦ ⟨htail.1, h.var t' t v (.inr htail.2)⟩
  changes := h.changes.trans (store_changesOnly c (tp t) _)
  nextfree := (store_nextfree ..).trans h.nextfree

/-- A page is moved. -/
theorem Moving.move (hplaced : Placed pages npages) {c₀ c : State} {s : Pmap.State npages}
    {tp : Fin 2 → PageSlot npages} (h : Moving pages c₀ c s tp) (t : Fin 2) (i : Fin npages) :
    Moving pages c₀ (c.store (slot pages (tp t)) (entry pages i)) (s.store (tp t) (some i))
      (Function.update tp t (.link i)) := by
  have hstore := h.store hplaced t (some i)
  refine ⟨hstore.array, fun t' ↦ ?_, hstore.changes, hstore.nextfree⟩
  by_cases ht : t' = t
  · subst ht
    rw [Function.update_self]
    exact .inr ⟨⟨i, rfl⟩, h.var t' t' (some i) (.inl rfl)⟩
  · rw [Function.update_of_ne ht]
    exact hstore.tails t'

/-- **The walk.**  On addresses it does the same as on indices. -/
theorem moveLoop_refines (hplaced : Placed pages npages) (limit : BitVec 32) {c₀ c : State}
    {s : Pmap.State npages} {tp : Fin 2 → PageSlot npages} (h : Moving pages c₀ c s tp) (fuel : Nat)
    (p : Option (Fin npages)) :
    Option.Rel (fun x y ↦ (x.1 = fun t ↦ slot pages (y.1 t)) ∧ Moving pages c₀ x.2 y.2 y.1)
      (moveLoop pages limit fuel (ptr pages p) (fun t ↦ slot pages (tp t)) c)
      (Pmap.moveLoop limit fuel p tp s) := by
  induction fuel generalizing c s tp p with
  | zero => exact .none
  | succ fuel ih =>
      cases p with
      | none => exact .some ⟨rfl, h⟩
      | some i =>
          have hstep := h.move hplaced (Pmap.pagetype limit i) i
          have htails : Function.update (fun t ↦ slot pages (tp t)) (Pmap.pagetype limit i)
              (.link (entry pages i)) =
                fun t ↦ slot pages (Function.update tp (Pmap.pagetype limit i) (.link i) t) := by
            funext t
            by_cases ht : t = Pmap.pagetype limit i
            · rw [ht, Function.update_self, Function.update_self]
              rfl
            · rw [Function.update_of_ne ht, Function.update_of_ne ht]
          rw [moveLoop, ptr, if_neg (entry_ne_zero hplaced i)]
          simp only [pagetype_entry hplaced, htails]
          rw [(hstep.array i).link]
          exact ih hstep _

/-- **Reordering** the free list in memory, of any length and also if it never ends. -/
theorem lowFirst_refines (hplaced : Placed pages npages) {c : State} {s : Pmap.State npages}
    (h : Holds pages c s) (fuel : Nat) :
    Option.Rel (fun c' s' ↦ Holds pages c' s' ∧
        ChangesOnly c.mem c'.mem pages (pageInfoSize * npages) ∧ c'.nextfree = c.nextfree)
      (lowFirst pages fuel c) (Pmap.lowFirst fuel s) := by
  have hstart : Moving pages c c s fun t ↦ .root (heads t) :=
    ⟨h.array, fun _ ↦ .inl rfl, .refl _ _ _, rfl⟩
  have hwalk := moveLoop_refines hplaced (pdxLimit true) hstart fuel s.pageFreeList
  rw [lowFirst, Pmap.lowFirst, h.pageFreeList]
  refine Result.rel_bind hwalk ?_
  rintro ⟨-, c₁⟩ ⟨tp, s₁⟩ ⟨rfl, hmoving⟩
  have hhigh := hmoving.store hplaced 1 none
  have hpp2 : (c₁.store (slot pages (tp 1)) 0).pp2 = ptr pages (s₁.store (tp 1) none).pp2 :=
    hmoving.var 1 1 none (.inl rfl)
  have hlow := hhigh.store hplaced 0 (s₁.store (tp 1) none).pp2
  have hpp1 := hhigh.var 0 0 (s₁.store (tp 1) none).pp2 (.inl rfl)
  rw [← hpp2] at hlow hpp1
  exact .some ⟨⟨fun i ↦ (hlow.array i).keep (fun _ _ ↦ rfl) rfl, hpp1⟩, hlow.changes, hlow.nextfree⟩

/-- **The code on addresses refines the code on indices.**  `page_init` makes its list in the
array whatever the array held; and while the array holds a free list of its own entries,
reordering the list in memory does what reordering it by the indices does, or goes on for ever as
that does.  Nothing outside of the array is written. -/
theorem array_refines {pages npages : BitVec 32} (hplaced : Placed pages npages.toNat) (c : State)
    (s : Pmap.State npages.toNat) :
    (c.pageFreeList = ptr pages s.pageFreeList →
      Holds pages (pageInit pages npages c) (Pmap.pageInit s) ∧
        ChangesOnly c.mem (pageInit pages npages c).mem pages (pageInfoSize * npages.toNat)) ∧
    (Holds pages c s → ∀ fuel,
      Option.Rel (fun c' s' ↦ Holds pages c' s' ∧
          ChangesOnly c.mem c'.mem pages (pageInfoSize * npages.toNat) ∧ c'.nextfree = c.nextfree)
        (lowFirst pages fuel c) (Pmap.lowFirst fuel s)) :=
  ⟨pageInit_refines hplaced, lowFirst_refines hplaced⟩

/-- The memory before there is a list: all entries are 0, and the local variables are not set. -/
def emptyArray : State :=
  { mem := fun _ ↦ 0, pageFreeList := 0, pp1 := 0xDEADBEEF, pp2 := 0xDEADBEEF, nextfree := 0 }

/-- A little more than a megabyte of memory. -/
abbrev sampleSize : BitVec 32 := 0x102

theorem one_lt_sampleSize : 1 < sampleSize.toNat := by decide

theorem last_lt_sampleSize : 0x101 < sampleSize.toNat := by decide

/-- A page of base memory. -/
def basePage : Fin sampleSize.toNat := ⟨1, one_lt_sampleSize⟩

/-- A page of extended memory. -/
def extPage : Fin sampleSize.toNat := ⟨0x101, last_lt_sampleSize⟩

/-- The entries of these pages, without and with their link. -/
def emptyPages : Pmap.State sampleSize.toNat :=
  { pages := fun _ ↦ ⟨none, 0⟩, pageFreeList := none, pp1 := none, pp2 := none }

def linkedPages : Pmap.State sampleSize.toNat :=
  { emptyPages.store (.link extPage) (some basePage) with pageFreeList := some extPage }

/-- The array at 2 megabytes, with a free list of the two pages. -/
def linkedArray : State :=
  { emptyArray.store (.link (entry 0xF0200000 0x101)) (entry 0xF0200000 1) with
    pageFreeList := entry 0xF0200000 0x101 }

theorem linkedArray_placed : Placed 0xF0200000 sampleSize.toNat :=
  ⟨by decide, by decide, by decide⟩

theorem linkedArray_holds : Holds 0xF0200000 linkedArray linkedPages := by
  have hlink : (0 : Byte) ++ (0 : Byte) ++ (0 : Byte) ++ (0 : Byte) = (0 : BitVec 32) := by decide
  have href : (0 : Byte) ++ (0 : Byte) = (0 : BitVec 16) := by decide
  have hempty : ∀ i, HoldsAt 0xF0200000 emptyArray.mem emptyPages i := fun i ↦ ⟨hlink, href⟩
  refine ⟨fun i ↦ ?_, rfl⟩
  exact ((hempty i).store linkedArray_placed (.link extPage) (some basePage)).keep
    (fun _ _ ↦ rfl) rfl

theorem linkedArray_list : FreeList linkedPages [extPage, basePage] := by
  have hext : linkedPages.pages extPage = ⟨some basePage, 0⟩ := rfl
  have hbase : linkedPages.pages basePage = ⟨none, 0⟩ := rfl
  exact ⟨rfl, congrArg PageInfo.ppLink hext, congrArg PageInfo.ppLink hbase⟩

theorem linkedArray_refines :
    Holds 0xF0200000 (pageInit 0xF0200000 sampleSize emptyArray) (Pmap.pageInit emptyPages) ∧
      Option.Rel (fun c' s' ↦ Holds 0xF0200000 c' s' ∧
          ChangesOnly linkedArray.mem c'.mem 0xF0200000 (pageInfoSize * sampleSize.toNat) ∧
            c'.nextfree = linkedArray.nextfree)
        (lowFirst 0xF0200000 3 linkedArray) (Pmap.lowFirst 3 linkedPages) :=
  ⟨((array_refines linkedArray_placed emptyArray emptyPages).1 rfl).1,
    (array_refines linkedArray_placed linkedArray linkedPages).2 linkedArray_holds 3⟩

end Ptr

end JosKernel.Pmap
