import JosKernel.Lib.Linked
import Mathlib.Data.List.FinRange

/-!
# The free list of pages

`page_init` puts all pages on `page_free_list`.  `check_page_free_list` can first reorder the
list so that the pages that `entry_pgdir` maps come first.  It does so in one walk, with a
pointer to the end of the list of each kind, and writes to the links of pages that it has
walked past.

## The model

* There are `npages` pages, and a pointer to an entry of `pages` is its index, or `none`
  for `NULL`.
* A `struct page_info **` points to one of the two local variables or to the link of a
  page.
* The local variables hold anything at first.
* The walk takes fuel, since it need not end on a list with a cycle.
-/

namespace JosKernel.Pmap

variable {npages : Nat}

/-! ## The data -/

/-- `struct page_info`. -/
structure PageInfo (npages : Nat) where
  ppLink : Option (Fin npages)
  ppRef : BitVec 16
deriving DecidableEq, Repr

/-- The local variables of `check_page_free_list` that a `struct page_info **` points to. -/
inductive Local where
  | pp1
  | pp2
deriving DecidableEq, Repr

/-- The pages, the free list, and the local variables. -/
structure State (npages : Nat) where
  pages : Fin npages → PageInfo npages
  pageFreeList : Option (Fin npages)
  pp1 : Option (Fin npages)
  pp2 : Option (Fin npages)

/-- What a `struct page_info **` points to. -/
abbrev PageSlot (npages : Nat) := Slot Local (Fin npages)

/-- The pointers in the slots. -/
def State.links (s : State npages) : Links Local (Fin npages)
  | .root .pp1 => s.pp1
  | .root .pp2 => s.pp2
  | .link i => (s.pages i).ppLink

/-- `*tp = v`. -/
def State.store (s : State npages) (tp : PageSlot npages) (v : Option (Fin npages)) :
    State npages :=
  match tp with
  | .root .pp1 => { s with pp1 := v }
  | .root .pp2 => { s with pp2 := v }
  | .link i => { s with pages := Function.update s.pages i { s.pages i with ppLink := v } }

/-- `page2pa(pp)`. -/
def page2pa (pp : Fin npages) : BitVec 32 := BitVec.ofNat 32 pp <<< 12

/-- `PDX(la)`. -/
def pdx (la : BitVec 32) : BitVec 32 := (la >>> 22) &&& 0x3FF

/-- `pdx_limit`; the other value is `NPDENTRIES`. -/
def pdxLimit (onlyLowMemory : Bool) : BitVec 32 := if onlyLowMemory then 1 else 1024

/-! ## The code -/

/-- The body of the loop of `page_init`. -/
def pageInitStep (s : State npages) (i : Fin npages) : State npages :=
  { s with
    pages := Function.update s.pages i { ppLink := s.pageFreeList, ppRef := 0 }
    pageFreeList := some i }

/-- `page_init()`. -/
def pageInit (s : State npages) : State npages := (List.finRange npages).foldl pageInitStep s

/-- `int pagetype = PDX(page2pa(pp)) >= pdx_limit;` -/
def pagetype (limit : BitVec 32) (pp : Fin npages) : Fin 2 :=
  if limit ≤ pdx (page2pa pp) then 1 else 0

/-- The loop over the free list in `check_page_free_list`. -/
def moveLoop (limit : BitVec 32) : Nat → Option (Fin npages) → (Fin 2 → PageSlot npages) →
    State npages → Option ((Fin 2 → PageSlot npages) × State npages)
  | 0, _, _, _ => none
  | _ + 1, none, tp, s => some (tp, s)
  | fuel + 1, some pp, tp, s =>
      let s := s.store (tp (pagetype limit pp)) (some pp)
      let tp := Function.update tp (pagetype limit pp) (.link pp)
      moveLoop limit fuel (s.pages pp).ppLink tp s

/-- The variables that the two tails point to at first. -/
def heads (t : Fin 2) : Local := if t = 0 then .pp1 else .pp2

/-- What `check_page_free_list` does first with `only_low_memory`: move pages with lower
addresses first in the free list. -/
def lowFirst (fuel : Nat) (s : State npages) : Option (State npages) := do
  let (tp, s) ← moveLoop (pdxLimit true) fuel s.pageFreeList (fun t ↦ .root (heads t)) s
  let s := s.store (tp 1) none
  let s := s.store (tp 0) s.pp2
  return { s with pageFreeList := s.pp1 }

/-! ## The free list -/

/-- `page_free_list` is this list. -/
def FreeList (s : State npages) (l : List (Fin npages)) : Prop :=
  Linked s.links s.pageFreeList l none

section

variable {s : State npages} {l : List (Fin npages)} {i : Fin npages}

theorem links_store (s : State npages) (tp : PageSlot npages) (v : Option (Fin npages)) :
    (s.store tp v).links = Function.update s.links tp v := by
  funext slot
  rcases tp with (_ | _) | j <;> rcases slot with (_ | _) | i <;>
    simp [State.store, State.links, Function.update_apply]
  split_ifs <;> rfl

/-- Only links are written. -/
theorem ppRef_store (s : State npages) (tp : PageSlot npages) (v : Option (Fin npages))
    (i : Fin npages) : ((s.store tp v).pages i).ppRef = (s.pages i).ppRef := by
  rcases tp with (_ | _) | j
  · rfl
  · rfl
  · simp only [State.store, Function.update_apply]
    split_ifs with hij
    · rw [hij]
    · rfl

/-- `page_init` puts a page in front. -/
theorem freeList_pageInitStep (h : FreeList s l) (hi : i ∉ l) :
    FreeList (pageInitStep s i) (i :: l) := by
  refine ⟨rfl, ?_⟩
  have hlink : (pageInitStep s i).links (.link i) = s.pageFreeList := by
    simp [pageInitStep, State.links]
  rw [hlink]
  refine h.congr ?_
  intro j hj
  have hne : j ≠ i := fun hji ↦ hi (hji ▸ hj)
  simp [pageInitStep, State.links, hne]

theorem freeList_foldl {is : List (Fin npages)} (h : FreeList s l) (hnodup : (is ++ l).Nodup) :
    FreeList (is.foldl pageInitStep s) (is.reverse ++ l) := by
  induction is generalizing s l with
  | nil => exact h
  | cons i is ih =>
      rw [List.cons_append, List.nodup_cons, List.mem_append, not_or] at hnodup
      obtain ⟨⟨hi, hil⟩, hnodup⟩ := hnodup
      have hmove : (is ++ i :: l).Nodup := by
        rw [List.nodup_middle, List.nodup_cons, List.mem_append, not_or]
        exact ⟨⟨hi, hil⟩, hnodup⟩
      have hrest := ih (freeList_pageInitStep h hil) hmove
      rwa [List.foldl_cons, List.reverse_cons, List.append_assoc]

/-- The list that `page_init` builds from the empty list. -/
theorem freeList_pageInit (h : s.pageFreeList = none) :
    FreeList (pageInit s) (List.finRange npages).reverse := by
  have hempty : FreeList s [] := h
  have hlist := freeList_foldl hempty (by rw [List.append_nil]; exact List.nodup_finRange npages)
  rwa [List.append_nil] at hlist

end

/-! ## The walk -/

section

variable {limit : BitVec 32} {f₀ f : Links Local (Fin npages)} {tp : Fin 2 → PageSlot npages}
  {done rest : List (Fin npages)} {pp : Fin npages}

/-- The pages of a kind. -/
def ofType (limit : BitVec 32) (t : Fin 2) (l : List (Fin npages)) : List (Fin npages) :=
  l.filter fun pp ↦ pagetype limit pp = t

theorem mem_ofType {t : Fin 2} {l : List (Fin npages)} :
    pp ∈ ofType limit t l ↔ pp ∈ l ∧ pagetype limit pp = t := by
  simp [ofType]

theorem ofType_concat (t : Fin 2) (l : List (Fin npages)) (pp : Fin npages) :
    ofType limit t (l ++ [pp]) =
      if pagetype limit pp = t then ofType limit t l ++ [pp] else ofType limit t l := by
  rw [ofType, List.filter_append, List.filter_singleton]
  by_cases h : pagetype limit pp = t <;> simp [h, ofType]

/-- After the walk over the pages `done` there is a list for each kind, with its tail where
the pointer points, and all other links are as they were. -/
structure Moved (limit : BitVec 32) (f₀ f : Links Local (Fin npages))
    (tp : Fin 2 → PageSlot npages) (done : List (Fin npages)) : Prop where
  growing : ∀ t, Growing f (heads t) (ofType limit t done) (tp t)
  others : ∀ i ∉ done, f (.link i) = f₀ (.link i)

theorem Moved.start (f : Links Local (Fin npages)) :
    Moved limit f f (fun t ↦ .root (heads t)) [] :=
  ⟨fun t ↦ .nil f (heads t), fun _ _ ↦ rfl⟩

theorem heads_ne {t t' : Fin 2} (h : t ≠ t') : heads t ≠ heads t' := by
  revert t t'
  decide

/-- The tail of one kind is no slot of the other. -/
theorem Moved.apart (h : Moved limit f₀ f tp done) {t t' : Fin 2} (ht : t ≠ t') :
    tp t ≠ .root (heads t') ∧ ∀ i ∈ ofType limit t' done, tp t ≠ .link i := by
  refine (h.growing t).apart (heads_ne ht) ?_
  intro i hi hi'
  exact ht ((mem_ofType.mp hi).2.symm.trans (mem_ofType.mp hi').2)

/-- A tail is no link of a page that is still to come. -/
theorem Moved.tail_ne (h : Moved limit f₀ f tp done) (t : Fin 2) {i : Fin npages}
    (hi : i ∉ done) : tp t ≠ .link i := by
  rcases (h.growing t).slot with hroot | ⟨j, hj, hlink⟩
  · rw [hroot]
    simp
  · rw [hlink]
    rintro ⟨⟩
    exact hi (mem_ofType.mp hj).1

/-- **One page.**  It goes to the end of the list of its kind. -/
theorem Moved.step (h : Moved limit f₀ f tp done) (hpp : pp ∉ done) :
    Moved limit f₀ (Function.update f (tp (pagetype limit pp)) (some pp))
      (Function.update tp (pagetype limit pp) (.link pp)) (done ++ [pp]) := by
  refine ⟨?_, ?_⟩
  · intro t
    rw [ofType_concat]
    by_cases ht : pagetype limit pp = t
    · subst ht
      rw [if_pos rfl, Function.update_self]
      exact (h.growing _).push fun hmem ↦ hpp (mem_ofType.mp hmem).1
    · rw [if_neg ht, Function.update_of_ne (Ne.symm ht)]
      obtain ⟨hroot, hlinks⟩ := h.apart ht
      exact (h.growing t).frame hroot hlinks (some pp)
  · intro i hi
    rw [List.mem_append, not_or] at hi
    rw [Function.update_of_ne (h.tail_ne _ hi.1).symm]
    exact h.others i hi.1

/-- **The walk.**  It follows the links as they were, although it writes to some. -/
theorem moveLoop_moved {fuel : Nat} {p : Option (Fin npages)} {s : State npages}
    (h : Moved limit f₀ s.links tp done) (hrest : Linked f₀ p rest none)
    (hnodup : (done ++ rest).Nodup) (hfuel : rest.length < fuel) :
    ∃ tp' s', moveLoop limit fuel p tp s = some (tp', s') ∧
      Moved limit f₀ s'.links tp' (done ++ rest) ∧
      ∀ i, (s'.pages i).ppRef = (s.pages i).ppRef := by
  induction rest generalizing fuel p tp done s with
  | nil =>
      obtain ⟨fuel, rfl⟩ := Nat.exists_eq_succ_of_ne_zero (by omega : fuel ≠ 0)
      obtain rfl : p = none := hrest
      exact ⟨tp, s, rfl, by rwa [List.append_nil], fun i ↦ rfl⟩
  | cons pp rest ih =>
      obtain ⟨fuel, rfl⟩ := Nat.exists_eq_succ_of_ne_zero (by omega : fuel ≠ 0)
      obtain ⟨rfl, hrest⟩ := hrest
      have hpp : pp ∉ done := by
        rw [List.nodup_append] at hnodup
        exact fun hmem ↦ hnodup.2.2 pp hmem pp (List.mem_cons_self ..) rfl
      have hstep := h.step hpp
      rw [← links_store] at hstep
      -- the link of the page itself has not been written yet
      have hnext : ((s.store (tp (pagetype limit pp)) (some pp)).pages pp).ppLink =
          f₀ (.link pp) := by
        have hlinks := links_store s (tp (pagetype limit pp)) (some pp)
        have hlink := congrFun hlinks (.link pp)
        rw [Function.update_of_ne (h.tail_ne _ hpp).symm, h.others pp hpp] at hlink
        exact hlink
      rw [List.append_cons] at hnodup
      obtain ⟨tp', s', hrun, hmoved, hrefs⟩ :=
        ih hstep hrest hnodup (Nat.lt_of_succ_lt_succ hfuel)
      refine ⟨tp', s', ?_, by rwa [List.append_cons], ?_⟩
      · rw [moveLoop, hnext]
        exact hrun
      · intro i
        rw [hrefs, ppRef_store]

end

/-! ## The reordered list -/

section

variable {limit : BitVec 32} {f₀ f : Links Local (Fin npages)} {tp : Fin 2 → PageSlot npages}
  {l : List (Fin npages)}

/-- Joining the two lists. -/
theorem Moved.join (h : Moved limit f₀ f tp l) {f₁ f₂ : Links Local (Fin npages)}
    (h₁ : f₁ = Function.update f (tp 1) none)
    (h₂ : f₂ = Function.update f₁ (tp 0) (f₁ (.root .pp2))) :
    Linked f₂ (f₂ (.root .pp1)) (ofType limit 0 l ++ ofType limit 1 l) none ∧
      ∀ i ∉ l, f₂ (.link i) = f₀ (.link i) := by
  subst h₁ h₂
  have hhigh := (h.growing 1).linked none
  obtain ⟨hroot, hlinks⟩ := h.apart (by decide : (1 : Fin 2) ≠ 0)
  have hlow := ((h.growing 0).frame hroot hlinks none).linked
    (Function.update f (tp 1) none (.root .pp2))
  obtain ⟨-, hlinks'⟩ := h.apart (by decide : (0 : Fin 2) ≠ 1)
  refine ⟨hlow.append (hhigh.congr ?_), ?_⟩
  · intro i hi
    exact (Function.update_of_ne (hlinks' i hi).symm ..).symm
  · intro i hi
    rw [Function.update_of_ne (h.tail_ne 0 hi).symm, Function.update_of_ne (h.tail_ne 1 hi).symm]
    exact h.others i hi

/-- The pages that `entry_pgdir` maps. -/
def isLow (pp : Fin npages) : Bool := pdx (page2pa pp) < pdxLimit true

theorem ofType_low (l : List (Fin npages)) : ofType (pdxLimit true) 0 l = l.filter isLow := by
  refine List.filter_congr fun pp _ ↦ ?_
  rw [isLow, pagetype, decide_eq_decide, ← BitVec.not_le]
  split_ifs with h <;> simp [h]

theorem ofType_high (l : List (Fin npages)) :
    ofType (pdxLimit true) 1 l = l.filter fun pp ↦ !isLow pp := by
  refine List.filter_congr fun pp _ ↦ ?_
  rw [isLow, pagetype, ← decide_not, decide_eq_decide, BitVec.not_lt]
  split_ifs with h <;> simp [h]

/-- The reordering partitions a list. -/
theorem lowFirst_ok {s : State npages} {l : List (Fin npages)} (hl : FreeList s l) {fuel : Nat}
    (hfuel : l.length < fuel) :
    ∃ s', lowFirst fuel s = some s' ∧
      FreeList s' (l.filter isLow ++ l.filter fun pp ↦ !isLow pp) ∧
      (∀ i, (s'.pages i).ppRef = (s.pages i).ppRef) ∧
      ∀ i ∉ l, (s'.pages i).ppLink = (s.pages i).ppLink := by
  obtain ⟨tp, s', hrun, hmoved, hrefs⟩ :=
    moveLoop_moved (.start s.links) hl (by rw [List.nil_append]; exact hl.nodup) hfuel
  obtain ⟨hlist, hothers⟩ := hmoved.join (links_store s' (tp 1) none) (links_store _ (tp 0) _)
  rw [ofType_low, ofType_high] at hlist
  refine ⟨{ (s'.store (tp 1) none).store (tp 0) (s'.store (tp 1) none).pp2 with
    pageFreeList := ((s'.store (tp 1) none).store (tp 0) (s'.store (tp 1) none).pp2).pp1 },
    ?_, hlist, ?_, hothers⟩
  · rw [lowFirst, hrun]
    rfl
  · intro i
    exact (ppRef_store ..).trans ((ppRef_store ..).trans (hrefs i))

/-- **Reordering the free list.**  `page_init` makes a list of all pages of an empty list.
Any list, also one without low pages or without high pages, is partitioned: all its low
pages come first, then all others, both in the order they had.  No `pp_ref` changes, and
no link of a page that is not in the list. -/
theorem lowFirst_partition (s : State npages) :
    (s.pageFreeList = none → FreeList (pageInit s) (List.finRange npages).reverse) ∧
      ∀ l, FreeList s l → ∀ fuel, l.length < fuel →
        ∃ s', lowFirst fuel s = some s' ∧
          FreeList s' (l.filter isLow ++ l.filter fun pp ↦ !isLow pp) ∧
          (∀ i, (s'.pages i).ppRef = (s.pages i).ppRef) ∧
          ∀ i ∉ l, (s'.pages i).ppLink = (s.pages i).ppLink :=
  ⟨freeList_pageInit, fun _ hl _ hfuel ↦ lowFirst_ok hl hfuel⟩

/-- All of the low pages, and one page more, before `page_init`. -/
def freshState : State 1025 :=
  { pages := fun _ ↦ ⟨none, 0⟩, pageFreeList := none, pp1 := none, pp2 := none }

set_option maxRecDepth 4000 in
theorem freshState_partition :
    ∃ s', lowFirst 1026 (pageInit freshState) = some s' ∧
      FreeList s' ((List.finRange 1025).reverse.filter isLow ++
        (List.finRange 1025).reverse.filter fun pp ↦ !isLow pp) ∧
      (∀ i, (s'.pages i).ppRef = ((pageInit freshState).pages i).ppRef) ∧
      ∀ i ∉ (List.finRange 1025).reverse,
        (s'.pages i).ppLink = ((pageInit freshState).pages i).ppLink := by
  have hlen : (List.finRange 1025).reverse.length < 1026 := by
    rw [List.length_reverse, List.length_finRange]
    decide
  have hnone : freshState.pageFreeList = none := rfl
  have hlist : FreeList (pageInit freshState) (List.finRange 1025).reverse :=
    (lowFirst_partition freshState).1 hnone
  exact (lowFirst_partition (pageInit freshState)).2 (List.finRange 1025).reverse hlist 1026 hlen

end

end JosKernel.Pmap
