import JosKernel.Kdebug.Bracket
import Mathlib.Algebra.Ring.Int.Defs
import Mathlib.Algebra.Ring.Nat

/-!
# What a search reads

`stabBinsearchReads` lists the indices of the entries that `stab_binsearch` reads, in
order: those of each pass of its loop, and those of the final scan.  The list is
complete: two tables with the same entries at these indices give the same results
(`stabBinsearch_congr`).

`stabBinsearch_reads` says that a search of any table ends after a bounded number of
passes and reads nothing outside of the range that it is given.
-/

namespace JosKernel.Kdebug

open JosKernel.Interval

/-! ## The entries that are read -/

/-- The entries that `scanType` reads. -/
def scanReads (stabs : List Stab) (type l m : Int) : List Int :=
  if l ≤ m then
    m :: match readStab stabs m with
      | .ok e => if (e.nType.toNat : Int) ≠ type then scanReads stabs type l (m - 1) else []
      | .error _ => []
  else []
termination_by (m - l + 1).toNat

/-- The entries that a pass through the search loop reads: those of its scan, and the
one that it then compares with the address. -/
def stepReads (stabs : List Stab) (type : Int) (s : Search) : List Int :=
  scanReads stabs type s.l (mid s.l s.r) ++
    match scanType stabs type s.l (mid s.l s.r) with
    | .ok m => if m < s.l then [] else [m]
    | .error _ => []

/-- The states in which the search loop enters its body. -/
def searchPasses (stabs : List Stab) (type : Int) (s : Search) : List Search :=
  if _hlr : s.l ≤ s.r then
    s :: match _hs : searchStep stabs type s with
      | .ok s' => searchPasses stabs type s'
      | .error _ => []
  else []
termination_by s.measure (HasType stabs type) (valueAt stabs)
decreasing_by exact (searchStep_ok _hlr _hs).measure_lt

/-- The entries that the final scan reads. -/
def finalReads (stabs : List Stab) (type : Int) (s : Search) : List Int :=
  if s.anyMatches then scanReads stabs type (s.regionLeft + 1) s.regionRight else []

/-- The entries that `stab_binsearch` reads. -/
def stabBinsearchReads (stabs : List Stab) (regionLeft regionRight type : Int)
    (addr : BitVec 32) : List Int :=
  (searchPasses stabs type (.init regionLeft regionRight addr)).flatMap (stepReads stabs type) ++
    match searchLoop stabs type (.init regionLeft regionRight addr) with
    | .ok s => finalReads stabs type s
    | .error _ => []

variable {stabs stabs' : List Stab} {type l l₀ r₀ : Int} {x : BitVec 32}

theorem searchPasses_step {s s' : Search} (hlr : s.l ≤ s.r)
    (hs : searchStep stabs type s = .ok s') :
    searchPasses stabs type s = s :: searchPasses stabs type s' := by
  rw [searchPasses, dif_pos hlr]
  split <;> simp_all

theorem searchPasses_end {s : Search} (hlr : s.r < s.l) : searchPasses stabs type s = [] := by
  rw [searchPasses, dif_neg (by omega)]

/-! ## Nothing else matters -/

/-- The tables agree on the entries of the list. -/
def Agree (stabs stabs' : List Stab) (is : List Int) : Prop :=
  ∀ i ∈ is, stabAt stabs' i = stabAt stabs i

theorem Agree.readStab {is : List Int} (h : Agree stabs stabs' is) {i : Int} (hi : i ∈ is) :
    readStab stabs' i = readStab stabs i := by
  rw [Kdebug.readStab, Kdebug.readStab, h i hi]

theorem agree_append {is is' : List Int} :
    Agree stabs stabs' (is ++ is') ↔ Agree stabs stabs' is ∧ Agree stabs stabs' is' := by
  simp only [Agree, List.forall_mem_append]

theorem scanType_congr {m : Int} (h : Agree stabs stabs' (scanReads stabs type l m)) :
    scanType stabs' type l m = scanType stabs type l m := by
  rw [scanReads] at h
  rw [scanType, scanType.eq_def stabs]
  by_cases hlm : l ≤ m
  · simp only [if_pos hlm] at h ⊢
    rw [h.readStab List.mem_cons_self]
    cases hread : readStab stabs m with
    | error e => rfl
    | ok e =>
        simp only [Result.ok_bind]
        split_ifs with ht
        · simp only [hread, if_pos ht] at h
          exact scanType_congr fun i hi ↦ h i (List.mem_cons_of_mem m hi)
        · rfl
  · simp only [if_neg hlm]
termination_by (m - l + 1).toNat

theorem searchStep_congr {s : Search} (h : Agree stabs stabs' (stepReads stabs type s)) :
    searchStep stabs' type s = searchStep stabs type s := by
  obtain ⟨hscan, hread⟩ := agree_append.mp h
  rw [searchStep, searchStep, scanType_congr hscan]
  cases hm : scanType stabs type s.l (mid s.l s.r) with
  | error e => rfl
  | ok m =>
      simp only [hm] at hread
      simp only [Result.ok_bind]
      split_ifs at hread ⊢
      · rfl
      · rw [hread.readStab (List.mem_singleton_self m)]

theorem searchLoop_congr {s : Search}
    (h : Agree stabs stabs' ((searchPasses stabs type s).flatMap (stepReads stabs type))) :
    searchLoop stabs' type s = searchLoop stabs type s := by
  by_cases hlr : s.l ≤ s.r
  · cases hs : searchStep stabs type s with
    | error e =>
        have hpass : Agree stabs stabs' (stepReads stabs type s) := by
          rw [searchPasses, dif_pos hlr, List.flatMap_cons, agree_append] at h
          exact h.1
        have hs' := (searchStep_congr hpass).trans hs
        rw [searchLoop, searchLoop.eq_def stabs, dif_pos hlr, dif_pos hlr]
        split <;> split <;> simp_all
    | ok s' =>
        rw [searchPasses_step hlr hs, List.flatMap_cons, agree_append] at h
        have hs' := (searchStep_congr h.1).trans hs
        have hstep := searchStep_ok hlr hs
        rw [searchLoop_step hlr hs, searchLoop_step hlr hs', searchLoop_congr h.2]
  · rw [searchLoop_end (by omega), searchLoop_end (by omega)]
termination_by s.measure (HasType stabs type) (valueAt stabs)
decreasing_by exact hstep.measure_lt

/-- **The reads are complete.**  A search depends on no other entries. -/
theorem stabBinsearch_congr (h : Agree stabs stabs' (stabBinsearchReads stabs l₀ r₀ type x)) :
    stabBinsearch stabs' l₀ r₀ type x = stabBinsearch stabs l₀ r₀ type x := by
  obtain ⟨hloop, hfinal⟩ := agree_append.mp h
  rw [stabBinsearch, stabBinsearch, searchLoop_congr hloop]
  cases ht : searchLoop stabs type (.init l₀ r₀ x) with
  | error e => rfl
  | ok t =>
      simp only [ht, finalReads] at hfinal
      simp only [Result.ok_bind]
      split_ifs at hfinal ⊢
      · rw [scanType_congr hfinal]
      · rfl

/-! ## Where the reads are -/

theorem scanReads_mem {m i : Int} (hi : i ∈ scanReads stabs type l m) : l ≤ i ∧ i ≤ m := by
  rw [scanReads] at hi
  split_ifs at hi with hlm
  · rcases List.mem_cons.mp hi with rfl | hi
    · exact ⟨hlm, le_refl _⟩
    · split at hi
      · split_ifs at hi with ht
        · have := scanReads_mem hi
          omega
        · cases hi
      · cases hi
  · cases hi
termination_by (m - l + 1).toNat

theorem stepReads_mem {s : Search} {i : Int} (hlr : s.l ≤ s.r) (hi : i ∈ stepReads stabs type s) :
    s.l ≤ i ∧ i ≤ s.r := by
  have hmid := mid_mem hlr
  rcases List.mem_append.mp hi with hi | hi
  · have := scanReads_mem hi
    omega
  · cases hm : scanType stabs type s.l (mid s.l s.r) with
    | error e => simp only [hm] at hi; cases hi
    | ok m =>
        simp only [hm] at hi
        split_ifs at hi with hlt
        · cases hi
        · obtain rfl := List.mem_singleton.mp hi
          rcases scanType_ok hm with hlast | ⟨-, rfl⟩
          · have := hlast.le
            omega
          · omega

/-- A pass starts within the bounds of the search. -/
theorem searchPasses_mem {s t : Search} (ht : t ∈ searchPasses stabs type s) :
    s.l ≤ t.l ∧ t.l ≤ t.r ∧ t.r ≤ s.r := by
  by_cases hlr : s.l ≤ s.r
  · rw [searchPasses, dif_pos hlr] at ht
    rcases List.mem_cons.mp ht with rfl | ht
    · exact ⟨le_refl _, hlr, le_refl _⟩
    · split at ht
      next s' hs =>
        have hstep := searchStep_ok hlr hs
        have hnarrow := hstep.narrows
        have := searchPasses_mem ht
        omega
      next => cases ht
  · rw [searchPasses_end (by omega)] at ht
    cases ht
termination_by s.measure (HasType stabs type) (valueAt stabs)
decreasing_by exact hstep.measure_lt

theorem Search.measure_le {P : Int → Prop} [DecidablePred P] {v : Int → BitVec 32} (s : Search) :
    s.measure P v ≤ 2 * (s.r - s.l + 1).toNat + 1 := by
  unfold Search.measure
  split <;> omega

variable (stabs type) in
/-- Each pass decreases the measure. -/
theorem length_searchPasses (s : Search) :
    (searchPasses stabs type s).length ≤ s.measure (HasType stabs type) (valueAt stabs) := by
  by_cases hlr : s.l ≤ s.r
  · rw [searchPasses, dif_pos hlr, List.length_cons]
    split
    next s' hs =>
      have hlt := (searchStep_ok hlr hs).measure_lt
      have := length_searchPasses s'
      omega
    next =>
      rw [Search.measure, List.length_nil]
      omega
  · rw [searchPasses_end (by omega)]
    exact Nat.zero_le _
termination_by s.measure (HasType stabs type) (valueAt stabs)
decreasing_by exact hlt

/-- A search reads only entries of its range. -/
theorem stabBinsearchReads_mem {i : Int} (hlr : l₀ ≤ r₀ + 1)
    (hi : i ∈ stabBinsearchReads stabs l₀ r₀ type x) : l₀ ≤ i ∧ i ≤ r₀ := by
  rcases List.mem_append.mp hi with hi | hi
  · obtain ⟨s, hs, hi⟩ := List.mem_flatMap.mp hi
    have hpass := searchPasses_mem hs
    have := stepReads_mem hpass.2.1 hi
    dsimp only [Search.init] at hpass
    omega
  · cases ht : searchLoop stabs type (.init l₀ r₀ x) with
    | error e => simp only [ht] at hi; cases hi
    | ok t =>
        have hshape := (searchLoop_ok ht).shape hlr
        have hleft := hshape.le_regionLeft
        have hhi := hshape.hi
        simp only [ht, finalReads] at hi
        split_ifs at hi
        · have := scanReads_mem hi
          rw [hshape.right] at this
          omega
        · cases hi

/-- **Termination and range of a search.**  Whatever the table holds and in whatever
order, a search of a range of it returns after at most two passes for each entry of
the range and one more, none of which overflows, and it reads only entries of the
range: with the same entries there, any other table gives the same results. -/
theorem stabBinsearch_reads (type : Int) (x : BitVec 32) (h0 : 0 ≤ l₀) (hlr : l₀ ≤ r₀ + 1)
    (hn : r₀ < stabs.length) (hlen : stabs.length < 2 ^ 30) :
    (∃ L R, stabBinsearch stabs l₀ r₀ type x = .ok (L, R)) ∧
      (searchPasses stabs type (.init l₀ r₀ x)).length ≤ 2 * (r₀ - l₀ + 1).toNat + 1 ∧
      (∀ s ∈ searchPasses stabs type (.init l₀ r₀ x), 0 ≤ s.l + s.r ∧ s.l + s.r < 2 ^ 31) ∧
      (∀ i ∈ stabBinsearchReads stabs l₀ r₀ type x, l₀ ≤ i ∧ i ≤ r₀) ∧
      ∀ stabs', (∀ i, l₀ ≤ i → i ≤ r₀ → stabAt stabs' i = stabAt stabs i) →
        stabBinsearch stabs' l₀ r₀ type x = stabBinsearch stabs l₀ r₀ type x := by
  refine ⟨stabBinsearch_total x type h0 hlr hn, ?_, ?_, fun i ↦ stabBinsearchReads_mem hlr, ?_⟩
  · exact (length_searchPasses stabs type _).trans (Search.measure_le _)
  · intro s hs
    have := searchPasses_mem hs
    dsimp only [Search.init] at this
    omega
  · intro stabs' hsame
    refine stabBinsearch_congr ?_
    intro i hi
    obtain ⟨hl, hr⟩ := stabBinsearchReads_mem hlr hi
    exact hsame i hl hr

/-- Functions that are not in order, one of them at the last address. -/
def outOfOrder : List Stab :=
  [⟨0, 0x64, 0, 0⟩, ⟨0, 0x24, 0, 0xffffffff⟩, ⟨0, 0x44, 0, 0⟩, ⟨0, 0x24, 0, 0xf0100000⟩]

theorem outOfOrder_reads :
    (∃ L R, stabBinsearch outOfOrder 0 3 nFun 0xffffffff = .ok (L, R)) ∧
      (searchPasses outOfOrder nFun (.init 0 3 0xffffffff)).length ≤ 9 ∧
      (∀ s ∈ searchPasses outOfOrder nFun (.init 0 3 0xffffffff),
        0 ≤ s.l + s.r ∧ s.l + s.r < 2 ^ 31) ∧
      (∀ i ∈ stabBinsearchReads outOfOrder 0 3 nFun 0xffffffff, 0 ≤ i ∧ i ≤ 3) ∧
      ∀ stabs', (∀ i, 0 ≤ i → i ≤ 3 → stabAt stabs' i = stabAt outOfOrder i) →
        stabBinsearch stabs' 0 3 nFun 0xffffffff = stabBinsearch outOfOrder 0 3 nFun 0xffffffff :=
  stabBinsearch_reads nFun 0xffffffff (by decide) (by decide) (by decide) (by decide)

end JosKernel.Kdebug
