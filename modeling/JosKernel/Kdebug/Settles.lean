import JosKernel.Kdebug.NotContained

/-!
# Where a search settles

`stabBinsearch_brackets_iff` and `stabBinsearch_crosses_iff` say when a search keeps the
promise of its header comment.  `Settles` says what it returns in all other cases too, by
the entries of the type in the range, their keys and the address:

* the last entry at or below the address, if no entry is at the address itself;
* from an entry at the address, the search goes on for the next address in what the
  bisection has left of the range, and at the last address it falls back by one;
* if all entries are above the address, the start of the range.

The results are then this entry and the end of its block (`stabBinsearch_settles`).
-/

namespace JosKernel.Kdebug

open JosKernel.Interval Relation

section

variable (P : Int → Prop) (v : Int → BitVec 32)

/-- In `[l, r]`, a search for `x` settles on `k`. -/
inductive Settles : BitVec 32 → Int → Int → Int → Prop
  | last {x : BitVec 32} {l r k : Int} (hne : ∀ i, l ≤ i → i ≤ r → P i → v i ≠ x)
      (hk : LastIn (fun i ↦ P i ∧ v i ≤ x) l r k) : Settles x l r k
  | next {x : BitVec 32} {l r m r' k : Int} (hm : Meets P v x l r m r') (hx : x + 1 ≠ 0)
      (h : Settles (x + 1) m r' k) : Settles x l r k
  | wraps {x : BitVec 32} {l r m r' : Int} (hm : Meets P v x l r m r') (hx : x + 1 = 0) :
      Settles x l r (m - 1)
  | above {x : BitVec 32} {l r f : Int} (hlf : l ≤ f) (hfr : f ≤ r) (hf : P f)
      (hn : NoneIn P l (f - 1)) (hno : NotContained P v l r x) : Settles x l r (min l (f - 1))

end

variable {P : Int → Prop} {v : Int → BitVec 32} {l r l₀ r₀ k k' : Int} {x : BitVec 32}
  {s t : Search}

/-! ## The entry is determined -/

/-- The bisection is deterministic. -/
theorem Meets.unique {m m' r₁ r₂ : Int} (h : Meets P v x l r m r₁) (h' : Meets P v x l r m' r₂) :
    m' = m ∧ r₂ = r₁ := by
  induction h with
  | here hlr hm hv =>
      cases h' with
      | here _ hm' => exact ⟨hm'.unique hm, rfl⟩
      | skip _ hn => exact absurd hn hm.not_noneIn
      | less _ hk hlt => rw [hk.unique hm, hv] at hlt; exact absurd hlt (BitVec.lt_irrefl _)
      | greater _ hk hgt => rw [hk.unique hm, hv] at hgt; exact absurd hgt (BitVec.lt_irrefl _)
  | skip hlr hn _ ih =>
      cases h' with
      | here _ hm' => exact absurd hn hm'.not_noneIn
      | skip _ _ h' => exact ih h'
      | less _ hk => exact absurd hn hk.not_noneIn
      | greater _ hk => exact absurd hn hk.not_noneIn
  | less hlr hk hlt _ ih =>
      cases h' with
      | here _ hm' hv => rw [hk.unique hm', hv] at hlt; exact absurd hlt (BitVec.lt_irrefl _)
      | skip _ hn => exact absurd hn hk.not_noneIn
      | less _ _ _ h' => exact ih h'
      | greater _ hk' hgt => rw [hk'.unique hk] at hgt; bv_omega
  | greater hlr hk hgt _ ih =>
      cases h' with
      | here _ hm' hv => rw [hk.unique hm', hv] at hgt; exact absurd hgt (BitVec.lt_irrefl _)
      | skip _ hn => exact absurd hn hk.not_noneIn
      | less _ hk' hlt => rw [hk'.unique hk] at hlt; bv_omega
      | greater _ hk' _ h' => rw [hk'.unique hk] at h'; exact ih h'

/-- Where all entries are above the address, the bisection meets none. -/
theorem NotContained.not_meets {m r' : Int} (hno : NotContained P v l r x) :
    ¬ Meets P v x l r m r' := by
  refine Kdebug.not_meets ?_
  intro i hi hi' hp hv
  exact BitVec.ne_of_lt (hno i hi hi' hp) hv.symm

/-- Where all entries are above the address, none is the last at or below it. -/
theorem NotContained.not_lastIn (hno : NotContained P v l r x) :
    ¬ LastIn (fun i ↦ P i ∧ v i ≤ x) l r k := by
  intro hk
  exact BitVec.not_le.mpr (hno k hk.ge hk.le hk.holds.1) hk.holds.2

theorem Settles.unique (h : Settles P v x l r k) (h' : Settles P v x l r k') : k' = k := by
  induction h with
  | last hne hk =>
      cases h' with
      | last _ hk' => exact hk'.unique hk
      | next hm | wraps hm => exact absurd hm (not_meets hne)
      | above _ _ _ _ hno => exact absurd hk hno.not_lastIn
  | next hm hx _ ih =>
      cases h' with
      | last hne => exact absurd hm (not_meets hne)
      | next hm' _ h' =>
          obtain ⟨rfl, rfl⟩ := hm.unique hm'
          exact ih h'
      | wraps _ hx' => exact absurd hx' hx
      | above _ _ _ _ hno => exact absurd hm hno.not_meets
  | wraps hm hx =>
      cases h' with
      | last hne => exact absurd hm (not_meets hne)
      | next _ hx' => exact absurd hx hx'
      | wraps hm' => rw [(hm.unique hm').1]
      | above _ _ _ _ hno => exact absurd hm hno.not_meets
  | @above x l r f hlf hfr hf hn hno =>
      cases h' with
      | last _ hk' => exact absurd hk' hno.not_lastIn
      | next hm | wraps hm => exact absurd hm hno.not_meets
      | @above _ _ _ f' hlf' _ hf' hn' =>
          have hle : f ≤ f' := by
            by_contra hlt
            exact hn f' hlf' (by omega) hf'
          have hge : f' ≤ f := by
            by_contra hlt
            exact hn' f hlf (by omega) hf
          rw [show f' = f by omega]

/-- A search settles only where there are entries of the type. -/
theorem Settles.not_noneIn (h : Settles P v x l r k) : ¬ NoneIn P l r := by
  intro hno
  cases h with
  | last _ hk => exact hno _ hk.ge hk.le hk.holds.1
  | next hm | wraps hm => exact hno _ hm.mem.1 hm.mem.2.1 hm.mem.2.2.1
  | above hlf hfr hf => exact hno _ hlf hfr hf

/-! ## The search ends there -/

theorem Sorted.mono (h : Sorted P v l₀ r₀) (hl : l₀ ≤ l) (hr : r ≤ r₀) : Sorted P v l r :=
  fun i j hi hij hj ↦ h i j (by omega) hij (by omega)

/-- Among entries in order the bisection meets the address if one of them is at it. -/
theorem Sorted.exists_meets {l r i : Int} (hsort : Sorted P v l r) (hi : l ≤ i) (hi' : i ≤ r)
    (hp : P i) (hv : v i = x) : ∃ m r', Meets P v x l r m r' := by
  have hlr : l ≤ r := by omega
  have hmid := mid_mem hlr
  rcases NoneIn.or_lastIn P l (mid l r) with hn | ⟨k, hk⟩
  · have hlt : mid l r < i := by
      by_contra hge
      exact hn i hi (by omega) hp
    have hright : Sorted P v (mid l r + 1) r := hsort.mono (by omega) (le_refl r)
    obtain ⟨m, r', h⟩ := hright.exists_meets hlt hi' hp hv
    exact ⟨m, r', .skip hlr hn h⟩
  · have := hk.ge
    have := hk.le
    by_cases hlt : v k < x
    · have hgt : mid l r < i := by
        by_contra hge
        have := hsort i k hi (hk.le_of_holds (by omega) hp) (by omega) hp hk.holds
        bv_omega
      have hright : Sorted P v (mid l r + 1) r := hsort.mono (by omega) (le_refl r)
      obtain ⟨m, r', h⟩ := hright.exists_meets hgt hi' hp hv
      exact ⟨m, r', .less hlr hk hlt h⟩
    by_cases hgt : x < v k
    · have hik : i ≤ k - 1 := by
        by_contra hge
        have := hsort k i (by omega) (by omega) hi' hk.holds hp
        bv_omega
      have hleft : Sorted P v l (k - 1) := hsort.mono (le_refl l) (by omega)
      obtain ⟨m, r', h⟩ := hleft.exists_meets hi hik hp hv
      exact ⟨m, r', .greater hlr hk hgt h⟩
    · exact ⟨k, r, .here hlr hk (BitVec.le_antisymm (BitVec.not_lt.mp hgt) (BitVec.not_lt.mp hlt))⟩
termination_by (r - l + 1).toNat

/-- A search of `[l, r]` for `x` starts or goes on at `s`. -/
structure Starts (l r : Int) (x : BitVec 32) (s : Search) : Prop where
  left : s.l = l
  right : s.r = r
  addr : s.addr = x
  regionLeft : s.regionLeft = l
  regionRight : s.regionRight = r

theorem Starts.shape (h : Starts l r x s) (hlr : l ≤ r + 1) : Shape P l r s where
  lo := h.left.ge
  hi := h.right.le
  near := by rw [h.left, h.right]; exact hlr
  right := by rw [h.regionRight, h.right]
  edge := .inl h.right
  left := .inl ⟨h.regionLeft, .of_lt (by rw [h.left]; omega)⟩
  fresh _ := ⟨h.regionLeft, h.right, .of_lt (by rw [h.left]; omega)⟩

theorem Starts.splits (h : Starts l r x s) : Splits P v l r x s where
  left i hi hi' := by rw [h.left] at hi'; omega
  right i hi hi' := by rw [h.right] at hi; omega
  hit := .inl ⟨h.regionLeft, .of_lt (by rw [h.left]; omega)⟩
  addr := .inl h.addr

/-- After a match the search goes on for the next address from the matched entry. -/
theorem Shape.starts (h : Shape P l r s) (m : Int) :
    Starts m s.r (s.addr + 1) (s.matched m) :=
  ⟨rfl, rfl, rfl, rfl, h.right⟩

/-- A search with an entry at or below the address ends where it settles. -/
theorem Ends.settles {l r : Int} {x : BitVec 32} {s : Search} (h : Ends P v s t)
    (hs : Starts l r x s) (hlr : l ≤ r + 1) (hsort : Sorted P v l r)
    (hex : ∃ i, l ≤ i ∧ i ≤ r ∧ P i ∧ v i ≤ x) : Settles P v x l r t.result.1 := by
  by_cases hmeets : ∃ m r', Meets P v x l r m r'
  · obtain ⟨m, r', hm⟩ := hmeets
    obtain ⟨u, hu, hat, rfl, hends⟩ := hm.cut h hs.left hs.right hs.addr
    obtain ⟨hshape, -⟩ := Plain.splits_run hsort hu (hs.shape hlr) hs.splits
    have haddr : u.addr = x := (plain_addr hu).trans hs.addr
    by_cases hx : x + 1 = 0
    · rw [hat.wraps hsort hshape (haddr.symm ▸ hx) hends]
      exact .wraps hm hx
    · have hmid := mid_mem hat.le
      have hle := hat.last.le
      obtain ⟨hl, -, hp, hv⟩ := hm.mem
      have hstarts : Starts m u.r (x + 1) (u.matched m) := haddr ▸ hshape.starts m
      have hlt : v m ≤ x + 1 := by bv_omega
      exact .next hm hx (hends.settles hstarts (by omega) (hsort.mono hl hm.right_le)
        ⟨m, le_refl m, by omega, hp, hlt⟩)
  · have hne : ∀ i, l ≤ i → i ≤ r → P i → v i ≠ x :=
      fun i hi hi' hp hv ↦ hmeets (hsort.exists_meets hi hi' hp hv)
    rcases h.cut with hall | ⟨u, m, hu, hat, -⟩
    · obtain ⟨hshape, hsplits⟩ := Plain.splits_run hsort hall (hs.shape hlr) hs.splits
      exact .last hne (hsplits.brackets hshape h.crossed hex).last
    · have hm := hat.meets hu
      rw [hs.addr, hs.left, hs.right] at hm
      exact absurd ⟨m, u.r, hm⟩ hmeets
termination_by 2 ^ 32 - x.toNat
decreasing_by bv_omega

/-- The results of a search do not cross when there are entries of the type. -/
theorem Search.result_le (hshape : Shape P l r t) (hx : t.r < t.l) (hsome : ¬ NoneIn P l r) :
    t.result.1 ≤ t.result.2 := by
  unfold Search.result
  split_ifs with hany
  · exact min_le_right _ _
  · obtain ⟨-, hr, hno⟩ := hshape.fresh (by simpa using hany)
    rw [hshape.l_eq hx, Int.add_sub_cancel, hr] at hno
    exact absurd hno hsome

/-- **What a search returns.**  In a range in which the entries of the type are in order,
a search returns the entry that it settles on and the end of its block, or crossed results
if there are no entries of the type. -/
theorem stabBinsearch_settles {stabs : List Stab} {type L R : Int} (hlr : l ≤ r + 1)
    (hsort : Sorted (HasType stabs type) (valueAt stabs) l r)
    (h : stabBinsearch stabs l r type x = .ok (L, R)) :
    NoneIn (HasType stabs type) l r ∧ L = l ∧ R = l - 1 ∨
      Settles (HasType stabs type) (valueAt stabs) x l r L ∧
        BlockEnd (HasType stabs type) L r R := by
  by_cases hex : ∃ i, l ≤ i ∧ i ≤ r ∧ HasType stabs type i ∧ valueAt stabs i ≤ x
  · obtain ⟨t, hends, hshape, hres⟩ := stabBinsearch_ok hlr h
    have hsettles := hends.settles ⟨rfl, rfl, rfl, rfl, rfl⟩ hlr hsort hex
    obtain ⟨i, hi, hi', hp, -⟩ := hex
    have hle := Search.result_le hshape hends.crossed fun hno ↦ hno i hi hi' hp
    have hblock := Search.result_block hshape hends.crossed hle
    rw [← hres] at hsettles hblock
    exact .inr ⟨hsettles, hblock⟩
  · have hno : NotContained (HasType stabs type) (valueAt stabs) l r x := by
      intro i hi hi' hp
      by_contra hlt
      exact hex ⟨i, hi, hi', hp, BitVec.not_lt.mp hlt⟩
    rcases stabBinsearch_notContained hlr hno h with hnone | ⟨f, hlf, hfr, hf, hn, rfl, rfl⟩
    · exact .inl hnone
    · refine .inr ⟨.above hlf hfr hf hn hno, ?_⟩
      refine ⟨by omega, by omega, hn.mono (by omega) (le_refl _), .inr ?_⟩
      rwa [Int.sub_add_cancel]

end JosKernel.Kdebug
