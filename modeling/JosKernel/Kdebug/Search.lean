import JosKernel.Kdebug.Stab

/-!
# `stab_binsearch`

The loop of `stab_binsearch` mutates both bounds, both results and the address.
`searchStep` is its body, `Step` says what one pass through it can do, and
`stabBinsearch` is the function.

`Step` is stated for any predicate `P` ("the entry has the type") and any keys
`v` (the entries' `n_value`), so that everything about the order in which the
bounds move is independent of the table.
-/

namespace JosKernel.Kdebug

open JosKernel.Interval

/-- The local variables of `stab_binsearch` and the two results it updates. -/
structure Search where
  /-- Left bound. -/
  l : Int
  /-- Right bound. -/
  r : Int
  /-- The address searched for, which an exact match increments. -/
  addr : BitVec 32
  /-- Whether an entry of the type has been met. -/
  anyMatches : Bool
  /-- `*region_left`. -/
  regionLeft : Int
  /-- `*region_right`. -/
  regionRight : Int
deriving DecidableEq, Repr

/-- `(l + r) / 2`, with C's division. -/
def mid (l r : Int) : Int := (l + r).tdiv 2

theorem mid_mem {l r : Int} (h : l ≤ r) : l ≤ mid l r ∧ mid l r ≤ r := by
  unfold mid
  rw [Int.tdiv_eq_ediv, show Int.sign 2 = 1 from rfl]
  split <;> omega

/-- The body of the search loop. -/
def searchStep (stabs : List Stab) (type : Int) (s : Search) : Except Fault Search := do
  let trueM := mid s.l s.r
  let m ← scanType stabs type s.l trueM
  if m < s.l then
    return { s with l := trueM + 1 }
  let e ← readStab stabs m
  if e.nValue < s.addr then
    return { s with anyMatches := true, regionLeft := m, l := trueM + 1 }
  else if e.nValue > s.addr then
    return { s with anyMatches := true, regionRight := m - 1, r := m - 1 }
  else
    return { s with anyMatches := true, regionLeft := m, l := m, addr := s.addr + 1 }

/-! ## What one pass can do -/

section Step

variable (P : Int → Prop) (v : Int → BitVec 32)

/-- The passes through the loop body: no entry of the type in the left half, or
the last one there lies below, above or at the address. -/
inductive Step : Search → Search → Prop
  | skip {s : Search} (hlr : s.l ≤ s.r) (hn : NoneIn P s.l (mid s.l s.r)) :
      Step s { s with l := mid s.l s.r + 1 }
  | less {s : Search} {m : Int} (hlr : s.l ≤ s.r) (hm : LastIn P s.l (mid s.l s.r) m)
      (hv : v m < s.addr) :
      Step s { s with anyMatches := true, regionLeft := m, l := mid s.l s.r + 1 }
  | greater {s : Search} {m : Int} (hlr : s.l ≤ s.r) (hm : LastIn P s.l (mid s.l s.r) m)
      (hv : s.addr < v m) :
      Step s { s with anyMatches := true, regionRight := m - 1, r := m - 1 }
  | exact {s : Search} {m : Int} (hlr : s.l ≤ s.r) (hm : LastIn P s.l (mid s.l s.r) m)
      (hv : v m = s.addr) :
      Step s { s with anyMatches := true, regionLeft := m, l := m, addr := s.addr + 1 }

end Step

section

variable {P : Int → Prop} {v : Int → BitVec 32} {s s' : Search}

theorem Step.le (h : Step P v s s') : s.l ≤ s.r := by cases h <;> assumption

/-- The bounds only ever narrow. -/
theorem Step.narrows (h : Step P v s s') : s.l ≤ s'.l ∧ s'.r ≤ s.r := by
  have hmid := mid_mem h.le
  cases h with
  | skip hlr hn => dsimp only; omega
  | less hlr hm hv => dsimp only; omega
  | greater hlr hm hv => have := hm.le; dsimp only; omega
  | exact hlr hm hv => have := hm.ge; dsimp only; omega

end

/-- A pass through the body that returns is one of the four kinds. -/
theorem searchStep_ok {stabs : List Stab} {type : Int} {s s' : Search} (hlr : s.l ≤ s.r)
    (h : searchStep stabs type s = .ok s') :
    Step (HasType stabs type) (valueAt stabs) s s' := by
  obtain ⟨m, hm, h⟩ := Result.bind_eq_ok.mp h
  have hmid := mid_mem hlr
  rcases scanType_ok hm with hlast | ⟨hnone, rfl⟩
  · simp only [not_lt.mpr hlast.ge, if_false] at h
    obtain ⟨e, he, h⟩ := Result.bind_eq_ok.mp h
    rw [readStab_eq_ok] at he
    have hv := valueAt_eq he
    split_ifs at h with hlt hgt <;>
      simp only [Result.pure_eq_ok, Except.ok.injEq] at h <;> subst h
    · exact .less hlr hlast (hv ▸ hlt)
    · exact .greater hlr hlast (hv ▸ hgt)
    · refine .exact hlr hlast ?_
      rw [hv]
      exact BitVec.le_antisymm (by simpa using hgt) (by simpa using hlt)
  · simp only [show min (mid s.l s.r) (s.l - 1) < s.l by omega, if_true, Result.pure_eq_ok,
      Except.ok.injEq] at h
    subst h
    exact .skip hlr hnone

/-- Inside the table, a pass through the body returns. -/
theorem searchStep_total {stabs : List Stab} {type : Int} {s : Search} (hlr : s.l ≤ s.r)
    (h0 : 0 ≤ s.l) (hn : s.r < stabs.length) : ∃ s', searchStep stabs type s = .ok s' := by
  have hmid := mid_mem hlr
  obtain ⟨m, hm⟩ : ∃ m, scanType stabs type s.l (mid s.l s.r) = .ok m :=
    scanType_total h0 (by omega)
  by_cases hlt : m < s.l
  · exact ⟨{ s with l := mid s.l s.r + 1 }, by simp [searchStep, hm, hlt]⟩
  · rcases scanType_ok hm with hlast | ⟨-, rfl⟩
    · obtain ⟨e, he, -⟩ := hlast.holds
      simp only [searchStep, hm, Result.ok_bind, hlt, if_false, readStab_of_stabAt he]
      split_ifs <;> exact ⟨_, rfl⟩
    · omega

/-! ## The loop

An exact match may leave both bounds where they are.  The loop ends because the
entry at `l` cannot match the address twice in a row: the measure counts it. -/

/-- What every pass decreases: the size of the range, and whether the entry at
`l` is one of the type that matches the address. -/
def Search.measure (P : Int → Prop) [DecidablePred P] (v : Int → BitVec 32) (s : Search) : Nat :=
  2 * (s.r - s.l + 1).toNat + if P s.l ∧ v s.l = s.addr then 1 else 0

theorem Step.measure_lt {P : Int → Prop} [DecidablePred P] {v : Int → BitVec 32} {s s' : Search}
    (h : Step P v s s') : s'.measure P v < s.measure P v := by
  unfold Search.measure
  cases h with
  | skip hlr hn =>
      have := mid_mem hlr
      dsimp only
      split <;> split <;> omega
  | less hlr hm hv =>
      have := mid_mem hlr
      dsimp only
      split <;> split <;> omega
  | @greater m hlr hm hv =>
      have := mid_mem hlr
      have := hm.ge
      have := hm.le
      dsimp only
      split <;> omega
  | @exact m hlr hm hv =>
      have := mid_mem hlr
      have := hm.ge
      have := hm.le
      -- the matched entry is below the incremented address
      have hne : ¬ (P m ∧ v m = s.addr + 1) := by
        rintro ⟨-, h⟩
        rw [hv] at h
        bv_omega
      dsimp only
      rw [if_neg hne]
      by_cases hml : m = s.l
      · have hyes : P s.l ∧ v s.l = s.addr := by rw [← hml]; exact ⟨hm.holds, hv⟩
        rw [if_pos hyes]
        omega
      · split <;> omega

/-- The search loop. -/
def searchLoop (stabs : List Stab) (type : Int) (s : Search) : Except Fault Search :=
  if _hlr : s.l ≤ s.r then
    match _hs : searchStep stabs type s with
    | .error e => .error e
    | .ok s' => searchLoop stabs type s'
  else .ok s
termination_by s.measure (HasType stabs type) (valueAt stabs)
decreasing_by exact (searchStep_ok _hlr _hs).measure_lt

theorem searchLoop_step {stabs : List Stab} {type : Int} {s s' : Search} (hlr : s.l ≤ s.r)
    (hs : searchStep stabs type s = .ok s') :
    searchLoop stabs type s = searchLoop stabs type s' := by
  rw [searchLoop, dif_pos hlr]
  split <;> simp_all

theorem searchLoop_end {stabs : List Stab} {type : Int} {s : Search} (hlr : s.r < s.l) :
    searchLoop stabs type s = .ok s := by
  rw [searchLoop, dif_neg (by omega)]

/-- The state the search starts from. -/
def Search.init (l r : Int) (addr : BitVec 32) : Search :=
  { l, r, addr, anyMatches := false, regionLeft := l, regionRight := r }

/-- `stab_binsearch`: from the range `[*region_left, *region_right]` to the
results it leaves there. -/
def stabBinsearch (stabs : List Stab) (regionLeft regionRight type : Int) (addr : BitVec 32) :
    Except Fault (Int × Int) := do
  let s ← searchLoop stabs type (.init regionLeft regionRight addr)
  if s.anyMatches then
    -- find rightmost region containing 'addr'
    let l ← scanType stabs type (s.regionLeft + 1) s.regionRight
    return (l, s.regionRight)
  else
    return (s.regionLeft, s.regionLeft - 1)

example : stabBinsearch [⟨1, 0x64, 0, 0xf0100000⟩, ⟨0, 0x24, 0, 0⟩, ⟨2, 0x64, 0, 0xf0100040⟩]
    0 2 nSo 0xf0100010 = .ok (0, 1) := by decide +kernel

end JosKernel.Kdebug
