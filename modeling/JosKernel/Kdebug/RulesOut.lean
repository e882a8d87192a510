import JosKernel.Kdebug.Containing

/-!
# Searches that rule out every entry

A search whose bisection only ever meets entries above the address moves its right
bound below all of them.  It does the same when it matches the first entry of the
type at the last address, since the increment then wraps.  `RulesOut` is the two
cases together, as a condition on the table, and `Ends.rulesOut_iff` says that
these are the searches that end with no entry of the type at or before `r`.

When the first of these entries is the very first of the range, the results lie
below the range (`stabBinsearch_below_iff`).
-/

namespace JosKernel.Kdebug

open JosKernel.Interval Relation

section

variable (P : Int → Prop) (v : Int → BitVec 32)

/-- Halving `[l, r]` by comparisons with `x` meets only entries above `x`. -/
inductive AllAbove (x : BitVec 32) : Int → Int → Prop
  | done {l r : Int} (hx : r < l) : AllAbove x l r
  | skip {l r : Int} (hlr : l ≤ r) (hn : NoneIn P l (mid l r))
      (h : AllAbove x (mid l r + 1) r) : AllAbove x l r
  | greater {l r k : Int} (hlr : l ≤ r) (hk : LastIn P l (mid l r) k) (hv : x < v k)
      (h : AllAbove x l (k - 1)) : AllAbove x l r

/-- The bisection meets only entries above the address, or it first matches the
first entry of the type, at the last address, and the address it goes on with, 0,
is below all entries it meets. -/
def RulesOut (x : BitVec 32) (l r : Int) : Prop :=
  AllAbove P v x l r ∨
    x + 1 = 0 ∧ ∃ k r', Meets P v x l r k r' ∧ NoneIn P l (k - 1) ∧ AllAbove P v 0 k r'

end

variable {P : Int → Prop} {v : Int → BitVec 32} {l₀ r₀ : Int} {x : BitVec 32} {s s' t u : Search}

/-- The bounds of the end of a run lie in those of its start. -/
theorem Ends.narrows (h : Ends P v s t) : s.l ≤ t.l ∧ t.r ≤ s.r := by
  refine h.preserves (I := fun s' ↦ s.l ≤ s'.l ∧ s'.r ≤ s.r) ?_ ⟨le_refl _, le_refl _⟩
  intro s₁ s₂ hs hi
  have := hs.narrows
  omega

/-- The bounds end up adjacent if they have not crossed by more. -/
theorem Ends.near (h : Ends P v s t) (hs : s.l ≤ s.r + 1) : t.l = t.r + 1 := by
  have hnear : t.l ≤ t.r + 1 := by
    refine h.preserves (I := fun s' ↦ s'.l ≤ s'.r + 1) ?_ hs
    intro s₁ s₂ hstep _
    have hmid := mid_mem hstep.le
    cases hstep with
    | skip hlr hn => dsimp only; omega
    | less hlr hk hv => dsimp only; omega
    | greater hlr hk hv => have := hk.ge; dsimp only; omega
    | exact hlr hk hv => have := hk.le; dsimp only; omega
  have := h.crossed
  omega

/-- A bisection that meets only entries above the address rules all of them out, and
leaves `regionLeft`. -/
theorem AllAbove.ends {l r : Int} (h : AllAbove P v x l r) :
    ∀ {s : Search}, Ends P v s t → s.l = l → s.r = r → s.addr = x →
      NoneIn P l t.r ∧ t.regionLeft = s.regionLeft := by
  induction h with
  | done hx =>
      rintro s hends rfl rfl rfl
      rcases hends.cases_head with ⟨rfl, -⟩ | ⟨s', hs, -⟩
      · exact ⟨.of_lt hx, rfl⟩
      · have := hs.le
        omega
  | skip hlr hn _ ih =>
      rintro s hends rfl rfl rfl
      have hs : Step P v s _ := .skip hlr hn
      obtain ⟨hno, hleft⟩ := ih (hends.tail hs) rfl rfl rfl
      exact ⟨hn.append hno, hleft⟩
  | greater hlr hk hv _ ih =>
      rintro s hends rfl rfl rfl
      have hs : Step P v s _ := .greater hlr hk hv
      obtain ⟨hno, hleft⟩ := ih (hends.tail hs) rfl rfl rfl
      exact ⟨hno, hleft⟩

/-- A match before the last address keeps an entry of the type within the bounds. -/
theorem MatchesAt.le_r {m : Int} (hm : MatchesAt P v u m) (haddr : u.addr + 1 ≠ 0)
    (hends : Ends P v (u.matched m) t) : m ≤ t.r := by
  have hk : Keeps v m t := hends.preserves (fun _ _ ↦ Step.keeps) (hm.keeps_matched haddr)
  exact hk.r

/-- A search without exact matches that leaves no entry at or before `r` has met
only entries above the address. -/
theorem allAbove_of_plain (hrun : ReflTransGen (Plain P v) s t) (hx : t.r < t.l)
    (hs : s.l ≤ s.r + 1) (hno : NoneIn P s.l t.r) : AllAbove P v s.addr s.l s.r := by
  induction hrun using ReflTransGen.head_induction_on with
  | refl => exact .done hx
  | @head s s' hp hrest ih =>
      obtain ⟨hstep, haddr⟩ := hp
      have hends : Ends P v s' t := ⟨plain_run hrest, hx⟩
      have hmid := mid_mem hstep.le
      cases hstep with
      | skip hlr hn =>
          refine .skip hlr hn (ih (by dsimp only; omega) (hno.mono ?_ (le_refl _)))
          dsimp only
          omega
      | @less k hlr hk hv =>
          -- the entry met is left of the bounds, hence at or before `r` in the end
          have hnarrow := hends.narrows
          have hnear := hends.near (by dsimp only; omega)
          have := hk.le
          exact absurd hk.holds (hno k hk.ge (by dsimp only at hnarrow; omega))
      | @greater k hlr hk hv =>
          have := hk.ge
          exact .greater hlr hk hv (ih (by dsimp only; omega) hno)
      | exact => exact absurd haddr (addr_succ_ne _)

/-- The bisection has met only entries above the address, or matched at the last
address. -/
theorem Ends.allAbove (h : Ends P v s t) (hs : s.l ≤ s.r + 1) (hno : NoneIn P s.l t.r) :
    AllAbove P v s.addr s.l s.r ∨
      s.addr + 1 = 0 ∧ ∃ u m, ReflTransGen (Plain P v) s u ∧ MatchesAt P v u m ∧
        Ends P v (u.matched m) t := by
  rcases h.cut with hall | ⟨u, m, hu, hm, hends⟩
  · exact .inl (allAbove_of_plain hall h.crossed hs hno)
  · have haddr := plain_addr hu
    by_cases hzero : s.addr + 1 = 0
    · exact .inr ⟨hzero, u, m, hu, hm, hends⟩
    · have hle := hm.le_r (haddr ▸ hzero) hends
      exact absurd hm.last.holds (hno m (hm.meets hu).mem.1 hle)

/-- **Searches that rule out every entry of the type.** -/
theorem Ends.rulesOut_iff (h : Ends P v s t) (hs : s.l ≤ s.r + 1) :
    NoneIn P s.l t.r ↔ RulesOut P v s.addr s.l s.r := by
  constructor
  · intro hno
    rcases h.allAbove hs hno with hall | ⟨hzero, u, m, hu, hm, hends⟩
    · exact .inl hall
    · have hmeets := hm.meets hu
      have hnarrow := hends.narrows
      have hnear := h.near hs
      have hl : (u.matched m).l = m := rfl
      have haddr : (u.matched m).addr = 0 := by
        simp only [Search.matched, plain_addr hu, hzero]
      have hno' : NoneIn P (u.matched m).l t.r := hno.mono hmeets.mem.1 (le_refl _)
      refine .inr ⟨hzero, m, u.r, hmeets, hno.mono (le_refl _) (by omega), ?_⟩
      have hmid := mid_mem hm.le
      have hle := hm.last.le
      -- address 0 is not the last one, so nothing is matched from here on
      rcases hends.allAbove (by simp only [Search.matched]; omega) hno' with hall | ⟨hone, -⟩
      · rwa [haddr] at hall
      · rw [haddr] at hone
        exact absurd hone (by decide)
  · rintro (hall | ⟨hzero, k, r', hmeets, hno, hall⟩)
    · exact (hall.ends h rfl rfl rfl).1
    · obtain ⟨u, hu, hm, rfl, hends⟩ := hmeets.cut h rfl rfl rfl
      have haddr : (u.matched k).addr = 0 := by
        simp only [Search.matched, plain_addr hu, hzero]
      exact hno.append (by simpa using (hall.ends hends rfl rfl haddr).1)

/-! ## Results below the range -/

theorem Search.result_below_iff (hshape : Shape P l₀ r₀ t) (hx : t.r < t.l) (hlr : l₀ ≤ r₀) :
    t.result.1 = l₀ - 1 ↔ P l₀ ∧ NoneIn P l₀ t.r := by
  have hl := hshape.l_eq hx
  have hlo := hshape.lo
  have hleft := hshape.le_regionLeft
  constructor
  · intro hres
    have hr : t.r = l₀ - 1 := by
      unfold Search.result at hres
      split_ifs at hres <;> dsimp only at hres <;> omega
    refine ⟨?_, .of_lt (by omega)⟩
    rcases hshape.edge with hr' | hp
    · omega
    · simpa [hr] using hp
  · rintro ⟨hp, hno⟩
    have hr : t.r = l₀ - 1 := by
      by_contra hne
      exact hno l₀ (le_refl _) (by omega) hp
    have hany : t.anyMatches = true := by
      by_contra hany
      have := (hshape.fresh (by simpa using hany)).2.1
      omega
    simp only [Search.result, hany, if_true, hr]
    omega

/-- **Results below the range.**  `stab_binsearch` leaves both results just below
its range exactly when the range starts with an entry of the type and the search
rules out every such entry. -/
theorem stabBinsearch_below_iff {stabs : List Stab} {type L R : Int} (hlr : l₀ ≤ r₀)
    (h : stabBinsearch stabs l₀ r₀ type x = .ok (L, R)) :
    L = l₀ - 1 ↔
      HasType stabs type l₀ ∧ RulesOut (HasType stabs type) (valueAt stabs) x l₀ r₀ := by
  obtain ⟨t, hends, hshape, hres⟩ := stabBinsearch_ok (by omega) h
  rw [show L = t.result.1 by rw [← hres],
    Search.result_below_iff hshape hends.crossed hlr]
  have hiff := hends.rulesOut_iff (by dsimp only [Search.init]; omega)
  simp only [Search.init] at hiff
  rw [hiff]

/-! ## Ranges of one entry -/

/-- A range of one entry is ruled out by an entry above the address, or by one that
matches it at the last address. -/
theorem rulesOut_self {l : Int} (hp : P l) :
    RulesOut P v x l l ↔ x < v l ∨ x + 1 = 0 ∧ v l = x := by
  have hmid : mid l l = l := by
    have := mid_mem (le_refl l)
    omega
  have hlast : LastIn P l (mid l l) l := by rw [hmid]; exact .self (le_refl _) hp
  constructor
  · rintro (hall | ⟨hzero, k, r', hmeets, -, -⟩)
    · left
      cases hall with
      | done hx => omega
      | skip hlr hn h => exact absurd hn hlast.not_noneIn
      | greater hlr hk hv h => rwa [hk.unique hlast] at hv
    · right
      refine ⟨hzero, ?_⟩
      cases hmeets with
      | here hlr hm hv => rwa [hm.unique hlast] at hv
      | skip hlr hn h => exact absurd hn hlast.not_noneIn
      | less hlr hk hv h => have := h.mem; omega
      | greater hlr hk hv h =>
          have := h.mem
          rw [hk.unique hlast] at this
          omega
  · have hdone : ∀ {y}, AllAbove P v y l (l - 1) := .done (by omega)
    rintro (hlt | ⟨hzero, hv⟩)
    · exact .inl (.greater (le_refl _) hlast hlt hdone)
    · refine .inr ⟨hzero, l, l, .here (le_refl _) hlast hv, .of_lt (by omega), ?_⟩
      exact .greater (le_refl _) hlast (by bv_omega) hdone

/-! ## Results just below the first entry -/

/-- No entry is above the last address. -/
theorem AllAbove.noneIn_last {l r : Int} (h : AllAbove P v x l r) (hx : x + 1 = 0) :
    NoneIn P l r := by
  induction h with
  | done hlt => exact .of_lt hlt
  | skip hlr hn _ ih => exact hn.append ih
  | greater hlr hk hv _ ih => bv_omega

/-- A result in the range that is not an entry of the type is the end of the region,
and the next entry is of the type. -/
theorem stabBinsearch_not_hasType {stabs : List Stab} {type L R : Int} (hlr : l₀ ≤ r₀ + 1)
    (h : stabBinsearch stabs l₀ r₀ type x = .ok (L, R)) (hlt : l₀ < L)
    (hno : ¬ HasType stabs type L) : R = L ∧ L < r₀ ∧ HasType stabs type (L + 1) := by
  obtain ⟨t, hends, hshape, hres⟩ := stabBinsearch_ok hlr h
  unfold Search.result at hres
  split_ifs at hres with hany <;> obtain ⟨rfl, rfl⟩ := Prod.mk.inj hres
  · rcases hshape.left with ⟨hl, -⟩ | hhit
    · omega
    · have hr : t.r < t.regionLeft := by
        by_contra hle
        rw [min_eq_left (by omega)] at hno
        exact hno hhit.holds
      have := hhit.hi
      rw [min_eq_right (by omega)]
      rcases hshape.edge with hr' | hp
      · omega
      · exact ⟨rfl, by omega, hp⟩
  · have := (hshape.fresh (by simpa using hany)).1
    omega

section

variable {f : Int} (hlf : l₀ + 1 < f) (hfr : f ≤ r₀) (hno : NoneIn P l₀ (f - 1)) (hf : P f)

include hlf hfr hno hf

/-- A search that has ruled out every entry has moved `r` to just below the first
entry `f` of the type. -/
theorem Shape.r_eq (h : Shape P l₀ r₀ t) (hx : t.r < t.l) (hnone : NoneIn P l₀ t.r) :
    t.r = f - 1 := by
  have hl := h.l_eq hx
  have hlo := h.lo
  have hlt : t.r < f := by
    by_contra hge
    exact hnone f (by omega) (by omega) hf
  rcases h.edge with hr | hp
  · omega
  · by_contra hne
    exact hno (t.r + 1) (by omega) (by omega) hp

/-- The result lies just below `f` when every entry is ruled out and the bound has
passed `regionLeft`. -/
theorem Search.result_before_iff (hshape : Shape P l₀ r₀ t) (hx : t.r < t.l) :
    t.result.1 = f - 1 ↔ NoneIn P l₀ t.r ∧ t.r ≤ t.regionLeft := by
  have hleft := hshape.le_regionLeft
  constructor
  · intro hres
    -- the entry before `f` is not of the type, so the result is the bound
    have hne : t.anyMatches = true → t.regionLeft ≠ f - 1 := by
      intro _ heq
      rcases hshape.left with ⟨hl, -⟩ | hhit
      · omega
      · exact hno t.regionLeft hleft (by omega) hhit.holds
    have hr : t.r = f - 1 ∧ t.r ≤ t.regionLeft := by
      unfold Search.result at hres
      split_ifs at hres with hany
      · have := hne hany
        dsimp only at hres
        omega
      · have := (hshape.fresh (by simpa using hany)).1
        dsimp only at hres
        omega
    exact ⟨hr.1 ▸ hno, hr.2⟩
  · rintro ⟨hnone, hle⟩
    have hr := hshape.r_eq hlf hfr hno hf hx hnone
    have hany : t.anyMatches = true := by
      by_contra hany
      have := (hshape.fresh (by simpa using hany)).2.1
      omega
    simp only [Search.result, hany, if_true]
    omega

/-- A search that has ruled out every entry has recorded one of them exactly when it
has matched the last address. -/
theorem RulesOut.recorded_iff (hout : RulesOut P v x l₀ r₀) (h : Ends P v (.init l₀ r₀ x) t)
    (hr : t.r = f - 1) : t.r ≤ t.regionLeft ↔ x + 1 = 0 := by
  rcases hout with hall | ⟨hzero, k, r', hmeets, -, hall⟩
  · have hleft : t.regionLeft = l₀ := (hall.ends h rfl rfl rfl).2
    constructor
    · intro hle
      omega
    · intro hzero
      exact absurd hf (hall.noneIn_last hzero f (by omega) hfr)
  · obtain ⟨u, hu, hm, rfl, hends⟩ := hmeets.cut h rfl rfl rfl
    have haddr : (u.matched k).addr = 0 := by
      simp only [Search.matched, plain_addr hu, Search.init, hzero]
    have hk : t.regionLeft = k := (hall.ends hends rfl rfl haddr).2
    refine iff_of_true ?_ hzero
    by_contra hlt
    exact hno k hmeets.mem.1 (by omega) hm.last.holds

end

/-- **Results just below the first entry.**  When the first entry `f` of the type
comes after the first two entries of the range, the results lie just below it exactly
when the address is the last one and the search rules out every entry. -/
theorem stabBinsearch_before_iff {stabs : List Stab} {type L R f : Int} (hlf : l₀ + 1 < f)
    (hfr : f ≤ r₀) (hno : NoneIn (HasType stabs type) l₀ (f - 1)) (hf : HasType stabs type f)
    (h : stabBinsearch stabs l₀ r₀ type x = .ok (L, R)) :
    L = f - 1 ↔ x + 1 = 0 ∧ RulesOut (HasType stabs type) (valueAt stabs) x l₀ r₀ := by
  obtain ⟨t, hends, hshape, hres⟩ := stabBinsearch_ok (by omega) h
  have hiff := hends.rulesOut_iff (by dsimp only [Search.init]; omega)
  simp only [Search.init] at hiff
  rw [show L = t.result.1 by rw [← hres],
    Search.result_before_iff hlf hfr hno hf hshape hends.crossed, hiff, and_comm]
  refine and_congr_left ?_
  intro hout
  exact hout.recorded_iff hlf hfr hno hf hends
    (hshape.r_eq hlf hfr hno hf hends.crossed (hiff.mpr hout))

end JosKernel.Kdebug
