import JosKernel.Kdebug.Search
import Mathlib.Logic.Relation

/-!
# Runs of the search

A search is a run of `Step` from `Search.init` to a state whose bounds have
crossed.  `Shape` is what every such run keeps, whatever the table holds and in
whatever order; with it, the result of `stabBinsearch` is a function of the last
state of the run (`stabBinsearch_ok`).
-/

namespace JosKernel.Kdebug

open JosKernel.Interval Relation

variable {P : Int → Prop} {v : Int → BitVec 32} {l₀ r₀ : Int} {x : BitVec 32} {s s' t : Search}

/-- The search has run from `s` to the end of its loop at `t`. -/
structure Ends (P : Int → Prop) (v : Int → BitVec 32) (s t : Search) : Prop where
  run : ReflTransGen (Step P v) s t
  crossed : t.r < t.l

/-- A run either has ended or makes a pass. -/
theorem Ends.cases_head (h : Ends P v s t) :
    s = t ∧ s.r < s.l ∨ ∃ s', Step P v s s' ∧ Ends P v s' t := by
  obtain ⟨hrun, hx⟩ := h
  rcases hrun.cases_head with rfl | ⟨s', hs, hrest⟩
  · exact .inl ⟨rfl, hx⟩
  · exact .inr ⟨s', hs, hrest, hx⟩

theorem Ends.head (hs : Step P v s s') (h : Ends P v s' t) : Ends P v s t :=
  ⟨.head hs h.run, h.crossed⟩

/-- What the passes preserve, they preserve to the end. -/
theorem Ends.preserves {I : Search → Prop} (hstep : ∀ s s', Step P v s s' → I s → I s')
    (h : Ends P v s t) (hs : I s) : I t := by
  obtain ⟨hrun, -⟩ := h
  induction hrun with
  | refl => exact hs
  | tail _ hlast ih => exact hstep _ _ hlast ih

/-! ## What every run keeps -/

/-- `regionLeft` is the last entry of the type left of `l`, or is `l` itself just
after an exact match. -/
structure Hit (P : Int → Prop) (l₀ r₀ : Int) (s : Search) : Prop where
  lo : l₀ ≤ s.regionLeft
  hi : s.regionLeft ≤ r₀
  near : s.regionLeft ≤ s.l
  holds : P s.regionLeft
  after : NoneIn P (s.regionLeft + 1) (s.l - 1)

/-- The search has narrowed `[l₀, r₀]` down to `[l, r]`: `regionLeft` is untouched
and there is nothing of the type left of `l`, or it is a hit.  The entry right of
`r` is of the type unless `r` has not moved. -/
structure Shape (P : Int → Prop) (l₀ r₀ : Int) (s : Search) : Prop where
  lo : l₀ ≤ s.l
  hi : s.r ≤ r₀
  near : s.l ≤ s.r + 1
  right : s.regionRight = s.r
  edge : s.r = r₀ ∨ P (s.r + 1)
  left : s.regionLeft = l₀ ∧ NoneIn P l₀ (s.l - 1) ∨ Hit P l₀ r₀ s
  fresh : s.anyMatches = false → s.regionLeft = l₀ ∧ s.r = r₀ ∧ NoneIn P l₀ (s.l - 1)

theorem Shape.init (h : l₀ ≤ r₀ + 1) : Shape P l₀ r₀ (.init l₀ r₀ x) where
  lo := le_refl _
  hi := le_refl _
  near := h
  right := rfl
  edge := .inl rfl
  left := .inl ⟨rfl, .of_lt (by dsimp only [Search.init]; omega)⟩
  fresh _ := ⟨rfl, rfl, .of_lt (by dsimp only [Search.init]; omega)⟩

theorem Step.shape (hs : Step P v s s') (h : Shape P l₀ r₀ s) : Shape P l₀ r₀ s' := by
  have hmid := mid_mem hs.le
  have hlo := h.lo
  have hhi := h.hi
  have hnarrow := hs.narrows
  cases hs with
  | skip hlr hn =>
      refine ⟨by omega, hhi, by dsimp only; omega, h.right, h.edge, ?_, fun hany ↦ ?_⟩
      · rcases h.left with ⟨hl, hno⟩ | hhit
        · exact .inl ⟨hl, hno.join hn⟩
        · have := hhit.near
          exact .inr ⟨hhit.lo, hhit.hi, by dsimp only; omega, hhit.holds, hhit.after.join hn⟩
      · obtain ⟨hl, hr, hno⟩ := h.fresh hany
        exact ⟨hl, hr, hno.join hn⟩
  | @less m hlr hm hv =>
      have := hm.ge
      have := hm.le
      refine ⟨by omega, hhi, by dsimp only; omega, h.right, h.edge, .inr ?_, nofun⟩
      exact ⟨by dsimp only; omega, by dsimp only; omega, by dsimp only; omega, hm.holds,
        by simpa using hm.after⟩
  | @greater m hlr hm hv =>
      have := hm.ge
      refine ⟨hlo, by omega, by dsimp only; omega, rfl, .inr (by simpa using hm.holds), ?_, nofun⟩
      rcases h.left with hnone | hhit
      · exact .inl hnone
      · exact .inr ⟨hhit.lo, hhit.hi, hhit.near, hhit.holds, hhit.after⟩
  | @exact m hlr hm hv =>
      have := hm.ge
      have := hm.le
      refine ⟨by omega, hhi, by dsimp only; omega, h.right, h.edge, .inr ?_, nofun⟩
      exact ⟨by dsimp only; omega, by dsimp only; omega, le_refl _, hm.holds,
        .of_lt (by dsimp only; omega)⟩

theorem Ends.shape (h : Ends P v (.init l₀ r₀ x) t) (hlr : l₀ ≤ r₀ + 1) : Shape P l₀ r₀ t :=
  h.preserves (fun _ _ ↦ Step.shape) (.init hlr)

/-- At the end the bounds are adjacent. -/
theorem Shape.l_eq (h : Shape P l₀ r₀ t) (hx : t.r < t.l) : t.l = t.r + 1 := by
  have := h.near
  omega

theorem Shape.le_regionLeft (h : Shape P l₀ r₀ s) : l₀ ≤ s.regionLeft := by
  rcases h.left with ⟨hl, -⟩ | hhit
  · omega
  · exact hhit.lo

/-- At the end there is no entry of the type after `regionLeft` up to `r`. -/
theorem Shape.noneIn (h : Shape P l₀ r₀ t) (hx : t.r < t.l) :
    NoneIn P (t.regionLeft + 1) t.r := by
  have hl := h.l_eq hx
  rcases h.left with ⟨hl', hno⟩ | hhit
  · exact hno.mono (by omega) (by omega)
  · exact hhit.after.mono (le_refl _) (by omega)

/-! ## The result of the search -/

/-- The results that `stab_binsearch` leaves when its loop has ended at `t`: the
final scan only moves `regionLeft` when the right bound has passed it. -/
def Search.result (t : Search) : Int × Int :=
  if t.anyMatches then (min t.regionLeft t.r, t.r) else (t.regionLeft, t.regionLeft - 1)

section

variable {stabs : List Stab} {type : Int}

/-- A loop that returns has run to its end. -/
theorem searchLoop_ok {s t : Search} (h : searchLoop stabs type s = .ok t) :
    Ends (HasType stabs type) (valueAt stabs) s t := by
  by_cases hlr : s.l ≤ s.r
  · cases hs : searchStep stabs type s with
    | error e =>
        rw [searchLoop, dif_pos hlr] at h
        split at h <;> simp_all
    | ok s' =>
        have hstep := searchStep_ok hlr hs
        rw [searchLoop_step hlr hs] at h
        exact (searchLoop_ok h).head hstep
  · rw [searchLoop_end (by omega), Except.ok.injEq] at h
    subst h
    exact ⟨.refl, by omega⟩
termination_by s.measure (HasType stabs type) (valueAt stabs)
decreasing_by exact hstep.measure_lt

variable (type) in
/-- Inside the table the loop returns. -/
theorem searchLoop_total {s : Search} (h0 : 0 ≤ s.l) (hn : s.r < stabs.length) :
    ∃ t, searchLoop stabs type s = .ok t := by
  by_cases hlr : s.l ≤ s.r
  · obtain ⟨s', hs⟩ : ∃ s', searchStep stabs type s = .ok s' := searchStep_total hlr h0 hn
    have hstep := searchStep_ok hlr hs
    have hnarrow := hstep.narrows
    obtain ⟨t, ht⟩ := searchLoop_total (s := s') (by omega) (by omega)
    exact ⟨t, by rw [searchLoop_step hlr hs, ht]⟩
  · exact ⟨s, searchLoop_end (by omega)⟩
termination_by s.measure (HasType stabs type) (valueAt stabs)
decreasing_by exact hstep.measure_lt

/-- **The search is its run.**  What `stab_binsearch` returns is the result of the
last state of a run. -/
theorem stabBinsearch_ok (hlr : l₀ ≤ r₀ + 1) {L R : Int}
    (h : stabBinsearch stabs l₀ r₀ type x = .ok (L, R)) :
    ∃ t, Ends (HasType stabs type) (valueAt stabs) (.init l₀ r₀ x) t ∧
      Shape (HasType stabs type) l₀ r₀ t ∧ (L, R) = t.result := by
  obtain ⟨t, ht, h⟩ := Result.bind_eq_ok.mp h
  have hends := searchLoop_ok ht
  have hshape := hends.shape hlr
  refine ⟨t, hends, hshape, ?_⟩
  unfold Search.result
  split_ifs at h ⊢ with hany
  · obtain ⟨m, hm, h⟩ := Result.bind_eq_ok.mp h
    rw [Result.pure_eq_ok, Except.ok.injEq] at h
    rw [← h, hshape.right]
    rcases scanType_ok hm with hlast | ⟨-, rfl⟩
    · rw [hshape.right] at hlast
      exact absurd (hshape.noneIn hends.crossed) hlast.not_noneIn
    · rw [hshape.right, Prod.mk.injEq]
      omega
  · exact (Except.ok.inj h).symm

variable (type x) in
/-- Inside the table, `stab_binsearch` returns. -/
theorem stabBinsearch_total (h0 : 0 ≤ l₀) (hlr : l₀ ≤ r₀ + 1) (hn : r₀ < stabs.length) :
    ∃ L R, stabBinsearch stabs l₀ r₀ type x = .ok (L, R) := by
  obtain ⟨t, ht⟩ := searchLoop_total type (s := .init l₀ r₀ x) h0 hn
  have hshape := (searchLoop_ok ht).shape hlr
  simp only [stabBinsearch, ht, Result.ok_bind]
  split_ifs
  · have hleft := hshape.le_regionLeft
    have hhi := hshape.hi
    obtain ⟨m, hm⟩ : ∃ m, scanType stabs type (t.regionLeft + 1) t.regionRight = .ok m :=
      scanType_total (by omega) (by rw [hshape.right]; omega)
    exact ⟨m, t.regionRight, by simp [hm]⟩
  · exact ⟨_, _, rfl⟩

/-! ## What a search can return -/

/-- `j` ends the block of the entry at `L`: up to `r`, the entries of other types
that follow it. -/
structure BlockEnd (P : Int → Prop) (L r j : Int) : Prop where
  ge : L ≤ j
  le : j ≤ r
  none : NoneIn P (L + 1) j
  edge : j = r ∨ P (j + 1)

theorem BlockEnd.unique {L r j j' : Int} (h : BlockEnd P L r j) (h' : BlockEnd P L r j') :
    j = j' := by
  have hle := h.le
  have hle' := h'.le
  have hge := h.ge
  have hge' := h'.ge
  rcases lt_trichotomy j j' with hlt | heq | hlt
  · rcases h.edge with hj | hp
    · omega
    · exact absurd hp (h'.none _ (by omega) (by omega))
  · exact heq
  · rcases h'.edge with hj | hp
    · omega
    · exact absurd hp (h.none _ (by omega) (by omega))

/-- The results, whatever the table holds: nothing found, everything ruled out
below the range, or a region in the range. -/
theorem stabBinsearch_cases (hlr : l₀ ≤ r₀ + 1) {L R : Int}
    (h : stabBinsearch stabs l₀ r₀ type x = .ok (L, R)) :
    L = l₀ ∧ R = l₀ - 1 ∨ L = l₀ - 1 ∧ R = l₀ - 1 ∨ l₀ ≤ L ∧ L ≤ R ∧ R ≤ r₀ := by
  obtain ⟨t, hends, hshape, hres⟩ := stabBinsearch_ok hlr h
  have hl := hshape.l_eq hends.crossed
  have hlo := hshape.lo
  have hhi := hshape.hi
  have hleft := hshape.le_regionLeft
  unfold Search.result at hres
  split_ifs at hres with hany <;> obtain ⟨rfl, rfl⟩ := Prod.mk.inj hres
  · omega
  · have := (hshape.fresh (by simpa using hany)).1
    omega

/-- The bounds on the results. -/
theorem stabBinsearch_bounds (hlr : l₀ ≤ r₀ + 1) {L R : Int}
    (h : stabBinsearch stabs l₀ r₀ type x = .ok (L, R)) :
    l₀ - 1 ≤ L ∧ l₀ - 1 ≤ R ∧ R ≤ r₀ ∧ L ≤ R + 1 := by
  rcases stabBinsearch_cases hlr h with hnone | hbelow | hin <;> omega

/-- Results that have not crossed are the entry found and the end of its block. -/
theorem Search.result_block (hshape : Shape P l₀ r₀ t) (hx : t.r < t.l)
    (hLR : t.result.1 ≤ t.result.2) : BlockEnd P t.result.1 r₀ t.result.2 := by
  have hno := hshape.noneIn hx
  have hhi := hshape.hi
  unfold Search.result at hLR ⊢
  split_ifs at hLR ⊢
  · exact ⟨hLR, hhi, fun i hi hi' ↦ hno i (by dsimp only at hi hi'; omega) hi', hshape.edge⟩
  · dsimp only at hLR
    omega

end

end JosKernel.Kdebug
