import JosKernel.Kdebug.Line

/-!
# Addresses that no entry contains

The header comment of `stab_binsearch` says that the results cross when no entry of
the type contains the address.  They do so only if the range has no entry of the type
at all: if it has, and the first of them is at `f`, then the search ends with
`*region_right` at `f - 1` and with `*region_left` where it was
(`stabBinsearch_notContained`).  `debuginfo_eip` takes this for an entry found.
-/

namespace JosKernel.Kdebug

open JosKernel.Interval

variable {P : Int → Prop} {v : Int → BitVec 32} {l₀ r₀ : Int} {x : BitVec 32} {s s' t : Search}

/-- No entry of the type in `[l₀, r₀]` is at or below the address. -/
def NotContained (P : Int → Prop) (v : Int → BitVec 32) (l₀ r₀ : Int) (x : BitVec 32) : Prop :=
  ∀ i, l₀ ≤ i → i ≤ r₀ → P i → x < v i

instance [DecidablePred P] : Decidable (NotContained P v l₀ r₀ x) :=
  inferInstanceAs (Decidable (∀ i, l₀ ≤ i → i ≤ r₀ → P i → x < v i))

/-- What the passes keep when all entries are above the address: only the right bound
ever meets one. -/
structure Unmatched (P : Int → Prop) (l₀ r₀ : Int) (x : BitVec 32) (s : Search) : Prop where
  addr : s.addr = x
  left : s.regionLeft = l₀
  none : NoneIn P l₀ (s.l - 1)
  moved : s.anyMatches = true → s.r < r₀

theorem Unmatched.init : Unmatched P l₀ r₀ x (.init l₀ r₀ x) where
  addr := rfl
  left := rfl
  none := .of_lt (by dsimp only [Search.init]; omega)
  moved := nofun

theorem Step.unmatched (hno : NotContained P v l₀ r₀ x) (hs : Step P v s s')
    (hshape : Shape P l₀ r₀ s) (h : Unmatched P l₀ r₀ x s) : Unmatched P l₀ r₀ x s' := by
  have hmid := mid_mem hs.le
  have hlo := hshape.lo
  have hhi := hshape.hi
  have hx := h.addr
  cases hs with
  | skip hlr hn => exact ⟨h.addr, h.left, h.none.join hn, h.moved⟩
  | @less m hlr hm hv =>
      have := hm.ge
      have := hm.le
      have := hno m (by omega) (by omega) hm.holds
      bv_omega
  | @greater m hlr hm hv =>
      have := hm.le
      refine ⟨h.addr, h.left, h.none, ?_⟩
      intro _
      dsimp only
      omega
  | @exact m hlr hm hv =>
      have := hm.ge
      have := hm.le
      have := hno m (by omega) (by omega) hm.holds
      bv_omega

theorem Ends.unmatched (hno : NotContained P v l₀ r₀ x) (hlr : l₀ ≤ r₀ + 1)
    (h : Ends P v (.init l₀ r₀ x) t) : Shape P l₀ r₀ t ∧ Unmatched P l₀ r₀ x t := by
  refine h.preserves (I := fun s ↦ Shape P l₀ r₀ s ∧ Unmatched P l₀ r₀ x s) ?_
    ⟨.init hlr, .init⟩
  intro s s' hs hi
  exact ⟨hs.shape hi.1, hs.unmatched hno hi.1 hi.2⟩

section

variable {stabs : List Stab} {type L R : Int}

/-- The results when no entry of the type contains the address. -/
theorem stabBinsearch_notContained (hlr : l₀ ≤ r₀ + 1)
    (hno : NotContained (HasType stabs type) (valueAt stabs) l₀ r₀ x)
    (h : stabBinsearch stabs l₀ r₀ type x = .ok (L, R)) :
    NoneIn (HasType stabs type) l₀ r₀ ∧ L = l₀ ∧ R = l₀ - 1 ∨
      ∃ f, l₀ ≤ f ∧ f ≤ r₀ ∧ HasType stabs type f ∧ NoneIn (HasType stabs type) l₀ (f - 1) ∧
        L = min l₀ (f - 1) ∧ R = f - 1 := by
  obtain ⟨t, hends, -, hres⟩ := stabBinsearch_ok hlr h
  obtain ⟨hshape, hun⟩ := hends.unmatched hno hlr
  have hl := hshape.l_eq hends.crossed
  have hlo := hshape.lo
  have hleft := hun.left
  have hnone := hun.none
  rw [show t.l - 1 = t.r by omega] at hnone
  unfold Search.result at hres
  split_ifs at hres with hany <;> obtain ⟨rfl, rfl⟩ := Prod.mk.inj hres
  · have hmoved := hun.moved hany
    refine .inr ⟨t.r + 1, by omega, by omega, ?_, ?_, by omega, by omega⟩
    · rcases hshape.edge with hr | hp
      · omega
      · exact hp
    · rwa [Int.add_sub_cancel]
  · obtain ⟨-, hr, -⟩ := hshape.fresh (by simpa using hany)
    exact .inl ⟨hr ▸ hnone, hleft, by omega⟩

/-- **Crossed results.**  When no entry of the type in the range is at or below the
address, the results cross exactly when the range has no entry of the type.  If they
do not, then no entry of the type is at `*region_left`. -/
theorem stabBinsearch_crosses_iff (h0 : 0 ≤ l₀) (hlr : l₀ ≤ r₀ + 1) (hn : r₀ < stabs.length)
    (hno : NotContained (HasType stabs type) (valueAt stabs) l₀ r₀ x) :
    ∃ L R, stabBinsearch stabs l₀ r₀ type x = .ok (L, R) ∧
      (R < L ↔ NoneIn (HasType stabs type) l₀ r₀) ∧
      (l₀ ≤ L → L ≤ R → ¬ HasType stabs type L) := by
  obtain ⟨L, R, h⟩ := stabBinsearch_total x type h0 hlr hn
  refine ⟨L, R, h, ?_⟩
  rcases stabBinsearch_notContained hlr hno h with
    ⟨hnone, rfl, rfl⟩ | ⟨f, hlf, hfr, hf, hnone, rfl, rfl⟩
  · refine ⟨iff_of_true (by omega) hnone, ?_⟩
    intro _ hle
    omega
  · refine ⟨iff_of_false (by omega) fun hno ↦ hno f hlf hfr hf, ?_⟩
    intro hle _
    exact hnone _ hle (by omega)

end

/-- An assembly file with one line, and a function after it. -/
def assemblyFirst : List Stab :=
  [⟨0, 0, 2, 0⟩, ⟨1, 0x64, 0, 0xf0100000⟩, ⟨0, 0x44, 7, 0xf0100008⟩, ⟨5, 0x24, 9, 0xf0100040⟩]

theorem assemblyFirst_crosses_iff :
    ∃ L R, stabBinsearch assemblyFirst 1 3 nFun 0xf0100010 = .ok (L, R) ∧
      (R < L ↔ NoneIn (HasType assemblyFirst nFun) 1 3) ∧
      (1 ≤ L → L ≤ R → ¬ HasType assemblyFirst nFun L) :=
  stabBinsearch_crosses_iff (by decide) (by decide) (by decide) (by decide)

/-- The only function of the table is above `0xf0100010`.  The search for it returns
the file entry as its region, and `debuginfo_eip` takes the file for the function, and
then also for the line. -/
theorem assemblyFirst_not_crossed :
    InOrder assemblyFirst ∧
      NotContained (HasType assemblyFirst nFun) (valueAt assemblyFirst) 1 3 0xf0100010 ∧
      stabBinsearch assemblyFirst 1 3 nFun 0xf0100010 = .ok (1, 2) ∧
      ¬ HasType assemblyFirst nFun 1 ∧
      debuginfoEip assemblyFirst oneFileStrings 0xf0100010 =
        .ok (0, ⟨.stabstr 1, 0, .stabstr 1, 3, 0xf0100000, 0⟩) := by
  refine ⟨⟨by decide, by decide, by decide, by decide⟩, by decide, by decide +kernel, by decide, ?_⟩
  decide +kernel

end JosKernel.Kdebug
