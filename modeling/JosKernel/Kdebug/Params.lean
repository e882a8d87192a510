import JosKernel.Kdebug.RulesOut
import JosKernel.Kdebug.Line

/-!
# The number of arguments

`debuginfo_eip` counts the parameter entries behind the entry of the function.  The
loop takes the inclusive bound `rfun` for an exclusive one and never looks at the last
entry of the region.  That entry is no parameter if all before it are: the line search
has found a line entry in the region (`stabBinsearch_found`), which can only be the last
entry then, since the first one is a function or a file (`FromRegion.lfun_type`).
-/

namespace JosKernel.Kdebug

open JosKernel.Interval

variable {stabs : List Stab} {stabstr : List Byte} {addr : BitVec 32}

/-! ## The loop -/

/-- The `n` entries after `lfun` are parameters, up to `rfun` at most, and there the run
of parameters ends. -/
structure ParamRun (stabs : List Stab) (lfun rfun n : Int) : Prop where
  nonneg : 0 ≤ n
  le : lfun + n ≤ rfun
  psym : ∀ i, lfun < i → i ≤ lfun + n → HasType stabs nPsym i
  stop : lfun + n < rfun → ¬ HasType stabs nPsym (lfun + n + 1)

/-- The loop counts a run of parameters, as if `rfun` were outside the region. -/
theorem countParams_run {rfun lline n : Int} (hle : lline ≤ rfun)
    (h : countParams stabs rfun lline = .ok n) : ParamRun stabs (lline - 1) (rfun - 1) n := by
  unfold countParams at h
  split_ifs at h with hlt
  · obtain ⟨e, he, h⟩ := Result.bind_eq_ok.mp h
    rw [readStab_eq_ok] at he
    split_ifs at h with htype
    · obtain ⟨m, hm, h⟩ := Result.bind_eq_ok.mp h
      cases h
      obtain ⟨hnonneg, hend, hpsym, hstop⟩ := countParams_run (by omega) hm
      refine ⟨by omega, by omega, fun i hi hi' ↦ ?_, fun hlast ↦ ?_⟩
      · by_cases hfirst : i = lline
        · rw [hfirst]
          exact (hasType_iff he).mpr htype
        · exact hpsym i (by omega) (by omega)
      · rw [show lline - 1 + (m + 1) + 1 = lline + 1 - 1 + m + 1 by omega]
        exact hstop (by omega)
    · cases h
      refine ⟨le_refl _, by omega, fun i hi hi' ↦ by omega, fun _ ↦ ?_⟩
      rw [Int.add_zero, Int.sub_add_cancel]
      exact mt (hasType_iff he).mp htype
  · cases h
    exact ⟨le_refl _, by omega, fun i hi hi' ↦ by omega, fun hlast ↦ by omega⟩
termination_by (rfun - lline).toNat

/-! ## The searches before it -/

section

variable {P : Int → Prop} {v : Int → BitVec 32} {l₀ r₀ : Int} {x : BitVec 32} {s s' t : Search}

/-- Where no entry is of the type, a pass through the body matches nothing. -/
theorem Step.not_anyMatches (hno : NoneIn P l₀ r₀) (hshape : Shape P l₀ r₀ s) (hs : Step P v s s')
    (hany : s.anyMatches = false) : s'.anyMatches = false := by
  have hmid := mid_mem hs.le
  have hlo := hshape.lo
  have hhi := hshape.hi
  have habsurd {m : Int} (hm : LastIn P s.l (mid s.l s.r) m) : False := by
    have := hm.ge
    have := hm.le
    exact hno m (by omega) (by omega) hm.holds
  cases hs with
  | skip hlr hn => exact hany
  | less hlr hm hv => exact (habsurd hm).elim
  | greater hlr hm hv => exact (habsurd hm).elim
  | exact hlr hm hv => exact (habsurd hm).elim

theorem Ends.not_anyMatches (hno : NoneIn P l₀ r₀) (hlr : l₀ ≤ r₀ + 1)
    (h : Ends P v (.init l₀ r₀ x) t) : t.anyMatches = false := by
  refine (h.preserves (I := fun s ↦ Shape P l₀ r₀ s ∧ s.anyMatches = false) ?_
    ⟨.init hlr, rfl⟩).2
  intro s s' hs hi
  exact ⟨hs.shape hi.1, hs.not_anyMatches hno hi.1 hi.2⟩

end

/-- A search whose results have not crossed has met an entry of the type. -/
theorem stabBinsearch_found {type l₀ r₀ L R : Int} {x : BitVec 32} (hlr : l₀ ≤ r₀ + 1)
    (h : stabBinsearch stabs l₀ r₀ type x = .ok (L, R)) (hLR : L ≤ R) :
    ∃ i, l₀ ≤ i ∧ i ≤ r₀ ∧ HasType stabs type i := by
  by_contra hnone
  have hno : NoneIn (HasType stabs type) l₀ r₀ := fun i hi hi' hp ↦ hnone ⟨i, hi, hi', hp⟩
  obtain ⟨t, hends, -, hres⟩ := stabBinsearch_ok hlr h
  have hany := hends.not_anyMatches hno hlr
  simp only [Search.result, hany, Bool.false_eq_true, if_false] at hres
  obtain ⟨rfl, rfl⟩ := Prod.mk.inj hres
  omega

/-- A region of more than one entry starts with a function, or with the file itself. -/
theorem FromRegion.lfun_type {rfile : Int} {q : LineQuery} (h : FromRegion stabs addr rfile q)
    (hlt : q.lfun < q.rfun) : HasType stabs nFun q.lfun ∨ HasType stabs nSo q.lfun := by
  have hfile := stabBinsearch_cases (by omega) h.file
  have hfn := stabBinsearch_cases h.bounds.1 h.fn
  have hne := h.lfile_ne
  by_contra hno
  obtain ⟨hnofun, hnoso⟩ := not_or.mp hno
  by_cases hfirst : q.lfile < q.lfun
  · have := stabBinsearch_not_hasType h.bounds.1 h.fn hfirst hnofun
    omega
  · have heq : q.lfun = q.lfile := by omega
    rw [heq] at hnoso
    have := stabBinsearch_not_hasType (by omega) h.file (by omega) hnoso
    omega

/-! ## The count -/

/-- A run of parameters that stops before the last entry stops before the end of the
region, if the region has an entry of another type after the function. -/
theorem ParamRun.extend {lfun rfun n i : Int} (h : ParamRun stabs lfun (rfun - 1) n)
    (hlt : lfun < i) (hle : i ≤ rfun) (hi : HasType stabs nSline i) :
    ParamRun stabs lfun rfun n := by
  have hle' := h.le
  refine ⟨h.nonneg, by omega, h.psym, fun hstop ↦ ?_⟩
  by_cases hlast : lfun + n = rfun - 1
  · have hafter : lfun + n < i := by
      by_contra hin
      exact absurd ((h.psym i hlt (by omega)).type_eq hi) (by decide)
    rw [show lfun + n + 1 = i by omega]
    intro hp
    exact absurd (hp.type_eq hi) (by decide)
  · exact h.stop (by omega)

/-- The arguments counted for a function, once a line has been found in it. -/
theorem FromRegion.paramRun {rfile L R n : Int} {q : LineQuery} (h : FromRegion stabs addr rfile q)
    (hle : q.lfun ≤ q.rfun) (hline : stabBinsearch stabs q.lline q.rline nSline q.addr = .ok (L, R))
    (hLR : L ≤ R) (hn : eipNarg stabs q = .ok n) : ParamRun stabs q.lfun q.rfun n := by
  unfold eipNarg at hn
  split_ifs at hn with hlt
  · have hrun := countParams_run (by omega) hn
    rw [Int.add_sub_cancel] at hrun
    obtain ⟨i, hi, hi', hsline⟩ := stabBinsearch_found h.bounds.2.1 hline hLR
    rcases h.line with ⟨-, hl, hr, -⟩ | ⟨hgt, -⟩
    · rw [hl] at hi
      rw [hr] at hi'
      -- the first entry of the region is not the line entry
      have hne : i ≠ q.lfun := by
        rintro rfl
        rcases h.lfun_type hlt with hp | hp <;> exact absurd (hp.type_eq hsline) (by decide)
      exact hrun.extend (by omega) hi' hsline
    · omega
  · cases hn
    exact ⟨le_refl _, by omega, fun i hi hi' ↦ by omega, fun hlast ↦ by omega⟩

/-- **The number of arguments.**  Whenever `debuginfo_eip` returns 0, it reports the
number of parameter entries directly behind the entry of the function, within the region
that the function search has found, and 0 if it has found none. -/
theorem debuginfoEip_narg {info : EipDebuginfo}
    (h : debuginfoEip stabs stabstr addr = .ok (0, info)) :
    ∃ lfile rfile lfun rfun,
      stabBinsearch stabs 0 ((stabs.length : Int) - 1) nSo addr = .ok (lfile, rfile) ∧
      stabBinsearch stabs lfile rfile nFun addr = .ok (lfun, rfun) ∧
      (lfun ≤ rfun → ParamRun stabs lfun rfun info.eipFnNarg) ∧
      (rfun < lfun → info.eipFnNarg = 0) := by
  obtain ⟨region, hregion, h⟩ := Result.bind_eq_ok.mp h
  cases region with
  | inl info' => cases h
  | inr q =>
      obtain ⟨L, R, hline, ⟨hret, -⟩ | ⟨-, hLR, e, file, narg, -, -, hnarg, rfl⟩⟩ := eipLine_cases h
      · cases hret
      obtain ⟨rfile, hfrom⟩ := eipRegion_query hregion
      refine ⟨q.lfile, rfile, q.lfun, q.rfun, hfrom.file, hfrom.fn, ?_, ?_⟩
      · intro hle
        exact hfrom.paramRun hle hline hLR hnarg
      · intro hlt
        rw [eipNarg, if_neg (by omega)] at hnarg
        exact (Except.ok.inj hnarg).symm

/-- A function with two parameters and a line. -/
def twoParams : List Stab :=
  [⟨0, 0, 2, 0⟩, ⟨1, 0x64, 0, 0xf0100000⟩, ⟨5, 0x24, 9, 0xf0100000⟩, ⟨0, 0xa0, 0, 8⟩,
    ⟨0, 0xa0, 0, 12⟩, ⟨0, 0x44, 10, 0⟩]

theorem twoParams_narg :
    ∃ lfile rfile lfun rfun,
      stabBinsearch twoParams 0 ((twoParams.length : Int) - 1) nSo 0xf0100002 = .ok (lfile, rfile) ∧
      stabBinsearch twoParams lfile rfile nFun 0xf0100002 = .ok (lfun, rfun) ∧
      (lfun ≤ rfun → ParamRun twoParams lfun rfun 2) ∧ (rfun < lfun → (2 : Int) = 0) :=
  debuginfoEip_narg
    (by decide +kernel : debuginfoEip twoParams oneFileStrings 0xf0100002 =
      .ok (0, ⟨.stabstr 1, 10, .stabstr 5, 1, 0xf0100000, 2⟩))

end JosKernel.Kdebug
