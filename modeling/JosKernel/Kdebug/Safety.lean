import JosKernel.Kdebug.Line
import JosKernel.Kdebug.RulesOut

/-!
# The table entries that `debuginfo_eip` reads

Inside its range a search reads only the table.  A search that rules out every entry
leaves results below its range, though, and `debuginfo_eip` goes on with them unless
`lfile` is 0.  This takes it to `stabs[-1]` in two ways:

* the file search runs from entry 0, so it ends at -1 if entry 0 is an `N_SO` and
  all of them are ruled out (`FallsOff`);
* after a file search that ends at 1, the function search can end at 0 and the line
  search at -1 (`WrapsOff`).  This takes the last address of all, where the
  increment of an exact match wraps.

`debuginfoEip_reads_iff` says that there is no third way.
-/

namespace JosKernel.Kdebug

open JosKernel.Interval

variable {stabs : List Stab} {stabstr : List Byte} {addr : BitVec 32}

/-! ## Reads that stay inside -/

theorem scanFile_total {lfile lline : Int} (h0 : 0 ≤ lfile) (hn : lline < stabs.length) :
    ∃ m, scanFile stabs lfile lline = .ok m ∧ m ≤ lline := by
  unfold scanFile
  by_cases hle : lfile ≤ lline
  · obtain ⟨e, he⟩ := stabAt_isSome (by omega : 0 ≤ lline) hn
    simp only [hle, if_true, readStab_of_stabAt he, Result.ok_bind]
    split_ifs
    · have hn' : lline - 1 < stabs.length := by omega
      obtain ⟨m, hm, hml⟩ := scanFile_total h0 hn'
      exact ⟨m, hm, by omega⟩
    · exact ⟨lline, rfl, le_refl _⟩
  · exact ⟨lline, by simp [hle], le_refl _⟩
termination_by (lline - lfile + 1).toNat

theorem countParams_total {rfun lline : Int} (h0 : 0 ≤ lline) (hn : rfun ≤ stabs.length) :
    ∃ n, countParams stabs rfun lline = .ok n := by
  unfold countParams
  by_cases hlt : lline < rfun
  · obtain ⟨e, he⟩ := stabAt_isSome h0 (by omega : lline < stabs.length)
    simp only [hlt, if_true, readStab_of_stabAt he, Result.ok_bind]
    split_ifs
    · have h0' : 0 ≤ lline + 1 := by omega
      obtain ⟨n, hn⟩ := countParams_total h0' hn
      exact ⟨n + 1, by simp [hn]⟩
    · exact ⟨0, rfl⟩
  · exact ⟨0, by simp [hlt]⟩
termination_by (rfun - lline).toNat

/-! ## The two ways out of the table -/

/-- Entry 0 is an `N_SO` and the file search rules out every `N_SO`. -/
def FallsOff (stabs : List Stab) (addr : BitVec 32) : Prop :=
  HasType stabs nSo 0 ∧
    RulesOut (HasType stabs nSo) (valueAt stabs) addr 0 ((stabs.length : Int) - 1)

/-- The address is the last one, the table starts with a line, a function at the
address and a file, the file search rules out every `N_SO`, and the line, taken for
the function, lies in the upper half of the address space. -/
structure WrapsOff (stabs : List Stab) (addr : BitVec 32) : Prop where
  last : addr + 1 = 0
  line : HasType stabs nSline 0
  fn : HasType stabs nFun 1
  file : HasType stabs nSo 2
  fnValue : valueAt stabs 1 = addr
  lineValue : addr - valueAt stabs 0 < valueAt stabs 0
  rulesOut : RulesOut (HasType stabs nSo) (valueAt stabs) addr 0 ((stabs.length : Int) - 1)

/-- A search of a range that starts at -1 reads `stabs[-1]`. -/
theorem stabBinsearch_neg {type : Int} :
    stabBinsearch stabs (-1) (-1) type addr = .error (.stab (-1)) := by
  have hscan : scanType stabs type (-1) (-1) = .error (.stab (-1)) := by
    rw [scanType, if_pos (le_refl _), readStab_of_not_mem (by omega)]
    rfl
  have hstep : searchStep stabs type (.init (-1) (-1) addr) = .error (.stab (-1)) := by
    simp only [searchStep, Search.init, show mid (-1) (-1) = -1 from rfl, hscan,
      Result.error_bind]
  have hloop : searchLoop stabs type (.init (-1) (-1) addr) = .error (.stab (-1)) := by
    rw [searchLoop, dif_pos (by simp [Search.init])]
    split <;> simp_all
  simp only [stabBinsearch, hloop, Result.error_bind]

/-- The file search, and where it ends at -1. -/
theorem fileSearch (stabs : List Stab) (addr : BitVec 32) : ∃ lfile rfile,
    stabBinsearch stabs 0 ((stabs.length : Int) - 1) nSo addr = .ok (lfile, rfile) ∧
      (lfile = -1 ↔ FallsOff stabs addr) := by
  obtain ⟨lfile, rfile, h⟩ := stabBinsearch_total addr nSo (le_refl 0)
    (by omega : (0 : Int) ≤ (stabs.length : Int) - 1 + 1) (by omega : _ < (stabs.length : Int))
  refine ⟨lfile, rfile, h, ?_⟩
  by_cases hpos : 0 < stabs.length
  · exact stabBinsearch_below_iff (by omega) h
  · -- an empty table has nothing to search
    rw [stabBinsearch, searchLoop_end (by simp only [Search.init]; omega)] at h
    obtain ⟨rfl, -⟩ := Prod.mk.inj (Except.ok.inj h)
    have hno : ¬ HasType stabs nSo 0 := fun hp ↦ by have := hp.lt_length; omega
    simp [FallsOff, Search.init, hno]

section

variable (hulim : ulim ≤ addr) (hstr : stabstr.getLast? = some 0)

include hulim hstr

theorem eipRegion_fallsOff (h : FallsOff stabs addr) :
    eipRegion stabs stabstr addr = .error (.stab (-1)) := by
  have hmem := h.1.lt_length
  obtain ⟨lfile, rfile, hfile, hiff⟩ := fileSearch stabs addr
  obtain rfl := hiff.mpr h
  have hr : rfile = -1 := by
    rcases stabBinsearch_cases (by omega) hfile with hnone | hbelow | hin <;> omega
  subst hr
  simp [eipRegion, BitVec.not_lt.mpr hulim, hstr, hfile, stabBinsearch_neg]

theorem eipRegion_total (h : ¬ FallsOff stabs addr) :
    ∃ region, eipRegion stabs stabstr addr = .ok region := by
  simp only [eipRegion, BitVec.not_lt.mpr hulim, hstr, if_false, ne_eq, not_true_eq_false]
  obtain ⟨lfile, rfile, hfile, hiff⟩ := fileSearch stabs addr
  have hbounds := stabBinsearch_bounds (by omega) hfile
  simp only [hfile, Result.ok_bind]
  split_ifs with hzero
  · exact ⟨_, rfl⟩
  have hpos : 0 < lfile := by
    have := mt hiff.mp h
    omega
  obtain ⟨lfun, rfun, hfn⟩ := stabBinsearch_total addr nFun
    (by omega : 0 ≤ lfile) (by omega : lfile ≤ rfile + 1) (by omega : rfile < stabs.length)
  have hfnb := stabBinsearch_bounds (by omega) hfn
  simp only [hfn, Result.ok_bind]
  split_ifs with hfun
  · obtain ⟨e, he⟩ : ∃ e, stabAt stabs lfun = some e := stabAt_isSome (by omega) (by omega)
    obtain ⟨text, htext⟩ := (inTable_of_check e.nStrx).exists_denotes hstr
    exact ⟨_, by simp only [readStab_of_stabAt he, Result.ok_bind,
      Name.colon_of_denotes htext]; rfl⟩
  · have hcolon := Name.colon_of_denotes (unknown_denotes stabstr)
    exact ⟨_, by simp only [hcolon, Result.ok_bind]; rfl⟩

end

/-! ## The line search -/

theorem FromRegion.lfile_pos {rfile : Int} {q : LineQuery} (h : FromRegion stabs addr rfile q)
    (hoff : ¬ FallsOff stabs addr) : 0 < q.lfile := by
  obtain ⟨lfile, rfile', hfile, hiff⟩ := fileSearch stabs addr
  obtain ⟨rfl, -⟩ := Prod.mk.inj (Except.ok.inj (hfile.symm.trans h.file))
  have hbounds := stabBinsearch_bounds (by omega) h.file
  have := h.lfile_ne
  have := mt hiff.mp hoff
  omega

/-- Two types never meet at one entry. -/
theorem HasType.not_hasType {t t' i : Int} (h : HasType stabs t i) (hne : t ≠ t') :
    ¬ HasType stabs t' i := fun h' ↦ hne (h.type_eq h')

/-- A table that starts with a line and a function has no file before entry 2. -/
theorem noneIn_files (hline : HasType stabs nSline 0) (hfn : HasType stabs nFun 1) :
    NoneIn (HasType stabs nSo) 0 (2 - 1) := by
  intro i hi hi'
  rcases (by omega : i = 0 ∨ i = 1) with rfl | rfl
  · exact hline.not_hasType (by decide)
  · exact hfn.not_hasType (by decide)

/-- The line search can leave the table only after the function search has ended at
0, just below its range. -/
theorem FromRegion.of_neg {rfile L R : Int} {q : LineQuery} (h : FromRegion stabs addr rfile q)
    (hoff : ¬ FallsOff stabs addr)
    (hs : stabBinsearch stabs q.lline q.rline nSline q.addr = .ok (L, R)) (hL : L = -1) :
    q.lfile = 1 ∧ 1 ≤ rfile ∧ q.lfun = 0 ∧ q.lline = 0 ∧ q.rline = 0 ∧
      q.addr = addr - valueAt stabs 0 := by
  have hpos := h.lfile_pos hoff
  have hfile := stabBinsearch_cases (by omega) h.file
  have hbounds := stabBinsearch_bounds h.bounds.2.1 hs
  have hfn := stabBinsearch_cases (by omega) h.fn
  rcases h.line with ⟨hfun, hl, hr, e, he, haddr⟩ | ⟨-, hl, -⟩
  · have hlfun : q.lfun = 0 := by omega
    rw [hlfun] at he
    refine ⟨by omega, by omega, hlfun, by omega, by omega, ?_⟩
    rw [haddr, valueAt_eq he]
  · omega

/-- There the file search ends at 1, with a region of one entry. -/
theorem WrapsOff.fileSearch {lfile rfile : Int} (hw : WrapsOff stabs addr)
    (h : stabBinsearch stabs 0 ((stabs.length : Int) - 1) nSo addr = .ok (lfile, rfile)) :
    lfile = 1 ∧ rfile = 1 := by
  have hso2 := hw.file.lt_length
  have hlfile : lfile = 2 - 1 := (stabBinsearch_before_iff (by omega) (by omega)
    (noneIn_files hw.line hw.fn) hw.file h).mpr ⟨hw.last, hw.rulesOut⟩
  obtain rfl : lfile = 1 := by omega
  obtain ⟨hrfile, -⟩ := stabBinsearch_not_hasType (by omega) h (by omega)
    (hw.fn.not_hasType (by decide))
  exact ⟨rfl, hrfile⟩

section

variable {rfile L R : Int} {q : LineQuery}

/-- The line search ends below the table only in the wrapped way. -/
theorem FromRegion.wrapsOff (h : FromRegion stabs addr rfile q) (hoff : ¬ FallsOff stabs addr)
    (hs : stabBinsearch stabs q.lline q.rline nSline q.addr = .ok (L, R)) (hL : L = -1) :
    WrapsOff stabs addr := by
  have hfile := h.file
  have hfn := h.fn
  obtain ⟨hlfile, hrfile, hlfun, hlline, hrline, haddr⟩ := h.of_neg hoff hs hL
  rw [hlfile] at hfile hfn
  rw [hlline, hrline, haddr] at hs
  obtain ⟨hline0, hlineout⟩ := (stabBinsearch_below_iff (le_refl 0) hs).mp (by omega)
  obtain ⟨hfn1, hfnout⟩ := (stabBinsearch_below_iff hrfile hfn).mp (by omega)
  -- the file search has ended at 1, where there is a function
  obtain ⟨rfl, hlt, hso2⟩ := stabBinsearch_not_hasType (by omega) hfile (by omega)
    (hfn1.not_hasType (by decide))
  obtain ⟨hlast, hout⟩ := (stabBinsearch_before_iff (by omega) (by omega)
    (noneIn_files hline0 hfn1) hso2 hfile).mp (by omega)
  rw [rulesOut_self hfn1] at hfnout
  rw [rulesOut_self hline0] at hlineout
  exact
    { last := hlast
      line := hline0
      fn := hfn1
      file := hso2
      fnValue := by bv_omega
      lineValue := by bv_omega
      rulesOut := hout }

/-- In the wrapped way it does end there. -/
theorem FromRegion.lline_of_wrapsOff (h : FromRegion stabs addr rfile q)
    (hs : stabBinsearch stabs q.lline q.rline nSline q.addr = .ok (L, R))
    (hw : WrapsOff stabs addr) : L = -1 := by
  have hfile := h.file
  have hfn := h.fn
  obtain ⟨hlfile, rfl⟩ := hw.fileSearch hfile
  rw [hlfile] at hfn
  have hlfun : q.lfun = 1 - 1 := (stabBinsearch_below_iff (le_refl 1) hfn).mpr
    ⟨hw.fn, (rulesOut_self hw.fn).mpr (.inr ⟨hw.last, hw.fnValue⟩)⟩
  have hrfun := stabBinsearch_cases (by omega) hfn
  rcases h.line with ⟨hfun, hl, hr, e, he, haddr⟩ | ⟨hlt, -⟩
  · rw [hlfun, show (1 : Int) - 1 = 0 by omega] at he
    rw [hl, hr, hlfun, show q.rfun = 1 - 1 by omega, haddr, ← valueAt_eq he] at hs
    have hL := (stabBinsearch_below_iff (by omega) hs).mpr
      ⟨hw.line, (rulesOut_self hw.line).mpr (.inl hw.lineValue)⟩
    omega
  · omega

theorem FromRegion.lline_neg_iff (h : FromRegion stabs addr rfile q) (hoff : ¬ FallsOff stabs addr)
    (hs : stabBinsearch stabs q.lline q.rline nSline q.addr = .ok (L, R)) :
    L = -1 ↔ WrapsOff stabs addr :=
  ⟨h.wrapsOff hoff hs, h.lline_of_wrapsOff hs⟩

end

/-! ## The result -/

theorem FromRegion.eipLine_neg {rfile L R : Int} {q : LineQuery}
    (h : FromRegion stabs addr rfile q) (hoff : ¬ FallsOff stabs addr)
    (hs : stabBinsearch stabs q.lline q.rline nSline q.addr = .ok (L, R)) (hL : L = -1) :
    eipLine stabs stabstr q = .error (.stab (-1)) := by
  obtain ⟨-, -, -, hlline, hrline, -⟩ := h.of_neg hoff hs hL
  have hR : R = -1 := by
    have := stabBinsearch_cases (by omega) hs
    omega
  subst hL hR
  simp [eipLine, hs, readStab_of_not_mem]

theorem FromRegion.eipLine_total {rfile L R : Int} {q : LineQuery}
    (h : FromRegion stabs addr rfile q) (hoff : ¬ FallsOff stabs addr)
    (hs : stabBinsearch stabs q.lline q.rline nSline q.addr = .ok (L, R)) (hL : 0 ≤ L) :
    ∃ result, eipLine stabs stabstr q = .ok result := by
  have hpos := h.lfile_pos hoff
  have hfile := stabBinsearch_bounds (by omega) h.file
  have hfn := stabBinsearch_bounds h.bounds.1 h.fn
  have hline := h.bounds
  have hbounds := stabBinsearch_bounds hline.2.1 hs
  simp only [eipLine, hs, Result.ok_bind]
  split_ifs with hLR
  · exact ⟨_, rfl⟩
  obtain ⟨e, he⟩ : ∃ e, stabAt stabs R = some e := stabAt_isSome (by omega) (by omega)
  obtain ⟨m, hm, hmL⟩ : ∃ m, scanFile stabs q.lfile L = .ok m ∧ m ≤ L :=
    scanFile_total (by omega) (by omega)
  obtain ⟨file, hfile⟩ : ∃ file, eipFile stabs stabstr q L = .ok file := by
    simp only [eipFile, hm, Result.ok_bind]
    split_ifs with hmem
    · obtain ⟨e', he'⟩ : ∃ e', stabAt stabs m = some e' := stabAt_isSome (by omega) (by omega)
      exact ⟨_, by rw [readStab_of_stabAt he']; rfl⟩
    · exact ⟨_, rfl⟩
  obtain ⟨narg, hnarg⟩ : ∃ narg, eipNarg stabs q = .ok narg := by
    unfold eipNarg
    split_ifs
    · exact countParams_total (by omega) (by omega)
    · exact ⟨0, rfl⟩
  exact ⟨_, by simp only [readStab_of_stabAt he, Result.ok_bind, hfile, hnarg]; rfl⟩

/-- `debuginfo_eip` reads `stabs[-1]` when it falls or wraps off the table, and
returns otherwise. -/
theorem debuginfoEip_cases (hulim : ulim ≤ addr) (hstr : stabstr.getLast? = some 0) :
    (FallsOff stabs addr ∨ WrapsOff stabs addr) ∧
        debuginfoEip stabs stabstr addr = .error (.stab (-1)) ∨
      ¬ FallsOff stabs addr ∧ ¬ WrapsOff stabs addr ∧
        ∃ result, debuginfoEip stabs stabstr addr = .ok result := by
  by_cases hoff : FallsOff stabs addr
  · refine .inl ⟨.inl hoff, ?_⟩
    rw [debuginfoEip, eipRegion_fallsOff hulim hstr hoff, Result.error_bind]
  obtain ⟨region, hregion⟩ := eipRegion_total hulim hstr hoff
  simp only [debuginfoEip, hregion, Result.ok_bind]
  cases region with
  | inl info =>
      -- a file search that ends at 1 does not return early
      obtain ⟨-, hreturn⟩ | ⟨q, rfile, hinr, -⟩ := eipRegion_cases hregion
      swap
      · cases hinr
      obtain ⟨rfile, hfile⟩ := hreturn hstr
      exact .inr ⟨hoff, fun hw ↦ absurd (hw.fileSearch hfile).1 (by decide), _, rfl⟩
  | inr q =>
      obtain ⟨rfile, hfrom⟩ := eipRegion_query hregion
      have hpos := hfrom.lfile_pos hoff
      have hfn := stabBinsearch_bounds hfrom.bounds.1 hfrom.fn
      have hlline : 0 ≤ q.lline := by
        rcases hfrom.line with ⟨-, hl, -⟩ | ⟨-, hl, -⟩ <;> omega
      obtain ⟨L, R, hs⟩ := stabBinsearch_total q.addr nSline hlline
        hfrom.bounds.2.1 hfrom.bounds.2.2
      have hiff := hfrom.lline_neg_iff hoff hs
      by_cases hL : L = -1
      · exact .inl ⟨.inr (hiff.mp hL), hfrom.eipLine_neg hoff hs hL⟩
      · have hbounds := stabBinsearch_bounds hfrom.bounds.2.1 hs
        exact .inr ⟨hoff, mt hiff.mpr hL, hfrom.eipLine_total hoff hs (by omega)⟩

/-- **The entries `debuginfo_eip` reads.**  For every table, every string table and
every kernel address, all reads are inside the table exactly when the string table
is rejected or the searches neither fall nor wrap off the table. -/
theorem debuginfoEip_reads_iff (hulim : ulim ≤ addr) :
    (∀ i, debuginfoEip stabs stabstr addr ≠ .error (.stab i)) ↔
      (stabstr.getLast? = some 0 → ¬ FallsOff stabs addr ∧ ¬ WrapsOff stabs addr) := by
  constructor
  · intro hreads hstr
    rcases debuginfoEip_cases hulim hstr with ⟨-, herr⟩ | ⟨hoff, hw, -⟩
    · exact absurd herr (hreads _)
    · exact ⟨hoff, hw⟩
  · intro hok i
    by_cases hstr : stabstr.getLast? = some 0
    · rcases debuginfoEip_cases hulim hstr with ⟨hout, -⟩ | ⟨-, -, result, hres⟩
      · have := hok hstr
        tauto
      · simp [hres]
    · simp only [debuginfoEip, eipRegion, BitVec.not_lt.mpr hulim, ne_eq, hstr, if_false,
        not_false_eq_true, if_true, Result.pure_eq_ok, Result.ok_bind, reduceCtorEq]

theorem twoLines_reads_iff :
    (∀ i, debuginfoEip twoLines oneFileStrings 0xf0100002 ≠ .error (.stab i)) ↔
      (oneFileStrings.getLast? = some 0 →
        ¬ FallsOff twoLines 0xf0100002 ∧ ¬ WrapsOff twoLines 0xf0100002) :=
  debuginfoEip_reads_iff (by decide)

/-- A table that starts with the file at `0xf0100000`, without a header. -/
def fileFirst : List Stab := [⟨0, 0x64, 0, 0xf0100000⟩]

/-- An address before the first file takes `debuginfo_eip` to `stabs[-1]`. -/
theorem fileFirst_reads :
    ulim ≤ (0xf0000000 : BitVec 32) ∧
      debuginfoEip fileFirst [0] 0xf0000000 = .error (.stab (-1)) ∧
      ¬ ∀ i, debuginfoEip fileFirst [0] 0xf0000000 ≠ .error (.stab i) := by
  have hrun : debuginfoEip fileFirst [0] 0xf0000000 = .error (.stab (-1)) := by decide +kernel
  exact ⟨by decide, hrun, fun h ↦ h _ hrun⟩

/-- The second way out: a line, a function and a file, the latter two at the last
address. -/
example : debuginfoEip [⟨0, 0x44, 1, 0x90000000⟩, ⟨0, 0x24, 0, 0xffffffff⟩,
    ⟨0, 0x64, 0, 0xffffffff⟩] [0] 0xffffffff = .error (.stab (-1)) := by decide +kernel

end JosKernel.Kdebug
