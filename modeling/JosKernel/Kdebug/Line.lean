import JosKernel.Kdebug.Containing
import JosKernel.Kdebug.Strings

/-!
# The line search of `debuginfo_eip`

What the searches for the file and for the function hand on to the search for the line
(`FromRegion`), what is read after it (`eipLine_cases`), and the order of the entries that
a compiler writes (`InOrder`).
-/

namespace JosKernel.Kdebug

open JosKernel.Interval

variable {stabs : List Stab} {stabstr : List Byte} {addr : BitVec 32}

/-! ## What the line search is given -/

/-- The query comes from a file search and a function search, of which `rfile`
alone does not outlive the function. -/
structure FromRegion (stabs : List Stab) (addr : BitVec 32) (rfile : Int) (q : LineQuery) :
    Prop where
  file : stabBinsearch stabs 0 ((stabs.length : Int) - 1) nSo addr = .ok (q.lfile, rfile)
  lfile_ne : q.lfile ≠ 0
  fn : stabBinsearch stabs q.lfile rfile nFun addr = .ok (q.lfun, q.rfun)
  /-- The line is searched for in the function, or in the file if there is none. -/
  line : q.lfun ≤ q.rfun ∧ q.lline = q.lfun ∧ q.rline = q.rfun ∧
        (∃ e, stabAt stabs q.lfun = some e ∧ q.addr = addr - e.nValue) ∨
      q.rfun < q.lfun ∧ q.lline = q.lfile ∧ q.rline = rfile ∧ q.addr = addr

/-- What `*info` is set to first. -/
def initialInfo (addr : BitVec 32) : EipDebuginfo :=
  { eipFile := .unknown, eipLine := 0, eipFnName := .unknown, eipFnNamelen := 9,
    eipFnAddr := addr, eipFnNarg := 0 }

/-- Before the line search `debuginfo_eip` returns, because of the string table or of the
file search, or it has a query with the name of the function. -/
theorem eipRegion_cases {region : EipDebuginfo ⊕ LineQuery}
    (h : eipRegion stabs stabstr addr = .ok region) :
    region = .inl (initialInfo addr) ∧ (stabstr.getLast? = some 0 →
        ∃ rfile, stabBinsearch stabs 0 ((stabs.length : Int) - 1) nSo addr = .ok (0, rfile)) ∨
      ∃ q rfile, region = .inr q ∧ stabstr.getLast? = some 0 ∧ FromRegion stabs addr rfile q ∧
        q.info.eipFile = .unknown ∧ q.info.eipFnName.InTable stabstr ∧
        q.info.eipFnName.colon stabstr = .ok q.info.eipFnNamelen := by
  by_cases hulim : addr < ulim
  · simp only [eipRegion, if_pos hulim] at h
    cases h
  simp only [eipRegion, if_neg hulim] at h
  split_ifs at h with hstr
  · cases h
    exact .inl ⟨rfl, fun hlast ↦ absurd hlast hstr⟩
  obtain ⟨⟨lfile, rfile⟩, hfile, h⟩ := Result.bind_eq_ok.mp h
  split_ifs at h with hne
  · cases h
    exact .inl ⟨rfl, fun _ ↦ ⟨rfile, hne ▸ hfile⟩⟩
  obtain ⟨⟨lfun, rfun⟩, hfn, h⟩ := Result.bind_eq_ok.mp h
  split_ifs at h with hfun
  · obtain ⟨e, he, h⟩ := Result.bind_eq_ok.mp h
    obtain ⟨namelen, hcolon, h⟩ := Result.bind_eq_ok.mp h
    rw [readStab_eq_ok] at he
    cases h
    exact .inr ⟨_, rfile, rfl, not_not.mp hstr,
      ⟨hfile, hne, hfn, .inl ⟨hfun, rfl, rfl, e, he, rfl⟩⟩, rfl, inTable_of_check e.nStrx, hcolon⟩
  · obtain ⟨namelen, hcolon, h⟩ := Result.bind_eq_ok.mp h
    cases h
    exact .inr ⟨_, rfile, rfl, not_not.mp hstr,
      ⟨hfile, hne, hfn, .inr ⟨by dsimp only; omega, rfl, rfl, rfl⟩⟩, rfl, trivial, hcolon⟩

theorem eipRegion_query {q : LineQuery} (h : eipRegion stabs stabstr addr = .ok (.inr q)) :
    ∃ rfile, FromRegion stabs addr rfile q := by
  rcases eipRegion_cases h with ⟨hinl, -⟩ | ⟨q', rfile, hinr, -, hfrom, -⟩
  · cases hinl
  · cases hinr
    exact ⟨rfile, hfrom⟩

/-- The range of the line search, and that of the function search. -/
theorem FromRegion.bounds {rfile : Int} {q : LineQuery} (h : FromRegion stabs addr rfile q) :
    q.lfile ≤ rfile + 1 ∧ q.lline ≤ q.rline + 1 ∧ q.rline < stabs.length := by
  have hfile := stabBinsearch_bounds (by omega) h.file
  have hfn := stabBinsearch_bounds (by omega) h.fn
  rcases h.line with ⟨hle, hl, hr, -⟩ | ⟨hlt, hl, hr, -⟩ <;> omega

/-! ## The line number -/

/-- The line search finds nothing, or the line number is read at the end of its range and
the file and the arguments are searched for. -/
theorem eipLine_cases {q : LineQuery} {ret : Int} {info : EipDebuginfo}
    (h : eipLine stabs stabstr q = .ok (ret, info)) :
    ∃ L R, stabBinsearch stabs q.lline q.rline nSline q.addr = .ok (L, R) ∧
      (ret = -1 ∧ info = q.info ∨
        ret = 0 ∧ L ≤ R ∧ ∃ e file narg, stabAt stabs R = some e ∧
          eipFile stabs stabstr q L = .ok file ∧ eipNarg stabs q = .ok narg ∧
          info = { q.info with eipFile := file, eipLine := e.nDesc.toNat, eipFnNarg := narg }) := by
  obtain ⟨⟨L, R⟩, hs, h⟩ := Result.bind_eq_ok.mp h
  dsimp only at h
  refine ⟨L, R, hs, ?_⟩
  split_ifs at h with hLR
  · cases h
    exact .inl ⟨rfl, rfl⟩
  obtain ⟨e, he, h⟩ := Result.bind_eq_ok.mp h
  obtain ⟨file, hfile, h⟩ := Result.bind_eq_ok.mp h
  obtain ⟨narg, hnarg, h⟩ := Result.bind_eq_ok.mp h
  rw [readStab_eq_ok] at he
  cases h
  exact .inr ⟨rfl, Int.not_lt.mp hLR, e, file, narg, he, hfile, hnarg, rfl⟩

/-- The last search of `debuginfo_eip` returned `L`, and its range ended at `r`. -/
def LineFound (stabs : List Stab) (stabstr : List Byte) (addr : BitVec 32) (L r : Int) : Prop :=
  ∃ q R, eipRegion stabs stabstr addr = .ok (.inr q) ∧
    stabBinsearch stabs q.lline q.rline nSline q.addr = .ok (L, R) ∧ q.rline = r

/-! ## Tables in order -/

/-- The entries of a predicate in `[l, r]` have increasing values. -/
def Increasing (P : Int → Prop) (v : Int → BitVec 32) (l r : Int) : Prop :=
  ∀ i, l ≤ i → i ≤ r → ∀ j, i + 1 ≤ j → j ≤ r → P i → P j → v i < v j

instance {P : Int → Prop} [DecidablePred P] {v : Int → BitVec 32} {l r : Int} :
    Decidable (Increasing P v l r) :=
  inferInstanceAs (Decidable (∀ i, l ≤ i → i ≤ r → ∀ j, i + 1 ≤ j → j ≤ r → P i → P j → v i < v j))

/-- The tables a compiler writes: files and functions are in increasing address
order, and so are the lines of each function.  Entry 0 is the header of the unit. -/
structure InOrder (stabs : List Stab) : Prop where
  files : Increasing (HasType stabs nSo) (valueAt stabs) 0 (stabs.length - 1)
  functions : Increasing (HasType stabs nFun) (valueAt stabs) 0 (stabs.length - 1)
  lines : ∀ l, 0 ≤ l → l ≤ (stabs.length : Int) - 1 → ∀ r, l ≤ r → r ≤ (stabs.length : Int) - 1 →
    NoneIn (HasType stabs nFun) l r → Increasing (HasType stabs nSline) (valueAt stabs) l r
  header : ¬ HasType stabs nSo 0

/-- The strings `"a.c"` and `"f:F1"`, at 1 and 5. -/
def oneFileStrings : List Byte :=
  [0] ++ asciis ['a', '.', 'c'] ++ [0] ++ asciis ['f', ':', 'F', '1'] ++ [0]

/-- A function `f` with its lines 10 and 11. -/
def twoLines : List Stab :=
  [⟨0, 0, 2, 0⟩, ⟨1, 0x64, 0, 0xf0100000⟩, ⟨5, 0x24, 9, 0xf0100000⟩,
    ⟨0, 0x44, 10, 0⟩, ⟨0, 0x44, 11, 4⟩]

/-- The same function, with the scope of a local variable: the compiler puts its
`N_LBRAC` and `N_RBRAC` after the lines. -/
def twoLinesScope : List Stab := twoLines ++ [⟨0, 0xc0, 0, 0⟩, ⟨0, 0xe0, 0, 8⟩]

end JosKernel.Kdebug
