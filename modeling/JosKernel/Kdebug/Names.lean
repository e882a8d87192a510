import JosKernel.Kdebug.Safety

/-!
# The names that `debuginfo_eip` reports

The name of the function is a string of the table, or the constant, and so is the name of
the file, which is that of the nearest entry for a file at or before the line
(`FileNamed`).
-/

namespace JosKernel.Kdebug

open JosKernel.Interval

variable {stabs : List Stab} {stabstr : List Byte} {addr : BitVec 32}

/-! ## The name of the function -/

/-- The name of the function is a string, and its length goes up to the colon. -/
def FnNamed (stabstr : List Byte) (info : EipDebuginfo) : Prop :=
  ∃ text, info.eipFnName.Denotes stabstr text ∧
    info.eipFnNamelen = ((beforeColon text).length : Int)

/-- A string table without a NUL at its end is not used. -/
theorem eipRegion_rejected (stabs : List Stab) (hulim : ulim ≤ addr)
    (hstr : ¬ stabstr.getLast? = some 0) :
    ∃ info, eipRegion stabs stabstr addr = .ok (.inl info) :=
  ⟨_, by simp only [eipRegion, if_neg (BitVec.not_lt.mpr hulim), if_pos hstr]; rfl⟩

/-- A name whose length has been taken up to its colon. -/
theorem fnNamed_of_colon {info : EipDebuginfo} (hstr : stabstr.getLast? = some 0)
    (hname : info.eipFnName.InTable stabstr)
    (hcolon : info.eipFnName.colon stabstr = .ok info.eipFnNamelen) : FnNamed stabstr info := by
  obtain ⟨text, htext⟩ := hname.exists_denotes hstr
  rw [Name.colon_of_denotes htext] at hcolon
  exact ⟨text, htext, (Except.ok.inj hcolon).symm⟩

theorem initialInfo_fnNamed (stabstr : List Byte) (addr : BitVec 32) :
    FnNamed stabstr (initialInfo addr) := ⟨_, unknown_denotes stabstr, rfl⟩

/-! ## The name of the file -/

/-- The entry at `i` gives the name of a file, included or not. -/
def NamesFile (stabs : List Stab) (i : Int) : Prop :=
  ∃ e, stabAt stabs i = some e ∧
    ((e.nType.toNat : Int) = nSol ∨ (e.nType.toNat : Int) = nSo ∧ e.nValue ≠ 0)

theorem namesFile_iff {i : Int} {e : Stab} (h : stabAt stabs i = some e) :
    NamesFile stabs i ↔
      ¬ ((e.nType.toNat : Int) ≠ nSol ∧ ((e.nType.toNat : Int) ≠ nSo ∨ e.nValue = 0)) := by
  simp only [NamesFile, h, Option.some.injEq, exists_eq_left']
  tauto

/-- The scan stops at the last entry that names a file, or below its range. -/
theorem scanFile_ok {lfile lline m : Int} (h : scanFile stabs lfile lline = .ok m) :
    LastIn (NamesFile stabs) lfile lline m ∨ NoneIn (NamesFile stabs) lfile lline ∧ m < lfile := by
  unfold scanFile at h
  by_cases hle : lfile ≤ lline
  · rw [if_pos hle] at h
    obtain ⟨e, he, h⟩ := Result.bind_eq_ok.mp h
    rw [readStab_eq_ok] at he
    have hiff := namesFile_iff he
    split_ifs at h with hskip
    · have hnot : ¬ NamesFile stabs (lline - 1 + 1) := by
        rw [Int.sub_add_cancel, hiff]
        exact not_not_intro hskip
      have hstep := scanFile_ok h
      rw [← Int.sub_add_cancel lline 1]
      exact hstep.imp (fun hlast ↦ hlast.snoc hnot) (And.imp_left fun hnone ↦ hnone.snoc hnot)
    · cases h
      exact .inl (.self hle (hiff.mpr hskip))
  · rw [if_neg hle] at h
    cases h
    exact .inr ⟨.of_lt (by omega), by omega⟩
termination_by (lline - lfile + 1).toNat

/-- The name of a file in `[l, h]`: that of the last entry there for one, if its index is
in the table. -/
def FileNamed (stabs : List Stab) (stabstr : List Byte) (l h : Int) (name : Name) : Prop :=
  (∃ j e, LastIn (NamesFile stabs) l h j ∧ stabAt stabs j = some e ∧
      name = if e.nStrx.toNat < stabstr.length then .stabstr e.nStrx else .unknown) ∨
    NoneIn (NamesFile stabs) l h ∧ name = .unknown

theorem eipFile_ok {q : LineQuery} {lline : Int} {name : Name} (hinfo : q.info.eipFile = .unknown)
    (h : eipFile stabs stabstr q lline = .ok name) :
    FileNamed stabs stabstr q.lfile lline name := by
  obtain ⟨m, hm, h⟩ := Result.bind_eq_ok.mp h
  rw [hinfo] at h
  rcases scanFile_ok hm with hlast | ⟨hnone, hlt⟩
  · rw [if_pos hlast.ge] at h
    obtain ⟨e, he, h⟩ := Result.bind_eq_ok.mp h
    rw [readStab_eq_ok] at he
    cases h
    exact .inl ⟨m, e, hlast, he, rfl⟩
  · rw [if_neg (by omega)] at h
    cases h
    exact .inr ⟨hnone, rfl⟩

theorem FileNamed.exists_denotes {l h : Int} {name : Name}
    (hname : FileNamed stabs stabstr l h name)
    (hstr : stabstr.getLast? = some 0) : ∃ text, name.Denotes stabstr text := by
  rcases hname with ⟨j, e, -, -, rfl⟩ | ⟨-, rfl⟩
  · exact (inTable_of_check e.nStrx).exists_denotes hstr
  · exact ⟨_, unknown_denotes stabstr⟩

/-! ## All names -/

/-- The last search has returned `L`, in the file that starts at `lfile`. -/
def LineIn (stabs : List Stab) (stabstr : List Byte) (addr : BitVec 32) (lfile L : Int) : Prop :=
  ∃ rfile r, stabBinsearch stabs 0 ((stabs.length : Int) - 1) nSo addr = .ok (lfile, rfile) ∧
    LineFound stabs stabstr addr L r

/-- The names when `debuginfo_eip` returns. -/
theorem debuginfoEip_names_of_ok {ret : Int} {info : EipDebuginfo}
    (h : debuginfoEip stabs stabstr addr = .ok (ret, info)) :
    FnNamed stabstr info ∧ (ret = -1 ∧ info.eipFile = .unknown ∨
      ret = 0 ∧ stabstr.getLast? = some 0 ∧ ∃ lfile L, LineIn stabs stabstr addr lfile L ∧
        FileNamed stabs stabstr lfile L info.eipFile) := by
  obtain ⟨region, hregion, h⟩ := Result.bind_eq_ok.mp h
  obtain ⟨rfl, -⟩ | ⟨q, rfile, rfl, hstr, hfrom, hunknown, hname, hcolon⟩ := eipRegion_cases hregion
  · cases h
    exact ⟨initialInfo_fnNamed stabstr addr, .inl ⟨rfl, rfl⟩⟩
  have hfn := fnNamed_of_colon hstr hname hcolon
  obtain ⟨L, R, hs, ⟨rfl, rfl⟩ | ⟨rfl, -, e, file, narg, -, hfile, -, rfl⟩⟩ := eipLine_cases h
  · exact ⟨hfn, .inl ⟨rfl, hunknown⟩⟩
  · exact ⟨hfn, .inr ⟨rfl, hstr, q.lfile, L, ⟨rfile, q.rline, hfrom.file, q, R, hregion, hs, rfl⟩,
      eipFile_ok hunknown hfile⟩⟩

/-- Without the last address for a value, the searches do not leave the table. -/
theorem not_wrapsOff (hvalues : ∀ e ∈ stabs, e.nValue ≠ 0xFFFFFFFF) : ¬ WrapsOff stabs addr := by
  intro hw
  obtain ⟨e, he, -⟩ := hw.fn
  have hmem : e ∈ stabs := by
    rw [stabAt, if_pos (by decide)] at he
    exact List.mem_of_getElem? he
  have hvalue := hw.fnValue
  rw [valueAt_eq he] at hvalue
  refine hvalues e hmem (hvalue.trans ?_)
  have hlast := hw.last
  bv_omega

/-- **The names stay inside the string table.**  `debuginfo_eip` returns, without a read at
or past the end of the table; its names are the constant or strings of the table, with
their NULs; the length of the function's goes up to its first colon; and the file is that
of the nearest entry for one at or before the line found, and in the file found. -/
theorem debuginfoEip_names (hhead : ¬ HasType stabs nSo 0)
    (hvalues : ∀ e ∈ stabs, e.nValue ≠ 0xFFFFFFFF) (hulim : ulim ≤ addr) (stabstr : List Byte) :
    ∃ ret info, debuginfoEip stabs stabstr addr = .ok (ret, info) ∧ (ret = 0 ∨ ret = -1) ∧
      (∃ text, info.eipFile.Denotes stabstr text) ∧
      (∃ text, info.eipFnName.Denotes stabstr text ∧
        info.eipFnNamelen = ((beforeColon text).length : Int)) ∧
      (ret = 0 → ∃ lfile L, LineIn stabs stabstr addr lfile L ∧
        FileNamed stabs stabstr lfile L info.eipFile) := by
  have hoff : ¬ FallsOff stabs addr := fun h ↦ hhead h.1
  obtain ⟨⟨ret, info⟩, hres⟩ : ∃ result, debuginfoEip stabs stabstr addr = .ok result := by
    by_cases hstr : stabstr.getLast? = some 0
    · rcases debuginfoEip_cases hulim hstr with ⟨hout, -⟩ | ⟨-, -, hres⟩
      · exact absurd hout (not_or_intro hoff (not_wrapsOff hvalues))
      · exact hres
    · obtain ⟨info, hearly⟩ := eipRegion_rejected stabs hulim hstr
      exact ⟨(-1, info), by rw [debuginfoEip, hearly]; rfl⟩
  refine ⟨ret, info, hres, ?_⟩
  obtain ⟨hfn, ⟨rfl, hfile⟩ | ⟨rfl, hstr, lfile, L, hline, hnamed⟩⟩ :=
    debuginfoEip_names_of_ok hres
  · refine ⟨.inr rfl, ?_, hfn, fun h ↦ absurd h (by decide)⟩
    rw [hfile]
    exact ⟨_, unknown_denotes stabstr⟩
  · exact ⟨.inl rfl, hnamed.exists_denotes hstr, hfn, fun _ ↦ ⟨lfile, L, hline, hnamed⟩⟩

theorem twoLines_names :
    ∃ ret info, debuginfoEip twoLines oneFileStrings 0xf0100002 = .ok (ret, info) ∧
      (ret = 0 ∨ ret = -1) ∧ (∃ text, info.eipFile.Denotes oneFileStrings text) ∧
      (∃ text, info.eipFnName.Denotes oneFileStrings text ∧
        info.eipFnNamelen = ((beforeColon text).length : Int)) ∧
      (ret = 0 → ∃ lfile L, LineIn twoLines oneFileStrings 0xf0100002 lfile L ∧
        FileNamed twoLines oneFileStrings lfile L info.eipFile) :=
  debuginfoEip_names (by decide) (by decide) (by decide) oneFileStrings

end JosKernel.Kdebug
