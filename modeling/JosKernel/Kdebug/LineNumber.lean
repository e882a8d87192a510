import JosKernel.Kdebug.Settles

/-!
# The line number that `debuginfo_eip` reports

The last search of `debuginfo_eip` leaves in `lline` the line entry that contains the
address and in `rline` the end of its block, the last entry before the next line entry.
The code then reads the line number at `rline`.  That entry is in general of another type:
it is whatever the compiler put last before the next line entry.

In a table in order, `LineAt` says which two entries these are: those for the line that a
search settles on in the region for the function, in that for the file.  The number is
right exactly when the entry for the line is one, and the end of its block repeats its
`n_desc` (`debuginfoEip_line_iff`).
-/

namespace JosKernel.Kdebug

open JosKernel.Interval

variable {stabs : List Stab} {stabstr : List Byte} {addr : BitVec 32}

/-! ## Regions of the table -/

/-- Of the entries of the type in `[l, r]`, the one at `L` is taken for `x`, and its block
ends at `R`. -/
structure Region (stabs : List Stab) (type l r : Int) (x : BitVec 32) (L R : Int) : Prop where
  left : Settles (HasType stabs type) (valueAt stabs) x l r L
  right : BlockEnd (HasType stabs type) L r R

theorem Region.unique {type l r L R L' R' : Int} {x : BitVec 32}
    (h : Region stabs type l r x L R) (h' : Region stabs type l r x L' R') : L' = L ∧ R' = R := by
  obtain rfl := h.left.unique h'.left
  exact ⟨rfl, h'.right.unique h.right⟩

/-- The table's entries for the line of `addr`: the line is looked for by its offset in the
function, or by its address in the file if the file has no functions. -/
inductive LineAt (stabs : List Stab) (addr : BitVec 32) (L R : Int) : Prop
  | inFunction {lfile rfile lfun rfun : Int}
      (file : Region stabs nSo 0 ((stabs.length : Int) - 1) addr lfile rfile)
      (fn : Region stabs nFun lfile rfile addr lfun rfun)
      (line : Region stabs nSline lfun rfun (addr - valueAt stabs lfun) L R)
  | inFile {lfile rfile : Int}
      (file : Region stabs nSo 0 ((stabs.length : Int) - 1) addr lfile rfile)
      (fn : NoneIn (HasType stabs nFun) lfile rfile)
      (line : Region stabs nSline lfile rfile addr L R)

theorem LineAt.unique {L R L' R' : Int} (h : LineAt stabs addr L R) (h' : LineAt stabs addr L' R') :
    L' = L ∧ R' = R := by
  cases h with
  | inFunction file fn line =>
      cases h' with
      | inFunction file' fn' line' =>
          obtain ⟨rfl, rfl⟩ := file.unique file'
          obtain ⟨rfl, rfl⟩ := fn.unique fn'
          exact line.unique line'
      | inFile file' fn' =>
          obtain ⟨rfl, rfl⟩ := file.unique file'
          exact absurd fn' fn.left.not_noneIn
  | inFile file fn line =>
      cases h' with
      | inFunction file' fn' =>
          obtain ⟨rfl, rfl⟩ := file.unique file'
          exact absurd fn fn'.left.not_noneIn
      | inFile file' _ line' =>
          obtain ⟨rfl, rfl⟩ := file.unique file'
          exact line.unique line'

/-! ## The order of the entries in a region -/

theorem Increasing.sorted {type : Int}
    (h : Increasing (HasType stabs type) (valueAt stabs) 0 (stabs.length - 1)) (l r : Int) :
    Sorted (HasType stabs type) (valueAt stabs) l r := by
  intro i j _ hij _ hi hj
  rcases hij.eq_or_lt with rfl | hlt
  · exact BitVec.le_refl _
  · have := hi.lt_length
    have := hj.lt_length
    exact BitVec.le_of_lt (h i (by omega) (by omega) j hlt (by omega) hi hj)

/-- The lines after the start of a function, up to the next one. -/
theorem InOrder.lines_sorted (h : InOrder stabs) {l r : Int}
    (hno : NoneIn (HasType stabs nFun) (l + 1) r) :
    Sorted (HasType stabs nSline) (valueAt stabs) l r := by
  intro i j hli hij hjr hi hj
  rcases hij.eq_or_lt with rfl | hlt
  · exact BitVec.le_refl _
  have hbi := hi.lt_length
  have hbj := hj.lt_length
  have hno' : NoneIn (HasType stabs nFun) i j := by
    intro k hik hkj hk
    rcases hik.eq_or_lt with rfl | hlt'
    · exact absurd (hi.type_eq hk) (by decide)
    · exact hno k (by omega) (by omega) hk
  have hinc := h.lines i hbi.1 (by omega) j hij (by omega) hno'
  exact BitVec.le_of_lt (hinc i (le_refl i) hij j hlt (le_refl j) hi hj)

/-! ## The line number -/

/-- A region that is not crossed is that of an entry that a search settles on. -/
theorem region_of_search {type l r L R : Int} {x : BitVec 32} (hlr : l ≤ r + 1)
    (hsort : Sorted (HasType stabs type) (valueAt stabs) l r)
    (h : stabBinsearch stabs l r type x = .ok (L, R)) :
    NoneIn (HasType stabs type) l r ∧ L = l ∧ R = l - 1 ∨ Region stabs type l r x L R :=
  (stabBinsearch_settles hlr hsort h).imp_right fun hs ↦ ⟨hs.1, hs.2⟩

/-- The line search returns the table's entries for the line, unless it finds nothing. -/
theorem FromRegion.lineAt {rfile L R : Int} {q : LineQuery} (h : FromRegion stabs addr rfile q)
    (hord : InOrder stabs) (hs : stabBinsearch stabs q.lline q.rline nSline q.addr = .ok (L, R))
    (hLR : L ≤ R) : LineAt stabs addr L R := by
  obtain ⟨hfn, hline, -⟩ := h.bounds
  have hfile : Region stabs nSo 0 ((stabs.length : Int) - 1) addr q.lfile rfile := by
    rcases region_of_search (by omega) (hord.files.sorted _ _) h.file with ⟨-, hzero, -⟩ | hfile
    · exact absurd hzero h.lfile_ne
    · exact hfile
  rcases region_of_search hfn (hord.functions.sorted _ _) h.fn with ⟨hno, hl, hr⟩ | hregion
  · rcases h.line with ⟨hle, -⟩ | ⟨-, hlline, hrline, haddr⟩
    · omega
    rw [hlline, hrline, haddr] at hs
    have hafter : NoneIn (HasType stabs nFun) (q.lfile + 1) rfile :=
      hno.mono (by omega) (le_refl rfile)
    rcases region_of_search hfn (hord.lines_sorted hafter) hs with ⟨-, rfl, rfl⟩ | hline
    · omega
    · exact .inFile hfile hno hline
  · have hle : q.lfun ≤ q.rfun := hregion.right.ge
    rcases h.line with ⟨-, hlline, hrline, e, he, haddr⟩ | ⟨hlt, -⟩
    · rw [hlline, hrline, haddr, ← valueAt_eq he] at hs
      rcases region_of_search (by omega) (hord.lines_sorted hregion.right.none) hs with
        ⟨-, rfl, rfl⟩ | hline
      · omega
      · exact .inFunction hfile hregion hline
    · omega

/-- **The entry whose line is reported.**  `eip_line` is the `n_desc` of the entry at the
end of the block. -/
theorem debuginfoEip_line (hord : InOrder stabs) {info : EipDebuginfo}
    (h : debuginfoEip stabs stabstr addr = .ok (0, info)) :
    ∃ L R r e, LineFound stabs stabstr addr L r ∧ LineAt stabs addr L R ∧
      stabAt stabs R = some e ∧ info.eipLine = e.nDesc.toNat := by
  obtain ⟨region, hregion, h⟩ := Result.bind_eq_ok.mp h
  cases region with
  | inl info' => cases h
  | inr q =>
      obtain ⟨L, R, hs, ⟨hret, -⟩ | ⟨-, hLR, e, file, narg, he, -, -, rfl⟩⟩ := eipLine_cases h
      · cases hret
      obtain ⟨rfile, hfrom⟩ := eipRegion_query hregion
      exact ⟨L, R, q.rline, e, ⟨q, R, hregion, hs, rfl⟩, hfrom.lineAt hord hs hLR, he, rfl⟩

/-- `debuginfo_eip` reports the line of the line entry that its last search returned. -/
def LineMeets (stabs : List Stab) (stabstr : List Byte) (addr : BitVec 32) (info : EipDebuginfo) :
    Prop :=
  ∃ L r e, LineFound stabs stabstr addr L r ∧ stabAt stabs L = some e ∧
    (e.nType.toNat : Int) = nSline ∧ info.eipLine = e.nDesc.toNat

/-- The table's entry for the line of `addr` is a line entry, and the entry at the end of
its block has the same `n_desc`. -/
def LineRepeated (stabs : List Stab) (addr : BitVec 32) : Prop :=
  ∃ L R e e', LineAt stabs addr L R ∧ stabAt stabs L = some e ∧
    (e.nType.toNat : Int) = nSline ∧ stabAt stabs R = some e' ∧ e'.nDesc = e.nDesc

theorem LineFound.unique {L r L' r' : Int} (h : LineFound stabs stabstr addr L r)
    (h' : LineFound stabs stabstr addr L' r') : L' = L := by
  obtain ⟨q, R, hq, hs, -⟩ := h
  obtain ⟨q', R', hq', hs', -⟩ := h'
  obtain rfl := Sum.inr.inj (Except.ok.inj (hq.symm.trans hq'))
  exact (Prod.mk.inj (Except.ok.inj (hs'.symm.trans hs))).1

/-- **The line number.**  For a table in order, whenever `debuginfo_eip` returns 0 it
reports the line of the line entry that its last search returned exactly when the table
repeats the `n_desc` of the entry for the line at the end of its block. -/
theorem debuginfoEip_line_iff (hord : InOrder stabs) {info : EipDebuginfo}
    (h : debuginfoEip stabs stabstr addr = .ok (0, info)) :
    LineMeets stabs stabstr addr info ↔ LineRepeated stabs addr := by
  obtain ⟨L, R, r, e', hfound, hat, he', hline⟩ := debuginfoEip_line hord h
  constructor
  · rintro ⟨L', r', e, hfound', he, ht, hdesc⟩
    obtain rfl := hfound'.unique hfound
    refine ⟨L, R, e, e', hat, he, ht, he', BitVec.eq_of_toNat_eq ?_⟩
    rw [hline] at hdesc
    exact_mod_cast hdesc
  · rintro ⟨L', R', e, e'', hat', he, ht, he'', hdesc⟩
    obtain ⟨rfl, rfl⟩ := hat.unique hat'
    rw [he', Option.some.injEq] at he''
    exact ⟨L', r, e, hfound, he, ht, by rw [hline, he'', hdesc]⟩

theorem twoLines_line_iff :
    LineMeets twoLines oneFileStrings 0xf0100002
        ⟨.stabstr 1, 10, .stabstr 5, 1, 0xf0100000, 0⟩ ↔
      LineRepeated twoLines 0xf0100002 :=
  debuginfoEip_line_iff ⟨by decide, by decide, by decide, by decide⟩ (by decide +kernel)

/-- The line of `0xf0100004` is 11, and `debuginfo_eip` reports the 0 of the
`N_RBRAC`. -/
theorem twoLinesScope_not_line :
    InOrder twoLinesScope ∧
      debuginfoEip twoLinesScope oneFileStrings 0xf0100004 =
        .ok (0, ⟨.stabstr 1, 0, .stabstr 5, 1, 0xf0100000, 0⟩) ∧
      LineFound twoLinesScope oneFileStrings 0xf0100004 4 6 ∧
      stabAt twoLinesScope 4 = some ⟨0, 0x44, 11, 4⟩ ∧
      ¬ LineMeets twoLinesScope oneFileStrings 0xf0100004
        ⟨.stabstr 1, 0, .stabstr 5, 1, 0xf0100000, 0⟩ := by
  have hfound : LineFound twoLinesScope oneFileStrings 0xf0100004 4 6 :=
    ⟨⟨⟨.unknown, 0, .stabstr 5, 1, 0xf0100000, 0⟩, 4, 1, 2, 6, 2, 6⟩, 6, by decide +kernel,
      by decide +kernel, rfl⟩
  have he : stabAt twoLinesScope 4 = some ⟨0, 0x44, 11, 4⟩ := by decide
  refine ⟨⟨by decide, by decide, by decide, by decide⟩, by decide +kernel, hfound, he, ?_⟩
  rintro ⟨L, r, e, hfound', he', -, hline⟩
  obtain rfl := hfound.unique hfound'
  obtain rfl := Option.some.inj (he.symm.trans he')
  exact absurd hline (by decide)

end JosKernel.Kdebug
