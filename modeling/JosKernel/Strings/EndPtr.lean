import JosKernel.Strings.Strtol
import Mathlib.Data.List.TakeWhile

/-!
# The end pointer of `strtol`

What `strtol` returns and where it leaves `*endptr`, against the contract that the C
library gives it.  The code counts the blanks, the sign and the prefix `0x` as read
before it has seen a digit, and does not take that back when there is none.
-/

namespace JosKernel.Strings

open Printf (wrap32 wrap32_neg wrap32_mul_add)

variable {base : Int} {s t : List Byte}

/-! ## The contract -/

/-- A digit that is valid in the base. -/
def isDigit (base : Int) (b : Byte) : Bool :=
  match digitValue b with
  | none => false
  | some d => d < base

/-- The value of some digits, after the ones that gave `val`. -/
def digitsValue (base : Int) (run : List Byte) (val : Int) : Int :=
  run.foldl (fun val b ↦ val * base + (digitValue b).getD 0) val

/-- A plus or a minus. -/
def isSign (b : Byte) : Bool := b = ascii '+' ∨ b = ascii '-'

/-- The string after its blanks and its sign. -/
def afterSign (s : List Byte) : List Byte :=
  match s.dropWhile isBlank with
  | [] => []
  | b :: t => if isSign b then t else b :: t

/-- Whether the number has a minus. -/
def isNegative (s : List Byte) : Bool := (s.dropWhile isBlank).head? = some (ascii '-')

/-- The string starts with `0x` and a hexadecimal digit. -/
def hexNumber : List Byte → Bool
  | b :: b' :: d :: _ => b = ascii '0' ∧ b' = ascii 'x' ∧ isDigit 16 d
  | _ => false

/-- The string starts with `0x`, and no hexadecimal digit follows. -/
def bareMark : List Byte → Bool
  | b :: b' :: t => b = ascii '0' ∧ b' = ascii 'x' ∧ ¬ t.head?.any (isDigit 16)
  | _ => false

/-- The base of a number, and where its digits start. -/
def contractBase (base : Int) (t : List Byte) : Int × List Byte :=
  if (base = 0 ∨ base = 16) ∧ hexNumber t then (16, t.drop 2)
  else if base = 0 then (if t.head? = some (ascii '0') then 8 else 10, t)
  else (base, t)

/-- The signed value of the run of digits, and the string after the run. -/
def readRun (neg : Bool) (base : Int) (t : List Byte) : Int × List Byte :=
  let val := digitsValue base (t.takeWhile (isDigit base)) 0
  (wrap32 (if neg then -val else val), t.dropWhile (isDigit base))

/-- The contract: the result, and the string at `*endptr`. -/
def contract (s : List Byte) (base : Int) : Int × List Byte :=
  let start := contractBase base (afterSign s)
  if start.2.takeWhile (isDigit start.1) = [] then (0, s)
  else readRun (isNegative s) start.1 start.2

/-! ## The digits -/

theorem not_isDigit_zero (base : Int) : isDigit base 0 = false := by
  have hnul : digitValue 0 = none := by decide
  rw [isDigit, hnul]

theorem strtolDigits_of_not_isDigit {b : Byte} (hdigit : isDigit base b = false) (val : Int) :
    strtolDigits base (b :: t) val = some (val, b :: t) := by
  rw [isDigit] at hdigit
  rw [strtolDigits]
  cases hval : digitValue b with
  | none => rfl
  | some d =>
      rw [hval] at hdigit
      exact if_pos (Int.not_lt.mp (of_decide_eq_false hdigit))

theorem strtolDigits_of_isDigit {b : Byte} (hdigit : isDigit base b = true) (val : Int) :
    strtolDigits base (b :: t) val =
      strtolDigits base t (wrap32 (val * base + (digitValue b).getD 0)) := by
  rw [isDigit] at hdigit
  rw [strtolDigits]
  cases hval : digitValue b with
  | none =>
      rw [hval] at hdigit
      cases hdigit
  | some d =>
      rw [hval] at hdigit
      exact if_neg (Int.not_le.mpr (of_decide_eq_true hdigit))

/-- **The loop over the digits** reads all that are valid in the base, and wraps. -/
theorem strtolDigits_eq (ht : 0 ∈ t) (val : Int) :
    strtolDigits base t (wrap32 val) =
      some (wrap32 (digitsValue base (t.takeWhile (isDigit base)) val),
        t.dropWhile (isDigit base)) := by
  induction t generalizing val with
  | nil => cases ht
  | cons b t ih =>
      cases hdigit : isDigit base b with
      | false =>
          rw [strtolDigits_of_not_isDigit hdigit, List.takeWhile_cons_of_neg (by simp [hdigit]),
            List.dropWhile_cons_of_neg (by simp [hdigit])]
          rfl
      | true =>
          have hne : b ≠ 0 := by
            rintro rfl
            rw [not_isDigit_zero] at hdigit
            cases hdigit
          have hmem : 0 ∈ t := (List.mem_cons.mp ht).resolve_left (Ne.symm hne)
          rw [strtolDigits_of_isDigit hdigit, wrap32_mul_add, ih hmem,
            List.takeWhile_cons_of_pos hdigit, List.dropWhile_cons_of_pos hdigit, digitsValue,
            digitsValue, List.foldl_cons]

/-- Where the loop starts. -/
theorem strtolDigits_start (ht : 0 ∈ t) :
    strtolDigits base t 0 =
      some (wrap32 (digitsValue base (t.takeWhile (isDigit base)) 0), t.dropWhile (isDigit base)) :=
  strtolDigits_eq ht 0

/-! ## The base -/

/-- A string does not end at a character other than NUL. -/
theorem zero_mem_of_cons {b : Byte} (hb : b ≠ 0) (ht : 0 ∈ b :: t) : 0 ∈ t :=
  (List.mem_cons.mp ht).resolve_left hb.symm

theorem exists_cons_of_zero_mem (ht : 0 ∈ t) : ∃ b t', t = b :: t' := by
  cases t with
  | nil => cases ht
  | cons b t => exact ⟨b, t, rfl⟩

/-- The string at which the digits are read: the prefix is the contract's, or it is the
zero of an octal number, which the contract takes for a digit. -/
theorem strtolBase_eq (ht : 0 ∈ t) (hmark : ¬ ((base = 0 ∨ base = 16) ∧ bareMark t)) :
    ∃ t', strtolBase base t = some ((contractBase base t).1, t') ∧ 0 ∈ t' ∧
      (t' = (contractBase base t).2 ∨
        (contractBase base t).1 = 8 ∧ (contractBase base t).2 = ascii '0' :: t') := by
  by_cases hbase : base = 0 ∨ base = 16
  swap
  · refine ⟨t, ?_, ht, .inl ?_⟩ <;> simp [strtolBase, contractBase, not_or.mp hbase]
  rw [and_iff_right hbase] at hmark
  obtain ⟨b, t, rfl⟩ := exists_cons_of_zero_mem ht
  by_cases hb : b = ascii '0'
  swap
  · have hhex : hexNumber (b :: t) = false := by
      rcases t with _ | ⟨b', _ | ⟨d, t⟩⟩ <;> simp [hexNumber, hb]
    refine ⟨b :: t, ?_, ht, .inl ?_⟩ <;> rcases hbase with rfl | rfl <;>
      simp [strtolBase, contractBase, hhex, hb]
  subst hb
  have ht' : 0 ∈ t := zero_mem_of_cons (by decide) ht
  obtain ⟨b', t, rfl⟩ := exists_cons_of_zero_mem ht'
  by_cases hb' : b' = ascii 'x'
  · subst hb'
    have ht'' : 0 ∈ t := zero_mem_of_cons (by decide) ht'
    obtain ⟨d, t, rfl⟩ := exists_cons_of_zero_mem ht''
    have hdigit : isDigit 16 d = true := by simpa [bareMark] using hmark
    have hhex : hexNumber (ascii '0' :: ascii 'x' :: d :: t) = true := by simp [hexNumber, hdigit]
    refine ⟨d :: t, ?_, ht'', .inl ?_⟩ <;> simp [strtolBase, contractBase, hhex, hbase]
  · have hhex : hexNumber (ascii '0' :: b' :: t) = false := by
      rcases t with _ | ⟨d, t⟩ <;> simp [hexNumber, hb']
    rcases hbase with rfl | rfl
    · refine ⟨b' :: t, ?_, ht', .inr ⟨?_, ?_⟩⟩ <;> simp [strtolBase, contractBase, hhex, hb']
    · refine ⟨ascii '0' :: b' :: t, ?_, ht, .inl ?_⟩ <;> simp [strtolBase, contractBase, hhex, hb']

/-- The string starts with a digit: a decimal one, when the base is to be guessed. -/
def startsWithDigit (base : Int) (t : List Byte) : Bool :=
  t.head?.any (isDigit (if base = 0 then 10 else base))

theorem takeWhile_eq_nil_iff {p : Byte → Bool} : t.takeWhile p = [] ↔ t.head?.any p = false := by
  cases t with
  | nil => simp
  | cons b t => by_cases hb : p b <;> simp [hb]

theorem isDigit_zero_char (hbase : 2 ≤ base) : isDigit base (ascii '0') = true := by
  have hval : digitValue (ascii '0') = some 0 := by decide
  rw [isDigit, hval]
  exact decide_eq_true (by omega)

theorem exists_of_hexNumber (h : hexNumber t = true) :
    ∃ d rest, t = ascii '0' :: ascii 'x' :: d :: rest ∧ isDigit 16 d = true := by
  rcases t with _ | ⟨b, _ | ⟨b', _ | ⟨d, rest⟩⟩⟩
  · cases h
  · cases h
  · cases h
  · obtain ⟨rfl, rfl, hd⟩ : b = ascii '0' ∧ b' = ascii 'x' ∧ isDigit 16 d = true := by
      simpa [hexNumber] using h
    exact ⟨d, rest, rfl, hd⟩

/-- There is a run of digits when the string starts with one, prefix or not. -/
theorem run_eq_nil_iff (hbase : base = 0 ∨ 2 ≤ base) :
    (contractBase base t).2.takeWhile (isDigit (contractBase base t).1) = [] ↔
      startsWithDigit base t = false := by
  have hstart : 2 ≤ if base = 0 then 10 else base := by split_ifs <;> omega
  rw [takeWhile_eq_nil_iff, startsWithDigit, contractBase]
  by_cases hhex : (base = 0 ∨ base = 16) ∧ hexNumber t = true
  · obtain ⟨d, rest, rfl, hd⟩ := exists_of_hexNumber hhex.2
    rw [if_pos hhex]
    simp [hd, isDigit_zero_char hstart]
  rw [if_neg hhex]
  by_cases hzero : base = 0
  · rw [if_pos hzero, if_pos hzero]
    by_cases hoctal : t.head? = some (ascii '0')
    · simp [hoctal, isDigit_zero_char]
    · simp [hoctal]
  · rw [if_neg hzero, if_neg hzero]

/-! ## What `strtol` returns -/

theorem zero_mem_dropWhile (hs : 0 ∈ s) : 0 ∈ s.dropWhile isBlank := by
  rw [← s.takeWhile_append_dropWhile (p := isBlank), List.mem_append] at hs
  refine hs.resolve_left fun h ↦ ?_
  exact absurd (List.mem_takeWhile_imp h) (by decide)

theorem zero_mem_afterSign (hs : 0 ∈ s) : 0 ∈ afterSign s := by
  have hmem := zero_mem_dropWhile hs
  rw [afterSign]
  obtain ⟨b, t, hdrop⟩ := exists_cons_of_zero_mem hmem
  rw [hdrop] at hmem ⊢
  by_cases hsign : isSign b
  · have hne : b ≠ 0 := by
      rintro rfl
      exact absurd hsign (by decide)
    simpa [hsign] using zero_mem_of_cons hne hmem
  · simpa [hsign] using hmem

/-- The steps of `strtol`. -/
theorem strtol_steps (hs : 0 ∈ s) {b val : Int} {t rest : List Byte}
    (hbase : strtolBase base (afterSign s) = some (b, t))
    (hdigits : strtolDigits b t 0 = some (val, rest)) :
    strtol s base = some (if isNegative s then wrap32 (-val) else val, rest) := by
  obtain ⟨c, u, hdrop⟩ := exists_cons_of_zero_mem (zero_mem_dropWhile hs)
  have hafter : afterSign s = if c = ascii '+' ∨ c = ascii '-' then u else c :: u := by
    simp [afterSign, hdrop, isSign]
  rw [strtol_of_steps hdrop hafter.symm hbase hdigits, isNegative, hdrop]
  simp

/-- Without digits there is no value, and no prefix either. -/
theorem readRun_of_nil {neg : Bool} (h : t.takeWhile (isDigit base) = []) :
    readRun neg base t = (0, t) := by
  have hdrop : t.dropWhile (isDigit base) = t := by
    simpa [h] using t.takeWhile_append_dropWhile (p := isDigit base)
  rw [readRun, h, hdrop]
  cases neg <;> rfl

theorem contractBase_of_nil
    (h : (contractBase base t).2.takeWhile (isDigit (contractBase base t).1) = []) :
    (contractBase base t).2 = t := by
  rw [contractBase] at h ⊢
  by_cases hhex : (base = 0 ∨ base = 16) ∧ hexNumber t = true
  · obtain ⟨d, rest, rfl, hd⟩ := exists_of_hexNumber hhex.2
    rw [if_pos hhex] at h
    simp [hd] at h
  · rw [if_neg hhex]
    split_ifs <;> rfl

/-- Unless it takes a bare `0x` for a prefix, `strtol` reads the contract's run. -/
theorem strtol_run (hs : 0 ∈ s) (hmark : ¬ ((base = 0 ∨ base = 16) ∧ bareMark (afterSign s))) :
    strtol s base = some (readRun (isNegative s) (contractBase base (afterSign s)).1
      (contractBase base (afterSign s)).2) := by
  obtain ⟨t', hbase, hmem, ht'⟩ := strtolBase_eq (zero_mem_afterSign hs) hmark
  have hread := strtol_steps hs hbase (strtolDigits_start hmem)
  generalize contractBase base (afterSign s) = p at hread ht' ⊢
  obtain ⟨b, t⟩ := p
  dsimp only at hread ht' ⊢
  have hsame : readRun (isNegative s) b t' = readRun (isNegative s) b t := by
    rcases ht' with rfl | ⟨rfl, rfl⟩
    · rfl
    -- the octal zero adds nothing
    · have hzero : isDigit 8 (ascii '0') = true := isDigit_zero_char (by decide)
      rw [readRun, readRun, List.takeWhile_cons_of_pos hzero, List.dropWhile_cons_of_pos hzero]
      rfl
  rw [hread, ← hsame, readRun, wrap32_neg]
  split_ifs <;> rfl

theorem exists_of_bareMark (h : bareMark t = true) :
    ∃ rest, t = ascii '0' :: ascii 'x' :: rest ∧ rest.head?.any (isDigit 16) = false := by
  rcases t with _ | ⟨b, _ | ⟨b', rest⟩⟩
  · cases h
  · cases h
  · obtain ⟨rfl, rfl, hrest⟩ :
        b = ascii '0' ∧ b' = ascii 'x' ∧ rest.head?.any (isDigit 16) = false := by
      simpa [bareMark] using h
    exact ⟨rest, rfl, hrest⟩

/-- A bare `0x` is read as a number without digits. -/
theorem strtol_bareMark (hs : 0 ∈ s) (hbase : base = 0 ∨ base = 16)
    (hmark : bareMark (afterSign s) = true) : strtol s base = some (0, (afterSign s).drop 2) := by
  have hmem := zero_mem_afterSign hs
  obtain ⟨rest, ht, hrest⟩ := exists_of_bareMark hmark
  rw [ht] at hmem ⊢
  have hrest' : 0 ∈ rest := zero_mem_of_cons (by decide) (zero_mem_of_cons (by decide) hmem)
  have hmarked : strtolBase base (afterSign s) = some (16, rest) := by simp [strtolBase, hbase, ht]
  have hread := strtol_steps hs hmarked (strtolDigits_start hrest')
  have hnil := takeWhile_eq_nil_iff.mpr hrest
  have hrun : readRun false 16 rest = (0, rest) := readRun_of_nil hnil
  rw [hread, hnil, (Prod.mk.inj hrun).2]
  split_ifs <;> rfl

/-- The contract reads the zero of a bare `0x`. -/
theorem contract_bareMark (hbase : base = 0 ∨ base = 16) (hmark : bareMark (afterSign s) = true) :
    (contract s base).2 = (afterSign s).drop 1 := by
  obtain ⟨rest, ht, hrest⟩ := exists_of_bareMark hmark
  have hhex : hexNumber (afterSign s) = false := by
    rw [ht]
    rcases rest with _ | ⟨d, rest⟩
    · rfl
    · simpa [hexNumber] using hrest
  have hx : isDigit 8 (ascii 'x') = false ∧ isDigit 16 (ascii 'x') = false := by decide
  have hrun : ∀ b, 2 ≤ b → isDigit b (ascii 'x') = false →
      contractBase base (afterSign s) = (b, afterSign s) →
        (contract s base).2 = (afterSign s).drop 1 := by
    intro b hb hxb hbase
    simp only [contract, hbase]
    simp [ht, readRun, isDigit_zero_char hb, hxb]
  rcases hbase with rfl | rfl
  · have hhead : (afterSign s).head? = some (ascii '0') := congrArg List.head? ht
    exact hrun 8 (by decide) hx.1 (by simp [contractBase, hhex, hhead])
  · exact hrun 16 (by decide) hx.2 (by simp [contractBase, hhex])

/-! ## Against the contract -/

/-- The string starts with a blank or a sign. -/
def startsBlankOrSign (s : List Byte) : Bool := s.head?.any fun b ↦ isBlank b || isSign b

theorem length_afterSign_le (s : List Byte) :
    (afterSign s).length ≤ (s.dropWhile isBlank).length := by
  rw [afterSign]
  split
  next h => rw [h]
  next b t h =>
    rw [h]
    split_ifs
    · exact Nat.le_succ _
    · exact Nat.le_refl _

theorem afterSign_eq_self_iff : afterSign s = s ↔ startsBlankOrSign s = false := by
  rcases s with _ | ⟨b, t⟩
  · exact ⟨fun _ ↦ rfl, fun _ ↦ rfl⟩
  have hlen := length_afterSign_le (b :: t)
  cases hblank : isBlank b with
  | true =>
      have hle := (t.dropWhile_suffix isBlank).length_le
      rw [List.dropWhile_cons_of_pos hblank] at hlen
      refine ⟨fun h ↦ ?_, fun h ↦ ?_⟩
      · rw [h, List.length_cons] at hlen
        omega
      · simp [startsBlankOrSign, hblank] at h
  | false =>
      cases hsign : isSign b <;> simp [afterSign, startsBlankOrSign, hblank, hsign]

/-- Where `strtol` keeps the contract: it has no bare `0x` to take for a prefix, and it
reads a digit, or nothing comes before the place for one. -/
def KeepsContract (s : List Byte) (base : Int) : Prop :=
  ¬ ((base = 0 ∨ base = 16) ∧ bareMark (afterSign s)) ∧
    (startsWithDigit base (afterSign s) ∨ ¬ startsBlankOrSign s)

/-- **The end pointer of `strtol`.**  The result and `*endptr` are the contract's exactly
when the string keeps the contract. -/
theorem strtol_eq_contract_iff (hs : 0 ∈ s) (hbase : base = 0 ∨ 2 ≤ base ∧ base ≤ 36) :
    strtol s base = some (contract s base) ↔ KeepsContract s base := by
  by_cases hmark : (base = 0 ∨ base = 16) ∧ bareMark (afterSign s) = true
  · obtain ⟨rest, ht, -⟩ := exists_of_bareMark hmark.2
    refine ⟨fun h ↦ ?_, fun h ↦ absurd hmark h.1⟩
    rw [strtol_bareMark hs hmark.1 hmark.2] at h
    have hend := congrArg (List.length ∘ Prod.snd) (Option.some.inj h)
    simp [contract_bareMark hmark.1 hmark.2, ht] at hend
  have hnil := run_eq_nil_iff (t := afterSign s) (hbase.imp_right And.left)
  have hread := strtol_run hs hmark
  rw [KeepsContract, and_iff_right hmark, hread, Option.some_inj, contract]
  cases hstart : startsWithDigit base (afterSign s) with
  | true =>
      have hrun := mt hnil.mp (by rw [hstart]; exact Bool.noConfusion)
      exact iff_of_true (if_neg hrun).symm (.inl rfl)
  | false =>
      have hrun := hnil.mpr hstart
      rw [if_pos hrun, readRun_of_nil hrun, contractBase_of_nil hrun, Prod.mk.injEq,
        and_iff_right rfl, afterSign_eq_self_iff, ← Bool.not_eq_true]
      exact (or_iff_right Bool.false_ne_true).symm

/-- A number with blanks, a sign, a prefix and something after it. -/
def hexNegative : List Byte := asciis " \t-0x1fz".toList ++ [0]

theorem hexNegative_strtol : strtol hexNegative 0 = some (contract hexNegative 0) :=
  (strtol_eq_contract_iff (by decide) (.inl rfl)).mpr ⟨by decide, .inl (by decide)⟩

/-- A minus and no number. -/
def loneMinus : List Byte := [ascii '-', 0]

theorem loneMinus_strtol :
    ¬ ∀ (s : List Byte) (base : Int), 0 ∈ s → (base = 0 ∨ 2 ≤ base ∧ base ≤ 36) →
      strtol s base = some (contract s base) := by
  intro h
  have hread := h loneMinus 10 (by decide) (by decide)
  exact absurd hread (by decide)

end JosKernel.Strings
