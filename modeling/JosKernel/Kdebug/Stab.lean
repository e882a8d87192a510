import JosKernel.Lib.Interval
import JosKernel.Lib.Result

/-!
# The stabs table and `stab_binsearch`

`kern/kdebug.c` finds the file, the function and the line of an instruction
address by searching the kernel's STABS table.  This file embeds the table
(`inc/stab.h`) and `stab_binsearch`.

## The model

* A table is the list of its entries; `n_other`, which nothing reads, is left
  out.  `stabs[i]` with `i` outside the table is a `Fault`, so a search that
  returns has read nothing outside it.
* `int` indices are integers.  The table lies in a 32-bit address space and an
  entry takes twelve bytes, so `l + r` never overflows.  `(l + r) / 2` is C's
  division, which truncates towards zero.
* Addresses are 32-bit words, and `addr++` wraps.
* `*region_left` and `*region_right` are part of the state of the search.
-/

namespace JosKernel.Kdebug

open JosKernel.Interval

/-! ## The table -/

/-- `struct stab`. -/
structure Stab where
  /-- Index into the string table of the name. -/
  nStrx : BitVec 32
  /-- Type of symbol. -/
  nType : BitVec 8
  /-- Description field. -/
  nDesc : BitVec 16
  /-- Value of symbol. -/
  nValue : BitVec 32
deriving DecidableEq, Repr

/-- Procedure name. -/
def nFun : Int := 0x24

/-- Text segment line number. -/
def nSline : Int := 0x44

/-- Main source file name. -/
def nSo : Int := 0x64

/-- Included source file name. -/
def nSol : Int := 0x84

/-- Parameter variable. -/
def nPsym : Int := 0xa0

/-- What the code must not do, and the `panic` it may run into. -/
inductive Fault where
  /-- `stabs[i]` with `i` outside the table. -/
  | stab (i : Int)
  /-- A read of the string table at or past its end. -/
  | str (i : Nat)
  /-- `panic("User address")`. -/
  | userAddress
deriving DecidableEq, Repr

/-- The entry at index `i`, if the table has one. -/
def stabAt (stabs : List Stab) (i : Int) : Option Stab :=
  if 0 ≤ i then stabs[i.toNat]? else none

/-- The read `stabs[i]`. -/
def readStab (stabs : List Stab) (i : Int) : Except Fault Stab :=
  match stabAt stabs i with
  | some e => .ok e
  | none => .error (.stab i)

/-- The entry at `i` has type `type`. -/
def HasType (stabs : List Stab) (type i : Int) : Prop :=
  ∃ e, stabAt stabs i = some e ∧ (e.nType.toNat : Int) = type

/-- The `n_value` of the entry at `i`. -/
def valueAt (stabs : List Stab) (i : Int) : BitVec 32 :=
  ((stabAt stabs i).map Stab.nValue).getD 0

theorem stabAt_isSome {stabs : List Stab} {i : Int} (h0 : 0 ≤ i) (hn : i < stabs.length) :
    ∃ e, stabAt stabs i = some e := by
  have hlt : i.toNat < stabs.length := by omega
  exact ⟨stabs[i.toNat], by simp [stabAt, h0, hlt]⟩

theorem stabAt_lt {stabs : List Stab} {i : Int} {e : Stab} (h : stabAt stabs i = some e) :
    0 ≤ i ∧ i < stabs.length := by
  unfold stabAt at h
  split at h
  · obtain ⟨hlt, -⟩ := List.getElem?_eq_some_iff.mp h
    omega
  · cases h

theorem readStab_of_stabAt {stabs : List Stab} {i : Int} {e : Stab}
    (h : stabAt stabs i = some e) : readStab stabs i = .ok e := by
  simp [readStab, h]

theorem readStab_eq_ok {stabs : List Stab} {i : Int} {e : Stab} :
    readStab stabs i = .ok e ↔ stabAt stabs i = some e := by
  unfold readStab
  cases stabAt stabs i <;> simp

theorem readStab_of_not_mem {stabs : List Stab} {i : Int} (h : i < 0 ∨ stabs.length ≤ i) :
    readStab stabs i = .error (.stab i) := by
  cases hi : stabAt stabs i with
  | none => simp [readStab, hi]
  | some e => have := stabAt_lt hi; omega

theorem hasType_iff {stabs : List Stab} {type i : Int} {e : Stab} (h : stabAt stabs i = some e) :
    HasType stabs type i ↔ (e.nType.toNat : Int) = type := by
  simp [HasType, h]

instance (stabs : List Stab) (type : Int) : DecidablePred (HasType stabs type) := fun i ↦
  match h : stabAt stabs i with
  | some _ => decidable_of_iff _ (hasType_iff h).symm
  | none => .isFalse (by simp [HasType, h])

theorem valueAt_eq {stabs : List Stab} {i : Int} {e : Stab} (h : stabAt stabs i = some e) :
    valueAt stabs i = e.nValue := by
  simp [valueAt, h]

/-- Two types never meet at one entry. -/
theorem HasType.type_eq {stabs : List Stab} {t t' i : Int} (h : HasType stabs t i)
    (h' : HasType stabs t' i) : t = t' := by
  obtain ⟨e, he, rfl⟩ := h
  exact (hasType_iff he).mp h'

theorem HasType.lt_length {stabs : List Stab} {t i : Int} (h : HasType stabs t i) :
    0 ≤ i ∧ i < stabs.length := by
  obtain ⟨e, he, -⟩ := h
  exact stabAt_lt he

/-! ## The backward scan

Both loops of `stab_binsearch` over single entries are this one. -/

/-- `while (m >= l && stabs[m].n_type != type) m--;`, returning `m`. -/
def scanType (stabs : List Stab) (type l m : Int) : Except Fault Int :=
  if l ≤ m then do
    let e ← readStab stabs m
    if (e.nType.toNat : Int) ≠ type then scanType stabs type l (m - 1) else pure m
  else pure m
termination_by (m - l + 1).toNat

/-- The scan returns the last entry of the type, or the index below the interval
when there is none. -/
theorem scanType_ok {stabs : List Stab} {type l h m : Int} (hs : scanType stabs type l h = .ok m) :
    LastIn (HasType stabs type) l h m ∨ NoneIn (HasType stabs type) l h ∧ m = min h (l - 1) := by
  unfold scanType at hs
  by_cases hlh : l ≤ h
  · simp only [hlh, if_true] at hs
    obtain ⟨e, he, hs⟩ := Result.bind_eq_ok.mp hs
    rw [readStab_eq_ok] at he
    by_cases ht : (e.nType.toNat : Int) = type
    · simp only [ht, ne_eq, not_true_eq_false, if_false, Result.pure_eq_ok, Except.ok.injEq] at hs
      subst hs
      exact .inl (.self hlh ((hasType_iff he).mpr ht))
    · have hp : ¬ HasType stabs type (h - 1 + 1) := by simpa using mt (hasType_iff he).mp ht
      simp only [ht, ne_eq, not_false_eq_true, if_true] at hs
      rcases scanType_ok hs with hm | ⟨hno, hm⟩
      · exact .inl (by simpa using hm.snoc hp)
      · exact .inr ⟨by simpa using hno.snoc hp, by omega⟩
  · simp only [hlh, if_false, Result.pure_eq_ok, Except.ok.injEq] at hs
    exact .inr ⟨.of_lt (by omega), by omega⟩
termination_by (h - l + 1).toNat

/-- Inside the table the scan returns. -/
theorem scanType_total {stabs : List Stab} {type l h : Int} (h0 : 0 ≤ l)
    (hn : h < stabs.length) : ∃ m, scanType stabs type l h = .ok m := by
  unfold scanType
  by_cases hlh : l ≤ h
  · obtain ⟨e, he⟩ := stabAt_isSome (by omega : 0 ≤ h) hn
    obtain ⟨m, hm⟩ : ∃ m, scanType stabs type l (h - 1) = .ok m := scanType_total h0 (by omega)
    by_cases ht : (e.nType.toNat : Int) = type
    · exact ⟨h, by simp [hlh, readStab_of_stabAt he, ht]⟩
    · exact ⟨m, by simp [hlh, readStab_of_stabAt he, ht, hm]⟩
  · exact ⟨h, by simp [hlh]⟩
termination_by (h - l + 1).toNat

end JosKernel.Kdebug
