import Mathlib.Data.Int.Range
import Mathlib.Tactic.Common

/-!
# The last index of an integer interval that satisfies a predicate

Loops of the form `while (m >= l && !p(m)) m--;` leave in `m` either the last
index of the interval at which `p` holds or an index below the interval.  The
two outcomes are `LastIn` and `NoneIn`; they exclude one another and one of them
always holds.

Intervals are closed and are given by their end points, so `[l, h]` is empty
when `h < l`.
-/

namespace JosKernel.Interval

variable {P Q : Int → Prop} {l l' h h' m m' : Int}

/-- `P` holds nowhere in `[l, h]`. -/
def NoneIn (P : Int → Prop) (l h : Int) : Prop := ∀ i, l ≤ i → i ≤ h → ¬ P i

/-- `m` is the last index of `[l, h]` at which `P` holds. -/
structure LastIn (P : Int → Prop) (l h m : Int) : Prop where
  /-- `m` is in the interval. -/
  ge : l ≤ m
  /-- `m` is in the interval. -/
  le : m ≤ h
  /-- `P` holds at `m`. -/
  holds : P m
  /-- `P` holds nowhere after `m`. -/
  after : NoneIn P (m + 1) h

instance [DecidablePred P] : Decidable (NoneIn P l h) :=
  inferInstanceAs (Decidable (∀ i, l ≤ i → i ≤ h → ¬ P i))

/-! ## Where nothing holds -/

theorem NoneIn.mono (hn : NoneIn P l h) (hl : l ≤ l') (hh : h' ≤ h) : NoneIn P l' h' :=
  fun i hi hi' ↦ hn i (le_trans hl hi) (le_trans hi' hh)

/-- Nothing holds in an empty interval. -/
theorem NoneIn.of_lt (hlt : h < l) : NoneIn P l h := fun i hi hi' ↦ by omega

/-- Adjacent intervals where nothing holds join up. -/
theorem NoneIn.append (h₁ : NoneIn P l m) (h₂ : NoneIn P (m + 1) h) : NoneIn P l h := by
  intro i hi hi'
  by_cases him : i ≤ m
  · exact h₁ i hi him
  · exact h₂ i (by omega) hi'

/-- `NoneIn.append` for an interval whose end has just been moved. -/
theorem NoneIn.join (h₁ : NoneIn P l (m - 1)) (h₂ : NoneIn P m h) : NoneIn P l (h + 1 - 1) := by
  rw [Int.add_sub_cancel]
  exact h₁.append (by simpa using h₂)

/-- An interval where nothing holds can be extended by one index on the right. -/
theorem NoneIn.snoc (hn : NoneIn P l h) (hp : ¬ P (h + 1)) : NoneIn P l (h + 1) := by
  intro i hi hi'
  by_cases hih : i ≤ h
  · exact hn i hi hih
  · have : i = h + 1 := by omega
    rwa [this]

/-! ## The last index -/

/-- The last index is unique. -/
theorem LastIn.unique (h₁ : LastIn P l h m) (h₂ : LastIn P l h m') : m = m' := by
  rcases lt_trichotomy m m' with hlt | heq | hlt
  · exact absurd h₂.holds (h₁.after m' (by omega) h₂.le)
  · exact heq
  · exact absurd h₁.holds (h₂.after m (by omega) h₁.le)

/-- An interval with a last index is not one where nothing holds. -/
theorem LastIn.not_noneIn (hm : LastIn P l h m) : ¬ NoneIn P l h :=
  fun hn ↦ hn m hm.ge hm.le hm.holds

/-- Every index of the interval at which `P` holds is at most the last one. -/
theorem LastIn.le_of_holds (hm : LastIn P l h m) {i : Int} (hi : i ≤ h) (hp : P i) : i ≤ m := by
  by_contra hlt
  exact hm.after i (by omega) hi hp

/-- Adding an index at which `P` fails on the right keeps the last index. -/
theorem LastIn.snoc (hm : LastIn P l h m) (hp : ¬ P (h + 1)) : LastIn P l (h + 1) m :=
  ⟨hm.ge, by have := hm.le; omega, hm.holds, hm.after.snoc hp⟩

/-- An index at which `P` holds is the last one of any interval it ends. -/
theorem LastIn.self (hl : l ≤ m) (hp : P m) : LastIn P l m m :=
  ⟨hl, le_refl _, hp, NoneIn.of_lt (by omega)⟩

/-- An interval has a last index at which `P` holds unless `P` holds nowhere in it. -/
theorem NoneIn.or_lastIn (P : Int → Prop) (l h : Int) : NoneIn P l h ∨ ∃ m, LastIn P l h m := by
  by_cases hlt : h < l
  · exact .inl (.of_lt hlt)
  by_cases hp : P h
  · exact .inr ⟨h, .self (by omega) hp⟩
  have hp' : ¬ P (h - 1 + 1) := by rwa [Int.sub_add_cancel]
  rw [← Int.sub_add_cancel h 1]
  rcases NoneIn.or_lastIn P l (h - 1) with hno | ⟨m, hm⟩
  · exact .inl (hno.snoc hp')
  · exact .inr ⟨m, hm.snoc hp'⟩
termination_by (h - l + 1).toNat

end JosKernel.Interval
