import Mathlib.Data.Nat.Find
import Mathlib.Tactic.Common

/-!
# Patches of functions

A patch replaces the values of a function on a domain.  A sequence of patches is
applied in order, so the value at a point is that of the last patch whose domain
has the point.
-/

namespace JosKernel

universe u v

/-- New values `val` on the domain `dom`. -/
structure Patch (α : Type u) (β : Type v) where
  dom : α → Bool
  val : α → β

namespace Patch

variable {α : Type u} {β : Type v} {p : Patch α β} {f : Nat → Patch α β} {m : α → β} {x : α}
  {n i j : Nat}

/-- The patched function. -/
def apply (p : Patch α β) (m : α → β) : α → β := fun x ↦ if p.dom x then p.val x else m x

theorem apply_of_dom (h : p.dom x = true) : p.apply m x = p.val x := by simp [apply, h]

theorem apply_of_not_dom (h : p.dom x = false) : p.apply m x = m x := by simp [apply, h]

/-- The function after the first `n` patches. -/
def applyUpTo (f : Nat → Patch α β) : Nat → (α → β) → α → β
  | 0, m => m
  | n + 1, m => (f n).apply (applyUpTo f n m)

/-- A point that is in no domain keeps its value. -/
theorem applyUpTo_of_none (h : ∀ j < n, (f j).dom x = false) : applyUpTo f n m x = m x := by
  induction n with
  | zero => rfl
  | succ n ih =>
      rw [applyUpTo, apply_of_not_dom (h n (by omega))]
      exact ih fun j hj ↦ h j (by omega)

/-- Patch `j` is the last of the first `n` whose domain has `x`. -/
structure IsLast (f : Nat → Patch α β) (n : Nat) (x : α) (j : Nat) : Prop where
  lt : j < n
  dom : (f j).dom x = true
  after : ∀ j', j < j' → j' < n → (f j').dom x = false

/-- The last patch decides the value. -/
theorem applyUpTo_of_isLast (h : IsLast f n x j) : applyUpTo f n m x = (f j).val x := by
  obtain ⟨hlt, hdom, hafter⟩ := h
  induction n with
  | zero => omega
  | succ n ih =>
      by_cases hj : j = n
      · subst hj
        rw [applyUpTo, apply_of_dom hdom]
      · rw [applyUpTo, apply_of_not_dom (hafter n (by omega) (by omega))]
        exact ih (by omega) fun j' hj' hj'' ↦ hafter j' hj' (by omega)

/-- A point in some domain has a last patch, and it comes no earlier. -/
theorem exists_isLast (hi : i < n) (hdom : (f i).dom x = true) : ∃ j, i ≤ j ∧ IsLast f n x j := by
  refine ⟨Nat.findGreatest (fun j ↦ (f j).dom x = true) (n - 1), ?_, ?_, ?_, ?_⟩
  · exact Nat.le_findGreatest (by omega) hdom
  · have := Nat.findGreatest_le (P := fun j ↦ (f j).dom x = true) (n - 1)
    omega
  · exact Nat.findGreatest_spec (P := fun j ↦ (f j).dom x = true) (by omega : i ≤ n - 1) hdom
  · intro j' hj hj'
    simpa using Nat.findGreatest_is_greatest hj (by omega)

end Patch

end JosKernel
