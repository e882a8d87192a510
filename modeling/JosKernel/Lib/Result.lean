import Mathlib.Tactic.Common

/-!
# Computations that may stop early

A computation of type `Except ε α` returns a value or stops with a reason `ε`.
These are the rules for taking a sequence of such computations apart.
-/

namespace JosKernel.Result

universe u v

variable {ε : Type u} {α β : Type v}

@[simp] theorem pure_eq_ok (a : α) : (pure a : Except ε α) = .ok a := rfl

@[simp] theorem ok_bind (a : α) (f : α → Except ε β) : (.ok a >>= f) = f a := rfl

@[simp] theorem error_bind (e : ε) (f : α → Except ε β) : (.error e >>= f) = .error e := rfl

@[simp] theorem map_ok {γ : Type v} (f : α → γ) (a : α) :
    Except.map f (.ok a : Except ε α) = .ok (f a) := rfl

@[simp] theorem map_error {γ : Type v} (f : α → γ) (e : ε) :
    Except.map f (.error e : Except ε α) = .error e := rfl

/-- A sequence returns when both parts do. -/
theorem bind_eq_ok {x : Except ε α} {f : α → Except ε β} {b : β} :
    (x >>= f) = .ok b ↔ ∃ a, x = .ok a ∧ f a = .ok b := by
  cases x <;> simp

/-- A sequence whose first part is a check. -/
theorem check_bind_eq_ok {x : Except ε PUnit.{v+1}} {f : PUnit → Except ε β} {b : β} :
    (x >>= f) = .ok b ↔ x = .ok ⟨⟩ ∧ f ⟨⟩ = .ok b := by
  cases x <;> simp

/-- Where the computation `x` does not stop with the reason `e`, it is `y`. -/
def UpTo (e : ε) (x y : Except ε α) : Prop := x = .error e ∨ x = y

theorem UpTo.refl (e : ε) (x : Except ε α) : UpTo e x x := .inr rfl

theorem UpTo.bind {e : ε} {x y : Except ε α} {f g : α → Except ε β} (h : UpTo e x y)
    (hfg : ∀ a, UpTo e (f a) (g a)) : UpTo e (x >>= f) (y >>= g) := by
  rcases h with rfl | rfl
  · exact .inl rfl
  · cases x with
    | error e' => exact .refl e _
    | ok a => exact hfg a

/-- Two sequences that may fail are related step by step. -/
theorem rel_bind {α β γ δ : Type v} {R : α → β → Prop} {S : γ → δ → Prop} {x : Option α}
    {y : Option β} {f : α → Option γ} {g : β → Option δ} (h : Option.Rel R x y)
    (hfg : ∀ a b, R a b → Option.Rel S (f a) (g b)) : Option.Rel S (x >>= f) (y >>= g) := by
  cases h with
  | none => exact .none
  | some hab => exact hfg _ _ hab

end JosKernel.Result
