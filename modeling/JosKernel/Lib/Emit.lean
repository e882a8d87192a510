import Mathlib.Tactic.Common

/-!
# Output through a callback

A printer hands its output, item by item, to a callback that updates a state it
never looks at.  Such a printer has an output of its own: the list of the items, from
which `emit` gets back what it does to any state.
-/

namespace JosKernel

universe u v

variable {γ : Type u} {σ : Type v} {put : γ → σ → σ}

/-- Hand the items of a list to the callback. -/
def emit (put : γ → σ → σ) (cs : List γ) (s : σ) : σ := cs.foldl (fun s c ↦ put c s) s

@[simp] theorem emit_nil (s : σ) : emit put [] s = s := rfl

@[simp] theorem emit_cons (c : γ) (cs : List γ) (s : σ) :
    emit put (c :: cs) s = emit put cs (put c s) := rfl

theorem emit_append (cs cs' : List γ) (s : σ) :
    emit put (cs ++ cs') s = emit put cs' (emit put cs s) := by
  simp [emit]

/-- The callback that records the items. -/
def record (c : γ) (out : List γ) : List γ := out ++ [c]

theorem emit_record (cs out : List γ) : emit record cs out = out ++ cs := by
  induction cs generalizing out with
  | nil => simp
  | cons c cs ih => simp [ih, record]

end JosKernel
