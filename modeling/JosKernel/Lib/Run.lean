import Mathlib.Data.List.Infix
import Mathlib.Tactic.Common

/-!
# Runs of a machine with outputs

`runs` takes a machine that may fail through a list of events and collects what it
puts out.  `trace` does the same for a machine that cannot fail, which is how
specifications are given.  `runs_simulates` is the induction that takes a simulation
of one step to whole runs, and `runs_driven` is for a machine that gets its events from
another one.

What is said of one event of a list is shown by induction on the last event:
`split_concat` tells whether the event is the last one.
-/

namespace JosKernel

universe u v w x

variable {σ : Type u} {τ : Type v} {ε : Type w} {ο : Type x}

/-- The run of a machine that may fail. -/
def runs (step : σ → ε → Option (σ × List ο)) : σ → List ε → Option (σ × List ο)
  | s, [] => some (s, [])
  | s, e :: es => do
      let (s, out) ← step s e
      let (s, outs) ← runs step s es
      return (s, out ++ outs)

/-- The run of a machine that cannot fail. -/
def trace (step : τ → ε → τ × List ο) : τ → List ε → τ × List ο
  | t, [] => (t, [])
  | t, e :: es => ((trace step (step t e).1 es).1, (step t e).2 ++ (trace step (step t e).1 es).2)

section

variable {step : σ → ε → Option (σ × List ο)} {spec : τ → ε → τ × List ο} {t : τ}

@[simp] theorem trace_nil (spec : τ → ε → τ × List ο) (t : τ) : trace spec t [] = (t, []) := rfl

@[simp] theorem trace_cons (spec : τ → ε → τ × List ο) (t : τ) (e : ε) (es : List ε) :
    trace spec t (e :: es) =
      ((trace spec (spec t e).1 es).1, (spec t e).2 ++ (trace spec (spec t e).1 es).2) := rfl

theorem trace_append (es es' : List ε) :
    trace spec t (es ++ es') =
      ((trace spec (trace spec t es).1 es').1,
        (trace spec t es).2 ++ (trace spec (trace spec t es).1 es').2) := by
  induction es generalizing t with
  | nil => simp
  | cons e es ih => simp [ih]

theorem runs_append (s : σ) (es es' : List ε) :
    runs step s (es ++ es') = (runs step s es).bind fun r ↦
      (runs step r.1 es').map fun r' ↦ (r'.1, r.2 ++ r'.2) := by
  induction es generalizing s with
  | nil => cases h : runs step s es' <;> simp [runs, h]
  | cons e es ih =>
      simp only [List.cons_append, runs, ih]
      cases step s e with
      | none => rfl
      | some r =>
          simp only [Option.bind_eq_bind, Option.bind_some]
          cases runs step r.1 es with
          | none => rfl
          | some r₁ =>
              cases h : runs step r₁.1 es' <;> simp [h]

/-- **Simulation of runs.**  If every step of the machine succeeds, puts out what the
specification puts out and keeps `R`, then so does every run. -/
theorem runs_simulates {R : σ → τ → Prop}
    (hstep : ∀ s t e, R s t → ∃ s', step s e = some (s', (spec t e).2) ∧ R s' (spec t e).1)
    {s : σ} (h : R s t) (es : List ε) :
    ∃ s', runs step s es = some (s', (trace spec t es).2) ∧ R s' (trace spec t es).1 := by
  induction es generalizing s t with
  | nil => exact ⟨s, rfl, h⟩
  | cons e es ih =>
      obtain ⟨s₁, hs, hr⟩ := hstep s t e h
      obtain ⟨s₂, hrest, hr'⟩ := ih hr
      exact ⟨s₂, by simp [runs, hs, hrest], hr'⟩

/-- A machine and its surroundings, which give it an event at each turn. -/
theorem runs_driven {γ : Type v} {joint : σ × τ → γ → Option ((σ × τ) × List ο)}
    {drive : τ → γ → τ × List ε}
    (h : ∀ s t c, joint (s, t) c =
      (runs step s (drive t c).2).map fun r ↦ ((r.1, (drive t c).1), r.2))
    (s : σ) (t : τ) (cs : List γ) :
    runs joint (s, t) cs =
      (runs step s (trace drive t cs).2).map fun r ↦ ((r.1, (trace drive t cs).1), r.2) := by
  induction cs generalizing s t with
  | nil => rfl
  | cons c cs ih =>
      rw [runs, h, trace_cons, runs_append]
      cases runs step s (drive t c).2 with
      | none => rfl
      | some r =>
          simp only [Option.map_some, Option.bind_eq_bind, Option.bind_some, ih]
          cases runs step r.1 (trace drive (drive t c).1 cs).2 <;> rfl

end

/-- An event of a list with one more event is that event, or one of the list. -/
theorem split_concat {es pre post : List ε} {e e' : ε} (h : es ++ [e] = pre ++ e' :: post) :
    (es = pre ∧ e = e' ∧ post = []) ∨ ∃ post', post = post' ++ [e] ∧ es = pre ++ e' :: post' := by
  rcases List.eq_nil_or_concat post with rfl | ⟨post, e'', rfl⟩
  · obtain ⟨rfl, hlast⟩ := List.append_inj' h rfl
    exact .inl ⟨rfl, (List.cons.inj hlast).1, rfl⟩
  · rw [List.concat_eq_append, ← List.cons_append, ← List.append_assoc] at h
    obtain ⟨rfl, hlast⟩ := List.append_inj' h rfl
    cases hlast
    exact .inr ⟨post, List.concat_eq_append, rfl⟩

end JosKernel
