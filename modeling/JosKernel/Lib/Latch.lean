import JosKernel.Lib.Run
import Mathlib.Data.List.Induction

/-!
# Latches

Keys are pressed and released.  A latch that watches some of the keys is set by each
press of one of them, and reset by each release.  It is set at the end when a key has
been pressed and no watched key has been released since (`latch_iff`).  A latch that
watches one key says whether it is held; one that watches several keys can be reset
while some of them are held.
-/

namespace JosKernel

universe u

/-- A key is pressed or released. -/
inductive KeyEvent (κ : Type u) where
  | press (k : κ)
  | release (k : κ)
deriving DecidableEq, Repr

variable {κ : Type u}

/-- The latch after one more event. -/
def latchStep (S : κ → Prop) [DecidablePred S] (set : Bool) : KeyEvent κ → Bool
  | .press k => if S k then true else set
  | .release k => if S k then false else set

/-- The latch that watches the keys of `S`, after a history of events. -/
def latch (S : κ → Prop) [DecidablePred S] (es : List (KeyEvent κ)) : Bool :=
  es.foldl (latchStep S) false

@[simp] theorem latch_concat {S : κ → Prop} [DecidablePred S] (es : List (KeyEvent κ))
    (ev : KeyEvent κ) : latch S (es ++ [ev]) = latchStep S (latch S es) ev := by
  simp [latch]

variable {S : κ → Prop} {es : List (KeyEvent κ)}

/-- A key of `S` has been pressed, and none has been released since. -/
def PressedSince (S : κ → Prop) (es : List (KeyEvent κ)) : Prop :=
  ∃ pre k post, es = pre ++ .press k :: post ∧ S k ∧ ∀ k', S k' → .release k' ∉ post

/-- One more event is the press, or comes after it. -/
theorem pressedSince_concat {ev : KeyEvent κ} :
    PressedSince S (es ++ [ev]) ↔
      (∃ k, ev = .press k ∧ S k) ∨ PressedSince S es ∧ ∀ k, S k → ev ≠ .release k := by
  constructor
  · rintro ⟨pre, k, post, hes, hk, hpost⟩
    rcases split_concat hes with ⟨-, rfl, -⟩ | ⟨post, rfl, rfl⟩
    · exact .inl ⟨k, rfl, hk⟩
    · refine .inr ⟨⟨pre, k, post, rfl, hk, fun k' hk' hmem ↦ ?_⟩, ?_⟩
      · exact hpost k' hk' (List.mem_append_left _ hmem)
      · rintro k' hk' rfl
        exact hpost k' hk' (List.mem_append_right _ (List.mem_singleton_self _))
  · rintro (⟨k, rfl, hk⟩ | ⟨⟨pre, k, post, rfl, hk, hpost⟩, hev⟩)
    · exact ⟨es, k, [], rfl, hk, fun _ _ ↦ List.not_mem_nil⟩
    · refine ⟨pre, k, post ++ [ev], by simp, hk, fun k' hk' hmem ↦ ?_⟩
      rcases List.mem_append.mp hmem with hmem | hmem
      · exact hpost k' hk' hmem
      · exact hev k' hk' (List.mem_singleton.mp hmem).symm

/-- **When a latch is set.** -/
theorem latch_iff [DecidablePred S] : latch S es = true ↔ PressedSince S es := by
  induction es using List.reverseRecOn with
  | nil => simp [latch, PressedSince]
  | append_singleton es ev ih =>
      rw [latch_concat, pressedSince_concat, ← ih]
      cases ev with
      | press k =>
          by_cases hk : S k
          · exact iff_of_true (if_pos hk) (.inl ⟨k, rfl, hk⟩)
          · simp [latchStep, hk]
      | release k =>
          by_cases hk : S k
          · refine iff_of_false (by simp [latchStep, hk]) ?_
            rintro (⟨_, ⟨⟩, -⟩ | ⟨-, hnone⟩)
            exact hnone k hk rfl
          · have hnone : ∀ k', S k' → KeyEvent.release k ≠ .release k' := by
              rintro k' hk' ⟨⟩
              exact hk hk'
            simp only [latchStep, if_neg hk, reduceCtorEq, false_and, exists_false, false_or]
            exact ⟨fun h ↦ ⟨h, hnone⟩, And.left⟩

/-! ## Held keys -/

variable [DecidableEq κ]

/-- The key is held after a history of events. -/
def held (es : List (KeyEvent κ)) (k : κ) : Bool := latch (· = k) es

/-- Only a key that is not held is pressed, and only a key that is held is released. -/
def Allowed (es : List (KeyEvent κ)) : KeyEvent κ → Prop
  | .press k => held es k = false
  | .release k => held es k = true

/-- A history in which every event is allowed. -/
def ValidKeys (es : List (KeyEvent κ)) : Prop :=
  ∀ pre ev post, es = pre ++ ev :: post → Allowed pre ev

theorem validKeys_nil : ValidKeys ([] : List (KeyEvent κ)) := by
  intro pre ev post h
  simp at h

theorem ValidKeys.concat {ev : KeyEvent κ} (h : ValidKeys es) (hev : Allowed es ev) :
    ValidKeys (es ++ [ev]) := by
  intro pre ev' post hsplit
  rcases split_concat hsplit with ⟨rfl, rfl, -⟩ | ⟨post, rfl, rfl⟩
  · exact hev
  · exact h pre ev' post rfl

theorem held_iff {k : κ} :
    held es k = true ↔ ∃ pre post, es = pre ++ .press k :: post ∧ .release k ∉ post := by
  rw [held, latch_iff]
  constructor
  · rintro ⟨pre, _, post, hes, rfl, hpost⟩
    exact ⟨pre, post, hes, hpost _ rfl⟩
  · rintro ⟨pre, post, hes, hpost⟩
    exact ⟨pre, k, post, hes, rfl, by rintro _ rfl; exact hpost⟩

/-- A latch that is set has a key that is held. -/
theorem exists_held_of_latch [DecidablePred S] (h : latch S es = true) :
    ∃ k, S k ∧ held es k = true := by
  obtain ⟨pre, k, post, hes, hk, hpost⟩ := latch_iff.mp h
  exact ⟨k, hk, held_iff.mpr ⟨pre, post, hes, hpost k hk⟩⟩

/-- If no two of its keys are ever held at once, a latch is set while one of them is. -/
theorem latch_of_held [DecidablePred S] (hvalid : ValidKeys es)
    (hone : ∀ pre, pre <+: es → ∀ k k', S k → S k' → held pre k = true → held pre k' = true →
      k = k')
    {k : κ} (hk : S k) (hheld : held es k = true) : latch S es = true := by
  obtain ⟨pre, post, rfl, hpost⟩ := held_iff.mp hheld
  refine latch_iff.mpr ⟨pre, k, post, rfl, hk, ?_⟩
  intro k' hk' hmem
  obtain ⟨mid, rest, rfl⟩ := List.append_of_mem hmem
  -- before `k'` is released, both keys are held
  have hsplit : pre ++ .press k :: (mid ++ .release k' :: rest) =
      (pre ++ .press k :: mid) ++ .release k' :: rest := by simp
  have hheld' : held (pre ++ .press k :: mid) k' = true := hvalid _ _ _ hsplit
  have hheld : held (pre ++ .press k :: mid) k = true :=
    held_iff.mpr ⟨pre, mid, rfl, fun hmid ↦ hpost (List.mem_append_left _ hmid)⟩
  obtain rfl := hone _ ⟨_, hsplit.symm⟩ k k' hk hk' hheld hheld'
  exact hpost hmem

end JosKernel
