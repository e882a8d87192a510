import Mathlib.Data.List.Basic

/-!
# Interleavings

`Interleaves as bs cs` says that `cs` is made of `as` and `bs`, each in its order and nothing
else.  What two sources deliver by turns to one sink is such a list (`Interleaves.append`).
-/

namespace JosKernel

universe u

variable {α : Type u}

/-- `cs` has the elements of `as` and of `bs`, each list in its order. -/
inductive Interleaves : List α → List α → List α → Prop
  | nil : Interleaves [] [] []
  | left (a : α) {as bs cs : List α} (h : Interleaves as bs cs) : Interleaves (a :: as) bs (a :: cs)
  | right (b : α) {as bs cs : List α} (h : Interleaves as bs cs) :
      Interleaves as (b :: bs) (b :: cs)

namespace Interleaves

theorem only_left : (as : List α) → Interleaves as [] as
  | [] => .nil
  | a :: as => .left a (only_left as)

theorem only_right : (bs : List α) → Interleaves [] bs bs
  | [] => .nil
  | b :: bs => .right b (only_right bs)

variable {as as' bs bs' cs cs' : List α}

/-- One interleaving after another. -/
theorem append (h : Interleaves as bs cs) (h' : Interleaves as' bs' cs') :
    Interleaves (as ++ as') (bs ++ bs') (cs ++ cs') := by
  induction h with
  | nil => exact h'
  | left a _ ih => exact .left a ih
  | right b _ ih => exact .right b ih

/-- One of the sources is silent. -/
theorem eq_left (h : Interleaves as [] cs) : cs = as := by
  generalize hnil : [] = bs at h
  induction h with
  | nil => rfl
  | left a _ ih => rw [ih hnil]
  | right b _ _ => cases hnil

theorem length_eq (h : Interleaves as bs cs) : cs.length = as.length + bs.length := by
  induction h with
  | nil => rfl
  | left a _ ih => simp only [List.length_cons, ih]; omega
  | right b _ ih => simp only [List.length_cons, ih]; omega

end Interleaves

end JosKernel
