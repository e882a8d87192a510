import Mathlib.Data.List.Nodup
import Mathlib.Logic.Function.Basic
import Mathlib.Tactic.Common

/-!
# Linked lists

Nullable pointers are kept in slots: one in each node, its link, and some others, the
roots.  `Linked` is a segment of a list through the links.  A list that is built at its end
through a pointer to its last slot is `Growing`: whatever is written to that slot, the
nodes are linked up to it.
-/

namespace JosKernel

universe u v

/-- A place that holds a pointer to a node, or null. -/
inductive Slot (ρ : Type u) (α : Type v) where
  | root (r : ρ)
  | link (i : α)
deriving DecidableEq, Repr

/-- What the slots hold. -/
abbrev Links (ρ : Type u) (α : Type v) := Slot ρ α → Option α

variable {ρ : Type u} {α : Type v} {f g : Links ρ α} {p q r : Option α} {l l' : List α} {i j : α}

/-- Following the links from `p` passes the nodes of the list and arrives at `q`. -/
def Linked (f : Links ρ α) : Option α → List α → Option α → Prop
  | p, [], q => p = q
  | p, i :: l, q => p = some i ∧ Linked f (f (.link i)) l q

/-! ## Segments -/

/-- Only the links of the nodes matter. -/
theorem Linked.congr (h : Linked f p l q) (hfg : ∀ i ∈ l, f (.link i) = g (.link i)) :
    Linked g p l q := by
  induction l generalizing p with
  | nil => exact h
  | cons i l ih =>
      obtain ⟨hp, hrest⟩ := h
      obtain ⟨hi, hl⟩ := List.forall_mem_cons.mp hfg
      exact ⟨hp, ih (hi ▸ hrest) hl⟩

theorem Linked.append (h : Linked f p l q) (h' : Linked f q l' r) : Linked f p (l ++ l') r := by
  induction l generalizing p with
  | nil =>
      rw [show p = q from h]
      exact h'
  | cons i l ih => exact ⟨h.1, ih h.2⟩

/-- A node behind a segment. -/
theorem Linked.snoc (h : Linked f p l (some i)) (hi : f (.link i) = q) :
    Linked f p (l ++ [i]) q :=
  h.append ⟨rfl, hi⟩

/-- The segment from a node of it on. -/
theorem Linked.suffix (h : Linked f p (l ++ i :: l') q) : Linked f (some i) (i :: l') q := by
  induction l generalizing p with
  | nil =>
      obtain ⟨rfl, hrest⟩ := h
      exact ⟨rfl, hrest⟩
  | cons j l ih => exact ih h.2

/-- A null-terminated list is determined by its start. -/
theorem Linked.unique (h : Linked f p l none) (h' : Linked f p l' none) : l = l' := by
  induction l generalizing p l' with
  | nil =>
      cases l' with
      | nil => rfl
      | cons j l' =>
          obtain rfl : p = none := h
          cases h'.1
  | cons i l ih =>
      obtain ⟨rfl, hrest⟩ := h
      cases l' with
      | nil => cases h'
      | cons j l' =>
          obtain ⟨hij, hrest'⟩ := h'
          cases hij
          rw [ih hrest hrest']

/-- A null-terminated list has no cycle, so its nodes are distinct. -/
theorem Linked.nodup (h : Linked f p l none) : l.Nodup := by
  induction l generalizing p with
  | nil => exact List.nodup_nil
  | cons i l ih =>
      refine List.nodup_cons.mpr ⟨?_, ih h.2⟩
      intro hmem
      obtain ⟨l₁, l₂, rfl⟩ := List.append_of_mem hmem
      have hagain := h.2.suffix
      have hlen := congrArg List.length (hagain.2.unique h.2)
      simp only [List.length_append, List.length_cons] at hlen
      omega

/-! ## A list that grows at its end -/

variable [DecidableEq ρ] [DecidableEq α] {s s' : Slot ρ α} {root : ρ}

/-- The list `l` from a root on has its last slot at `s`. -/
structure Growing (f : Links ρ α) (root : ρ) (l : List α) (s : Slot ρ α) : Prop where
  slot : s = .root root ∨ ∃ i ∈ l, s = .link i
  linked : ∀ q, Linked (Function.update f s q) (Function.update f s q (.root root)) l q

theorem Growing.nil (f : Links ρ α) (root : ρ) : Growing f root [] (.root root) :=
  ⟨.inl rfl, fun _ ↦ Function.update_self ..⟩

/-- The last slot is no slot of a list with another root and other nodes. -/
theorem Growing.apart {root' : ρ} (h : Growing f root l s) (hroot : root ≠ root')
    (hl : ∀ i ∈ l, i ∉ l') : s ≠ .root root' ∧ ∀ i ∈ l', s ≠ .link i := by
  rcases h.slot with rfl | ⟨i, hi, rfl⟩
  · exact ⟨by simpa using hroot, fun i _ ↦ by simp⟩
  · refine ⟨by simp, ?_⟩
    rintro j hj ⟨⟩
    exact hl i hi hj

/-- A slot of another list. -/
theorem Growing.ne (h : Growing f root l s) (hroot : s' ≠ .root root)
    (hl : ∀ i ∈ l, s' ≠ .link i) : s' ≠ s := by
  rcases h.slot with rfl | ⟨i, hi, rfl⟩
  · exact hroot
  · exact hl i hi

/-- Writing to the slots of other lists. -/
theorem Growing.frame (h : Growing f root l s) (hroot : s' ≠ .root root)
    (hl : ∀ i ∈ l, s' ≠ .link i) (v : Option α) : Growing (Function.update f s' v) root l s := by
  refine ⟨h.slot, ?_⟩
  intro q
  rw [Function.update_comm (h.ne hroot hl), Function.update_of_ne hroot.symm]
  refine (h.linked q).congr ?_
  intro i hi
  rw [Function.update_of_ne (hl i hi).symm]

/-- **A node is added.** -/
theorem Growing.push (h : Growing f root l s) (hi : i ∉ l) :
    Growing (Function.update f s (some i)) root (l ++ [i]) (.link i) := by
  refine ⟨.inr ⟨i, List.mem_append_right _ (List.mem_singleton_self i), rfl⟩, ?_⟩
  intro q
  rw [Function.update_of_ne (by simp)]
  refine Linked.snoc ((h.linked (some i)).congr ?_) (Function.update_self ..)
  intro j hj
  have hne : (.link j : Slot ρ α) ≠ .link i := by
    rintro ⟨⟩
    exact hi hj
  exact (Function.update_of_ne hne ..).symm

end JosKernel
