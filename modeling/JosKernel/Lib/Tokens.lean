import Mathlib.Data.List.TakeWhile
import Mathlib.Tactic.Common

/-!
# Tokens

The tokens of a list are its maximal runs without a separator.  They are what is left of
the parts between separators when the empty ones are dropped, and can be read off from the
front: separators are skipped, and up to the next separator is a token (`tokens_eq_cons`).

`Cut nul buf p t` says that the token `t` has been cut out of `buf` at `p`, in place: it is
followed by the terminator `nul`.
-/

namespace JosKernel

universe u

variable {α : Type u} {sep : α → Bool} {a : α} {l : List α}

/-- The maximal runs without a separator. -/
def tokens (sep : α → Bool) (l : List α) : List (List α) :=
  (l.splitOnP sep).filter (fun t ↦ !t.isEmpty)

@[simp] theorem tokens_nil : tokens sep [] = [] := by simp [tokens]

/-- A separator is skipped. -/
theorem tokens_of_pos (h : sep a = true) (l : List α) : tokens sep (a :: l) = tokens sep l := by
  rw [tokens, List.splitOnP_cons_eq_if_modifyHead, if_pos h]
  rfl

/-- Separators at the front are skipped. -/
theorem tokens_dropWhile (l : List α) : tokens sep (l.dropWhile sep) = tokens sep l := by
  induction l with
  | nil => rfl
  | cons a l ih =>
      by_cases h : sep a = true
      · rw [List.dropWhile_cons_of_pos h, ih, tokens_of_pos h]
      · rw [List.dropWhile_cons_of_neg h]

/-- The part before the first separator, and the other tokens. -/
theorem splitOnP_eq_cons (sep : α → Bool) (l : List α) :
    ∃ ts, l.splitOnP sep = l.takeWhile (!sep ·) :: ts ∧
      ts.filter (fun t ↦ !t.isEmpty) = tokens sep (l.dropWhile (!sep ·)) := by
  induction l with
  | nil => exact ⟨[], by simp⟩
  | cons a l ih =>
      rw [List.splitOnP_cons_eq_if_modifyHead]
      by_cases h : sep a = true
      · refine ⟨l.splitOnP sep, ?_, ?_⟩
        · rw [if_pos h, List.takeWhile_cons_of_neg (by simpa using h)]
        · rw [List.dropWhile_cons_of_neg (by simpa using h), tokens_of_pos h, tokens]
      · obtain ⟨ts, hts, hfilter⟩ := ih
        refine ⟨ts, ?_, ?_⟩
        · rw [if_neg h, hts, List.takeWhile_cons_of_pos (by simpa using h)]
          rfl
        · rw [hfilter, List.dropWhile_cons_of_pos (by simpa using h)]

theorem sep_of_dropWhile {r : List α} (h : l.dropWhile sep = a :: r) : sep a = false := by
  have hhead := List.head?_dropWhile_not sep l
  rw [h] at hhead
  simpa using hhead

/-- Separators only. -/
theorem tokens_eq_nil (h : l.dropWhile sep = []) : tokens sep l = [] := by
  rw [← tokens_dropWhile, h, tokens_nil]

/-- After the separators comes a token, up to the next separator. -/
theorem tokens_eq_cons {r : List α} (h : l.dropWhile sep = a :: r) :
    tokens sep l = (a :: r).takeWhile (!sep ·) :: tokens sep ((a :: r).dropWhile (!sep ·)) := by
  obtain ⟨ts, hts, hfilter⟩ := splitOnP_eq_cons sep (a :: r)
  have hne : (a :: r).takeWhile (!sep ·) ≠ [] := by
    rw [List.takeWhile_cons_of_pos (by rw [sep_of_dropWhile h]; rfl)]
    exact List.cons_ne_nil _ _
  rw [← hfilter, ← tokens_dropWhile, h, tokens, hts, List.filter_cons_of_pos (by simpa using hne)]

/-- A token is no longer than the list. -/
theorem length_le_of_mem_tokens {l t : List α} (h : t ∈ tokens sep l) : t.length ≤ l.length := by
  have hle := (l.dropWhile_suffix sep).length_le
  cases hdrop : l.dropWhile sep with
  | nil =>
      rw [tokens_eq_nil hdrop] at h
      cases h
  | cons a r =>
      rw [hdrop] at hle
      rw [tokens_eq_cons hdrop] at h
      rcases List.mem_cons.mp h with rfl | h
      · have hfirst : (a :: r).takeWhile (!sep ·) <+: a :: r := List.takeWhile_prefix _
        exact hfirst.length_le.trans hle
      · have hlt : ((a :: r).dropWhile (!sep ·)).length < l.length := by
          rw [List.dropWhile_cons_of_pos (by rw [sep_of_dropWhile hdrop]; rfl)]
          have := (r.dropWhile_suffix (!sep ·)).length_le
          rw [List.length_cons] at hle
          omega
        exact (length_le_of_mem_tokens h).trans hlt.le
termination_by l.length

/-! ## Tokens in place -/

/-- The token `t` is at `p` in `buf`, followed by the first terminator there. -/
structure Cut (nul : α) (buf : List α) (p : Nat) (t : List α) : Prop where
  not_mem : nul ∉ t
  split : ∃ before after, buf = before ++ t ++ nul :: after ∧ before.length = p

namespace Cut

variable {nul : α} {buf : List α} {p : Nat} {t : List α}

/-- What comes behind does not matter. -/
theorem append (h : Cut nul buf p t) (x : List α) : Cut nul (buf ++ x) p t := by
  obtain ⟨hmem, before, after, rfl, hp⟩ := h
  exact ⟨hmem, before, after ++ x, by simp, hp⟩

theorem tail (h : Cut nul buf p (a :: t)) : Cut nul buf (p + 1) t := by
  obtain ⟨hmem, before, after, rfl, rfl⟩ := h
  exact ⟨List.not_mem_of_not_mem_cons hmem, before ++ [a], after, by simp, by simp⟩

/-- The elements from `p` on. -/
theorem drop_eq (h : Cut nul buf p t) : ∃ after, buf.drop p = t ++ nul :: after := by
  obtain ⟨-, before, after, rfl, rfl⟩ := h
  exact ⟨after, by rw [List.append_assoc, List.drop_left]⟩

/-- A token at the end of what has been read, when a terminator is put there. -/
theorem snoc (h : nul ∉ t) (before : List α) : Cut nul (before ++ t ++ [nul]) before.length t :=
  ⟨h, before, [], rfl, rfl⟩

end Cut

end JosKernel
