import JosKernel.Console.Readline

/-!
# Line editing

What `readline` makes of the characters of a line, against an editor that says what
they are for.  The two part at a delete on an empty line: `readline` finds nothing to
erase, goes on to its next test, and there takes the delete for a printing character.
-/

namespace JosKernel.Console

/-! ## The editor -/

/-- The line after one more character: `'\b'` and `'\x7f'` erase, and what is not a
control character is put on the line while there is room. -/
def editStep (line : List Byte) (c : Byte) : List Byte :=
  if c = 0x08 ∨ c = 0x7F then line.dropLast
  else if 0x20 ≤ c then
    if line.length < bufLen - 1 then line ++ [c] else line
  else line

/-- The line that the characters make. -/
def edit (cs : List Byte) : List Byte := cs.foldl editStep []

@[simp] theorem edit_concat (cs : List Byte) (c : Byte) :
    edit (cs ++ [c]) = editStep (edit cs) c := by
  simp [edit]

/-- The editor puts no delete on the line. -/
theorem delete_not_mem_edit (cs : List Byte) : 0x7F ∉ edit cs := by
  induction cs using List.reverseRecOn with
  | nil => exact List.not_mem_nil
  | append_singleton cs c ih =>
      rw [edit_concat, editStep]
      split_ifs with herase
      · exact fun h ↦ ih (List.dropLast_subset _ h)
      · intro h
        rcases List.mem_append.mp h with h | h
        · exact ih h
        · exact herase (.inr (List.mem_singleton.mp h).symm)
      · exact ih
      · exact ih

/-! ## The column -/

/-- The column of the cursor after one more character. -/
def columnStep (n : Nat) (c : Byte) : Nat :=
  if (c = 0x08 ∨ c = 0x7F) ∧ 0 < n then n - 1
  else if 0x20 ≤ c ∧ n < bufLen - 1 then n + 1
  else n

/-- The column in which the characters leave the cursor. -/
def column (cs : List Byte) : Nat := cs.foldl columnStep 0

@[simp] theorem column_concat (cs : List Byte) (c : Byte) :
    column (cs ++ [c]) = columnStep (column cs) c := by
  simp [column]

theorem length_lineStep (line : List Byte) (c : Byte) :
    columnStep line.length c = (lineStep line c).length := by
  rw [lineStep, columnStep]
  simp only [List.length_pos_iff]
  split_ifs
  · exact List.length_dropLast.symm
  · rw [List.length_append, List.length_singleton]
  · rfl

/-- `readline` keeps the line up to the cursor. -/
theorem column_eq (cs : List Byte) : column cs = (cs.foldl lineStep []).length := by
  change cs.foldl columnStep ([] : List Byte).length = _
  exact List.foldl_hom List.length length_lineStep

theorem length_editStep_le {line : List Byte} {n : Nat} (h : line.length ≤ n) (c : Byte) :
    (editStep line c).length ≤ columnStep n c := by
  rw [editStep, columnStep]
  by_cases herase : c = 0x08 ∨ c = 0x7F
  · rw [if_pos herase, List.length_dropLast]
    split_ifs <;> omega
  · rw [if_neg herase, if_neg (not_and_of_not_left _ herase)]
    by_cases hspace : 0x20 ≤ c
    · simp only [hspace, if_true, true_and]
      split_ifs
      · rw [List.length_append, List.length_singleton]
        omega
      · rw [List.length_append, List.length_singleton]
        omega
      · omega
      · omega
    · rwa [if_neg hspace, if_neg (not_and_of_not_left _ hspace)]

theorem length_edit_le (cs : List Byte) : (edit cs).length ≤ column cs := by
  induction cs using List.reverseRecOn with
  | nil => exact Nat.le_refl 0
  | append_singleton cs c ih =>
      rw [edit_concat, column_concat]
      exact length_editStep_le ih c

/-! ## Stray deletes -/

/-- A delete came in column 0, and the cursor has not been back there since. -/
def StrayDelete (cs : List Byte) : Prop :=
  ∃ pre post, cs = pre ++ 0x7F :: post ∧ column pre = 0 ∧
    ∀ q, q <+: post → column (pre ++ 0x7F :: q) ≠ 0

theorem column_delete {pre : List Byte} (h : column pre = 0) : column (pre ++ [0x7F]) = 1 := by
  rw [column_concat, h]
  rfl

/-- One more character is the delete, or comes after it. -/
theorem strayDelete_concat {cs : List Byte} {c : Byte} :
    StrayDelete (cs ++ [c]) ↔
      (c = 0x7F ∧ column cs = 0) ∨ StrayDelete cs ∧ column (cs ++ [c]) ≠ 0 := by
  constructor
  · rintro ⟨pre, post, hcs, hpre, hpost⟩
    have hall := hpost _ (List.prefix_refl _)
    rw [← hcs] at hall
    rcases split_concat hcs with ⟨rfl, rfl, -⟩ | ⟨post, rfl, rfl⟩
    · exact .inl ⟨rfl, hpre⟩
    · refine .inr ⟨⟨pre, post, rfl, hpre, fun q hq ↦ hpost q ?_⟩, hall⟩
      exact hq.trans (List.prefix_append _ _)
  · rintro (⟨rfl, hcolumn⟩ | ⟨⟨pre, post, rfl, hpre, hpost⟩, hcolumn⟩)
    · refine ⟨cs, [], rfl, hcolumn, fun q hq ↦ ?_⟩
      rw [List.prefix_nil.mp hq, column_delete hcolumn]
      exact Nat.one_ne_zero
    · refine ⟨pre, post ++ [c], by simp, hpre, fun q hq ↦ ?_⟩
      rcases List.prefix_concat_iff.mp hq with rfl | hq
      · simpa using hcolumn
      · exact hpost q hq

/-! ## `readline` as an editor -/

/-- Anywhere but in column 0, `readline` does with a delete what the editor does. -/
theorem lineStep_eq_editStep {line : List Byte} {c : Byte} (h : c = 0x7F → line ≠ []) :
    lineStep line c = editStep line c := by
  rw [lineStep, editStep]
  by_cases hline : line = []
  · subst hline
    have hdelete : c ≠ 0x7F := fun hc ↦ h hc rfl
    by_cases hback : c = 0x08
    · subst hback
      rfl
    · rw [if_neg (not_and_of_not_right _ (not_not_intro rfl)), if_neg (not_or_intro hback hdelete),
        ite_and]
  · simp only [ne_eq, hline, not_false_eq_true, and_true, ite_and]

/-- What was on the line stays at its start until the line is empty. -/
theorem head?_lineStep {line : List Byte} {b c : Byte} (h : line.head? = some b)
    (hline : lineStep line c ≠ []) : (lineStep line c).head? = some b := by
  obtain ⟨line, rfl⟩ := List.head?_eq_some_iff.mp h
  rw [lineStep] at hline ⊢
  split_ifs at hline ⊢ with herase
  · cases line with
    | nil => exact absurd rfl hline
    | cons a line => rfl
  · rfl
  · rfl

/-- A stray delete is the first character of the line. -/
theorem head?_of_strayDelete {cs : List Byte} (h : StrayDelete cs) :
    (cs.foldl lineStep []).head? = some 0x7F := by
  induction cs using List.reverseRecOn with
  | nil =>
      obtain ⟨pre, post, hcs, -⟩ := h
      simp at hcs
  | append_singleton cs c ih =>
      rw [List.foldl_append, List.foldl_cons, List.foldl_nil]
      rcases strayDelete_concat.mp h with ⟨rfl, hcolumn⟩ | ⟨h, hcolumn⟩
      · rw [column_eq] at hcolumn
        rw [List.eq_nil_of_length_eq_zero hcolumn]
        rfl
      · rw [column_eq, List.foldl_append, List.foldl_cons, List.foldl_nil] at hcolumn
        exact head?_lineStep (ih h) (mt (congrArg List.length) hcolumn)

/-- With no stray delete the line is the editor's. -/
theorem eq_edit_of_not_strayDelete {cs : List Byte} (h : ¬ StrayDelete cs) :
    cs.foldl lineStep [] = edit cs := by
  induction cs using List.reverseRecOn with
  | nil => rfl
  | append_singleton cs c ih =>
      rw [strayDelete_concat, not_or, not_and, not_and_not_right] at h
      obtain ⟨hdelete, hback⟩ := h
      by_cases hstray : StrayDelete cs
      · -- the cursor is back in column 0, where both lines are empty
        have hcolumn := hback hstray
        have hedit := length_edit_le (cs ++ [c])
        rw [hcolumn, Nat.le_zero] at hedit
        rw [column_eq] at hcolumn
        rw [List.eq_nil_of_length_eq_zero hcolumn, List.eq_nil_of_length_eq_zero hedit]
      · have hsame := ih hstray
        rw [List.foldl_append, List.foldl_cons, List.foldl_nil, edit_concat, ← hsame]
        refine lineStep_eq_editStep fun hc hnil ↦ hdelete hc ?_
        rw [column_eq, hnil, List.length_nil]

theorem eq_edit_iff {cs : List Byte} : cs.foldl lineStep [] = edit cs ↔ ¬ StrayDelete cs := by
  refine ⟨fun h hstray ↦ ?_, eq_edit_of_not_strayDelete⟩
  have hhead := head?_of_strayDelete hstray
  rw [h] at hhead
  exact delete_not_mem_edit cs (List.mem_of_head? hhead)

/-- **When `readline` edits the line.**  It returns the line that the editor makes exactly
when no stray delete is left on it. -/
theorem readline_edit_iff {prompt : Option (List Byte)} (hprompt : ∀ p ∈ prompt, 0 ∈ p)
    (dev : Device) {fuel : Nat} (hfuel : 2 ≤ fuel) {polls cs rest : List Byte} {c : Byte}
    (hpolls : nonzero polls = cs ++ c :: rest) (hcs : ∀ c ∈ cs, c ≠ 0x0A ∧ c ≠ 0x0D)
    (hc : c = 0x0A ∨ c = 0x0D) (buf : Vector Byte bufLen) (m : Out) :
    ∃ buf' m', readline dev fuel prompt polls buf m = .ok (.line buf' m') ∧
      (cstring buf' = edit cs ↔ ¬ StrayDelete cs) := by
  obtain ⟨buf', m', hline, hbuf⟩ := readline_line hprompt dev hfuel hpolls hcs hc buf m
  exact ⟨buf', m', hline, hbuf ▸ eq_edit_iff⟩

/-- A delete, a character and a newline. -/
def deleteFirst : List Byte := [0x7F, 0x61, 0x0A]

/-- The prompt of the monitor. -/
def monitorPrompt : List Byte := asciis "K> ".toList ++ [0]

theorem deleteFirst_edit_iff :
    ∃ buf m, readline Printf.deadDevice 2 (some monitorPrompt) deleteFirst
        (Vector.replicate bufLen 0) blankScreen = .ok (.line buf m) ∧
      (cstring buf = edit [0x7F, 0x61] ↔ ¬ StrayDelete [0x7F, 0x61]) :=
  readline_edit_iff (by decide) Printf.deadDevice (Nat.le_refl 2)
    (show nonzero deleteFirst = [0x7F, 0x61] ++ 0x0A :: [] by decide) (by decide) (.inl rfl) _ _

/-- The delete is on the line that `readline` returns. -/
theorem deleteFirst_not_edited :
    nonzero deleteFirst = [0x7F, 0x61, 0x0A] ∧ edit [0x7F, 0x61] = [0x61] ∧
      ∃ buf m, readline Printf.deadDevice 2 (some monitorPrompt) deleteFirst
          (Vector.replicate bufLen 0) blankScreen = .ok (.line buf m) ∧
        cstring buf = [0x7F, 0x61] := by
  refine ⟨by decide, by decide, ?_⟩
  have hpolls : nonzero deleteFirst = [0x7F, 0x61] ++ 0x0A :: [] := by decide
  exact readline_line (by decide) Printf.deadDevice (Nat.le_refl 2) hpolls (by decide)
    (.inl rfl) _ _

end JosKernel.Console
