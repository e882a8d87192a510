import JosKernel.Kdebug.Eip

/-!
# The string table

The string table is checked in two places: its last byte is a NUL, and an index into it is
less than its length.  That makes of every name a string that ends inside the table
(`exists_stringAt`), and of the search for its colon one that stops there
(`strfind_stringAt`).
-/

namespace JosKernel.Kdebug

/-! ## Strings of the table -/

/-- The string at `off` has this text, and its NUL is in the table. -/
def StringAt (s : List Byte) (off : Nat) (text : List Byte) : Prop :=
  0 ∉ text ∧ ∃ rest, s.drop off = text ++ 0 :: rest

/-- Below a NUL at its end, the table has strings only. -/
theorem exists_stringAt {s : List Byte} {off : Nat} (hlast : s.getLast? = some 0)
    (hoff : off < s.length) : ∃ text, StringAt s off text := by
  have hmem : 0 ∈ s.drop off := by
    refine List.mem_of_getLast? ?_
    rwa [List.getLast?_drop, if_neg (by omega)]
  obtain ⟨text, rest, hdrop, htext⟩ := List.eq_append_cons_of_mem hmem
  exact ⟨text, htext, rest, hdrop⟩

section

variable {s text : List Byte} {off : Nat}

theorem StringAt.getElem? (h : StringAt s off text) : s[off]? = some (text.headD 0) := by
  obtain ⟨-, rest, hdrop⟩ := h
  rw [← List.head?_drop, hdrop]
  cases text <;> rfl

theorem StringAt.tail {b : Byte} (h : StringAt s off (b :: text)) : StringAt s (off + 1) text := by
  obtain ⟨hzero, rest, hdrop⟩ := h
  refine ⟨List.not_mem_of_not_mem_cons hzero, rest, ?_⟩
  rw [← List.drop_drop, hdrop]
  rfl

theorem strfind_of_getElem? {b : Byte} (h : s[off]? = some b) (c : Byte) :
    strfind s c off = if b = 0 ∨ b = c then .ok off else strfind s c (off + 1) := by
  rw [strfind]
  split
  next hnone => cases h.symm.trans hnone
  next b' hb' =>
    cases h.symm.trans hb'
    rfl

/-- `strfind` stops at the first `c`, or at the NUL. -/
theorem strfind_stringAt (c : Byte) (h : StringAt s off text) :
    strfind s c off = .ok (off + (text.takeWhile (· ≠ c)).length) := by
  induction text generalizing off with
  | nil =>
      rw [strfind_of_getElem? h.getElem?]
      exact if_pos (.inl rfl)
  | cons b text ih =>
      have hb : b ≠ 0 := (List.ne_of_not_mem_cons h.1).symm
      rw [strfind_of_getElem? h.getElem?, List.headD_cons]
      by_cases hc : b = c
      · rw [if_pos (.inr hc), List.takeWhile_cons_of_neg (by simpa using hc)]
        rfl
      · rw [if_neg (not_or_intro hb hc), ih h.tail, List.takeWhile_cons_of_pos (by simpa using hc),
          List.length_cons, Nat.add_right_comm, Nat.add_assoc]

end

/-! ## Names -/

/-- The text of a name, which is the constant or is in the string table. -/
def Name.Denotes (stabstr : List Byte) : Name → List Byte → Prop
  | .unknown, text => StringAt Kdebug.unknown 0 text
  | .stabstr off, text => off.toNat < stabstr.length ∧ StringAt stabstr off.toNat text

/-- The part of a name before its first colon. -/
def beforeColon (text : List Byte) : List Byte := text.takeWhile (· ≠ ascii ':')

variable {stabstr : List Byte}

theorem unknown_denotes (stabstr : List Byte) :
    Name.unknown.Denotes stabstr (asciis ['<', 'u', 'n', 'k', 'n', 'o', 'w', 'n', '>']) :=
  ⟨by decide, [], rfl⟩

/-- A pointer into the string table points inside it. -/
def Name.InTable (stabstr : List Byte) : Name → Prop
  | .unknown => True
  | .stabstr off => off.toNat < stabstr.length

/-- An index that is checked against the length of the table. -/
theorem inTable_of_check (off : BitVec 32) :
    (if off.toNat < stabstr.length then Name.stabstr off else .unknown).InTable stabstr := by
  split_ifs with hoff
  · exact hoff
  · trivial

theorem Name.InTable.exists_denotes {name : Name} (h : name.InTable stabstr)
    (hstr : stabstr.getLast? = some 0) : ∃ text, name.Denotes stabstr text := by
  cases name with
  | unknown => exact ⟨_, unknown_denotes stabstr⟩
  | stabstr off =>
      obtain ⟨text, htext⟩ := exists_stringAt hstr h
      exact ⟨text, h, htext⟩

/-- The length of a name up to its colon. -/
theorem Name.colon_of_denotes {name : Name} {text : List Byte} (h : name.Denotes stabstr text) :
    name.colon stabstr = .ok ((beforeColon text).length : Int) := by
  cases name with
  | unknown =>
      rw [Name.colon, strfind_stringAt (ascii ':') h]
      simp [beforeColon]
  | stabstr off =>
      rw [Name.colon, strfind_stringAt (ascii ':') h.2]
      simp [beforeColon]

end JosKernel.Kdebug
