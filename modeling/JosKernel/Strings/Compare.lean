import JosKernel.Printf.Format
import Mathlib.Data.List.Lex

/-!
# `strcmp`, `strncmp` and `memcmp`

The three comparisons of `lib/string.c` are one order of strings: that of their unsigned
bytes, the NUL among them.

## The model

* A string is the list of the bytes that can be read from its address on.  Reading past
  its end is `none`.
* `char` is signed: the loops compare signed values, and the result is a difference of
  unsigned ones.
-/

namespace JosKernel.Strings

open Printf (CString)

/-! ## The code -/

/-- `(int) ((unsigned char) *p - (unsigned char) *q)`. -/
def unsignedDiff (b b' : Byte) : Int := (b.toNat : Int) - b'.toNat

/-- `strcmp(p, q)`. -/
def strcmp : List Byte → List Byte → Option Int
  | b :: p, b' :: q =>
      if b.toInt ≠ 0 ∧ b.toInt = b'.toInt then strcmp p q
      else some (unsignedDiff b b')
  | _, _ => none

/-- `strncmp(p, q, n)`. -/
def strncmp : List Byte → List Byte → Nat → Option Int
  | _, _, 0 => some 0
  | b :: p, b' :: q, n + 1 =>
      if b.toInt ≠ 0 ∧ b.toInt = b'.toInt then strncmp p q n
      else some (unsignedDiff b b')
  | _, _, _ + 1 => none

/-- `memcmp(v1, v2, n)`. -/
def memcmp : List Byte → List Byte → Nat → Option Int
  | _, _, 0 => some 0
  | b :: s1, b' :: s2, n + 1 =>
      if b.toNat ≠ b'.toNat then some (unsignedDiff b b')
      else memcmp s1 s2 n
  | _, _, _ + 1 => none

/-! ## The first difference -/

/-- The difference of two lists of bytes at the first place where they differ. -/
def difference : List Byte → List Byte → Int
  | b :: p, b' :: q => if b = b' then difference p q else unsignedDiff b b'
  | _, _ => 0

variable {p q : List Byte} {b b' : Byte} {n : Nat} {junk junk' : List Byte}

@[simp] theorem difference_cons_self (b : Byte) (p q : List Byte) :
    difference (b :: p) (b :: q) = difference p q := if_pos rfl

theorem difference_cons_of_ne (h : b ≠ b') (p q : List Byte) :
    difference (b :: p) (b' :: q) = unsignedDiff b b' := if_neg h

theorem difference_comm (p q : List Byte) : difference q p = -difference p q := by
  induction p generalizing q with
  | nil => cases q <;> rfl
  | cons b p ih =>
      cases q with
      | nil => rfl
      | cons b' q =>
          by_cases h : b = b'
          · rw [h, difference_cons_self, difference_cons_self, ih]
          · rw [difference_cons_of_ne h, difference_cons_of_ne (Ne.symm h), unsignedDiff,
              unsignedDiff, Int.neg_sub]

/-- The loops go on at a byte that both strings have. -/
theorem loop_test (b b' : Byte) : b.toInt ≠ 0 ∧ b.toInt = b'.toInt ↔ b ≠ 0 ∧ b = b' := by
  have hzero : b.toInt = 0 ↔ b = 0 := by rw [← BitVec.toInt_inj]; rfl
  rw [ne_eq, hzero, BitVec.toInt_inj]

theorem strcmp_cons (b b' : Byte) (p q : List Byte) :
    strcmp (b :: p) (b' :: q) =
      if b ≠ 0 ∧ b = b' then strcmp p q else some (unsignedDiff b b') :=
  if_congr (loop_test b b') rfl rfl

theorem strcmp_cons_self (hb : b ≠ 0) (p q : List Byte) : strcmp (b :: p) (b :: q) = strcmp p q :=
  (strcmp_cons b b p q).trans (if_pos ⟨hb, rfl⟩)

theorem strcmp_cons_of_ne (h : b ≠ b') (p q : List Byte) :
    strcmp (b :: p) (b' :: q) = some (unsignedDiff b b') :=
  (strcmp_cons b b' p q).trans (if_neg fun htest ↦ h htest.2)

theorem strncmp_cons_self (hb : b ≠ 0) (p q : List Byte) (n : Nat) :
    strncmp (b :: p) (b :: q) (n + 1) = strncmp p q n := if_pos ((loop_test b b).mpr ⟨hb, rfl⟩)

theorem strncmp_cons_of_ne (h : b ≠ b') (p q : List Byte) (n : Nat) :
    strncmp (b :: p) (b' :: q) (n + 1) = some (unsignedDiff b b') :=
  if_neg fun htest ↦ h ((loop_test b b').mp htest).2

theorem memcmp_cons_self (b : Byte) (p q : List Byte) (n : Nat) :
    memcmp (b :: p) (b :: q) (n + 1) = memcmp p q n := if_neg (not_not_intro rfl)

theorem memcmp_cons_of_ne (h : b ≠ b') (p q : List Byte) (n : Nat) :
    memcmp (b :: p) (b' :: q) (n + 1) = some (unsignedDiff b b') :=
  if_pos (mt BitVec.eq_of_toNat_eq h)

/-- Two strings, up to the first place where they differ. -/
theorem strings_induction {motive : List Byte → List Byte → Prop} (nil : motive [] [])
    (differ : ∀ p q, p.headD 0 ≠ q.headD 0 → motive p q)
    (cons : ∀ b p q, b ≠ 0 → motive p q → motive (b :: p) (b :: q)) :
    ∀ p q, 0 ∉ p → 0 ∉ q → motive p q
  | [], [], _, _ => nil
  | [], b' :: q, _, hq => differ [] (b' :: q) (List.ne_of_not_mem_cons hq)
  | b :: p, [], hp, _ => differ (b :: p) [] (List.ne_of_not_mem_cons hp).symm
  | b :: p, b' :: q, hp, hq =>
      if h : b = b' then
        h ▸ cons b p q (List.ne_of_not_mem_cons hp).symm
          (strings_induction nil differ cons p q (List.not_mem_of_not_mem_cons hp)
            (List.not_mem_of_not_mem_cons hq))
      else differ (b :: p) (b' :: q) h

/-- The first byte of a string, which may be its NUL. -/
theorem exists_cons_of_string (p junk : List Byte) :
    ∃ rest, p ++ 0 :: junk = p.headD 0 :: rest := by
  cases p with
  | nil => exact ⟨junk, rfl⟩
  | cons b p => exact ⟨p ++ 0 :: junk, rfl⟩

theorem difference_of_head_ne (h : p.headD 0 ≠ q.headD 0) :
    difference (p ++ [0]) (q ++ [0]) = unsignedDiff (p.headD 0) (q.headD 0) := by
  obtain ⟨rest, hp⟩ := exists_cons_of_string p []
  obtain ⟨rest', hq⟩ := exists_cons_of_string q []
  rw [hp, hq, difference_cons_of_ne h]

theorem headD_take (p : List Byte) (n : Nat) : (p.take (n + 1)).headD 0 = p.headD 0 := by
  cases p <;> rfl

/-- **`strcmp`** returns the first difference, and reads nothing behind a NUL. -/
theorem strcmp_eq (hp : 0 ∉ p) (hq : 0 ∉ q) (junk junk' : List Byte) :
    strcmp (p ++ 0 :: junk) (q ++ 0 :: junk') = some (difference (p ++ [0]) (q ++ [0])) := by
  refine strings_induction (motive := fun p q ↦ strcmp (p ++ 0 :: junk) (q ++ 0 :: junk') =
    some (difference (p ++ [0]) (q ++ [0]))) rfl ?_ ?_ p q hp hq
  · intro p q h
    obtain ⟨rest, hp⟩ := exists_cons_of_string p junk
    obtain ⟨rest', hq⟩ := exists_cons_of_string q junk'
    rw [hp, hq, strcmp_cons_of_ne h, difference_of_head_ne h]
  · intro b p q hb ih
    exact (strcmp_cons_self hb _ _).trans
      (ih.trans (congrArg some (difference_cons_self b _ _).symm))

/-- **`strncmp`** returns the first difference of the truncated strings. -/
theorem strncmp_eq (hp : 0 ∉ p) (hq : 0 ∉ q) (junk junk' : List Byte) (n : Nat) :
    strncmp (p ++ 0 :: junk) (q ++ 0 :: junk') n =
      some (difference (p.take n ++ [0]) (q.take n ++ [0])) := by
  refine strings_induction (motive := fun p q ↦ ∀ n, strncmp (p ++ 0 :: junk) (q ++ 0 :: junk') n =
    some (difference (p.take n ++ [0]) (q.take n ++ [0]))) ?_ ?_ ?_ p q hp hq n
  · rintro (_ | n) <;> rfl
  · rintro p q h (_ | n)
    · rw [strncmp, List.take_zero, List.take_zero]
      rfl
    · obtain ⟨rest, hp⟩ := exists_cons_of_string p junk
      obtain ⟨rest', hq⟩ := exists_cons_of_string q junk'
      rw [difference_of_head_ne (by rwa [headD_take, headD_take]), headD_take, headD_take, hp, hq,
        strncmp_cons_of_ne h]
  · rintro b p q hb ih (_ | n)
    · rw [strncmp, List.take_zero, List.take_zero]
      rfl
    · exact (strncmp_cons_self hb _ _ n).trans
        ((ih n).trans (congrArg some (difference_cons_self b _ _).symm))

/-- **`memcmp`** does the same up to the shorter string's NUL. -/
theorem memcmp_eq (hp : 0 ∉ p) (hq : 0 ∉ q) (junk junk' : List Byte)
    (hn : n ≤ min p.length q.length + 1) :
    memcmp (p ++ 0 :: junk) (q ++ 0 :: junk') n =
      some (difference (p.take n ++ [0]) (q.take n ++ [0])) := by
  refine strings_induction (motive := fun p q ↦ ∀ n, n ≤ min p.length q.length + 1 →
    memcmp (p ++ 0 :: junk) (q ++ 0 :: junk') n =
      some (difference (p.take n ++ [0]) (q.take n ++ [0]))) ?_ ?_ ?_ p q hp hq n hn
  · rintro (_ | n) hn
    · rw [memcmp]
      rfl
    -- the NUL is the last byte compared
    · obtain rfl : n = 0 := by simpa using hn
      exact (memcmp_cons_self 0 _ _ 0).trans (by rw [memcmp]; rfl)
  · rintro p q h (_ | n) hn
    · rw [memcmp, List.take_zero, List.take_zero]
      rfl
    · obtain ⟨rest, hp⟩ := exists_cons_of_string p junk
      obtain ⟨rest', hq⟩ := exists_cons_of_string q junk'
      rw [difference_of_head_ne (by rwa [headD_take, headD_take]), headD_take, headD_take, hp, hq,
        memcmp_cons_of_ne h]
  · rintro b p q hb ih (_ | n) hn
    · rw [memcmp, List.take_zero, List.take_zero]
      rfl
    · have hle : n ≤ min p.length q.length + 1 := by
        rw [List.length_cons, List.length_cons] at hn
        omega
      exact (memcmp_cons_self b _ _ n).trans
        ((ih n hle).trans (congrArg some (difference_cons_self b _ _).symm))

/-! ## The order -/

/-- The bytes of a string and its NUL, as they are compared. -/
def unsignedBytes (s : CString) : List Nat := (s.bytes ++ [0]).map BitVec.toNat

/-- The string up to `n` bytes. -/
def truncate (s : CString) (n : Nat) : CString where
  bytes := s.bytes.take n
  ne_zero := fun b hb ↦ s.ne_zero b (List.mem_of_mem_take hb)

theorem unsignedDiff_eq_zero_iff : unsignedDiff b b' = 0 ↔ b = b' := by
  rw [unsignedDiff, Int.sub_eq_zero, Int.natCast_inj, BitVec.toNat_inj]

/-- There is a first difference unless the strings are equal. -/
theorem difference_eq_zero_iff (hp : 0 ∉ p) (hq : 0 ∉ q) :
    difference (p ++ [0]) (q ++ [0]) = 0 ↔ p = q := by
  refine strings_induction (motive := fun p q ↦ difference (p ++ [0]) (q ++ [0]) = 0 ↔ p = q)
    ?_ ?_ ?_ p q hp hq
  · exact iff_of_true rfl rfl
  · intro p q h
    rw [difference_of_head_ne h, unsignedDiff_eq_zero_iff]
    exact iff_of_false h fun heq ↦ h (congrArg (List.headD · 0) heq)
  · intro b p q hb ih
    rw [List.cons_append, List.cons_append, difference_cons_self, ih, List.cons.injEq,
      and_iff_right rfl]

theorem unsignedDiff_neg_iff : unsignedDiff b b' < 0 ↔ b.toNat < b'.toNat := by
  rw [unsignedDiff]
  omega

/-- The first difference has the sign of the lexicographic order. -/
theorem difference_neg_iff (hp : 0 ∉ p) (hq : 0 ∉ q) :
    difference (p ++ [0]) (q ++ [0]) < 0 ↔
      (p ++ [0]).map BitVec.toNat < (q ++ [0]).map BitVec.toNat := by
  refine strings_induction (motive := fun p q ↦ difference (p ++ [0]) (q ++ [0]) < 0 ↔
    (p ++ [0]).map BitVec.toNat < (q ++ [0]).map BitVec.toNat) ?_ ?_ ?_ p q hp hq
  · simp [difference]
  · intro p q h
    obtain ⟨rest, hp⟩ := exists_cons_of_string p []
    obtain ⟨rest', hq⟩ := exists_cons_of_string q []
    have hne : (p.headD 0).toNat ≠ (q.headD 0).toNat := mt BitVec.eq_of_toNat_eq h
    rw [difference_of_head_ne h, hp, hq, List.map_cons, List.map_cons, List.cons_lt_cons_iff,
      unsignedDiff_neg_iff]
    exact (or_iff_left fun htail ↦ hne htail.1).symm
  · intro b p q hb ih
    rw [List.cons_append, List.cons_append, difference_cons_self, ih, List.map_cons, List.map_cons,
      List.cons_lt_cons_iff]
    simp

/-- The comparison of two strings. -/
def compareStrings (p q : CString) : Int := difference (p.bytes ++ [0]) (q.bytes ++ [0])

theorem compareStrings_comm (p q : CString) : compareStrings q p = -compareStrings p q :=
  difference_comm _ _

theorem compareStrings_neg_iff (p q : CString) :
    compareStrings p q < 0 ↔ unsignedBytes p < unsignedBytes q :=
  difference_neg_iff p.zero_not_mem q.zero_not_mem

theorem compareStrings_pos_iff (p q : CString) :
    0 < compareStrings p q ↔ unsignedBytes q < unsignedBytes p := by
  rw [← compareStrings_neg_iff, compareStrings_comm p q]
  omega

theorem compareStrings_le_iff (p q : CString) :
    compareStrings p q ≤ 0 ↔ unsignedBytes p ≤ unsignedBytes q := by
  rw [← Int.not_lt, ← not_lt, compareStrings_pos_iff]

theorem compareStrings_eq_zero_iff (p q : CString) :
    compareStrings p q = 0 ↔ p.bytes = q.bytes :=
  difference_eq_zero_iff p.zero_not_mem q.zero_not_mem

/-- **The comparison routines are one order.**  For any strings `p`, `q` and `r`, with
anything behind their NULs. -/
theorem comparisons_agree (p q r : CString) (junk junk' junk'' : List Byte) :
    ∃ v v' v'' : Int, strcmp (p.bytes ++ 0 :: junk) (q.bytes ++ 0 :: junk') = some v ∧
      strcmp (q.bytes ++ 0 :: junk') (r.bytes ++ 0 :: junk'') = some v' ∧
      strcmp (p.bytes ++ 0 :: junk) (r.bytes ++ 0 :: junk'') = some v'' ∧
      -- the order of the unsigned bytes
      (v < 0 ↔ unsignedBytes p < unsignedBytes q) ∧ (0 < v ↔ unsignedBytes q < unsignedBytes p) ∧
      (v = 0 ↔ p.bytes = q.bytes) ∧
      strcmp (q.bytes ++ 0 :: junk') (p.bytes ++ 0 :: junk) = some (-v) ∧
      (v ≤ 0 → v' ≤ 0 → v'' ≤ 0) ∧ (v < 0 → v' < 0 → v'' < 0) ∧
      -- the other two routines
      ∀ n, (∃ w, strncmp (p.bytes ++ 0 :: junk) (q.bytes ++ 0 :: junk') n = some w ∧
          strcmp ((truncate p n).bytes ++ [0]) ((truncate q n).bytes ++ [0]) = some w) ∧
        (n ≤ min p.bytes.length q.bytes.length + 1 →
          memcmp (p.bytes ++ 0 :: junk) (q.bytes ++ 0 :: junk') n =
            strncmp (p.bytes ++ 0 :: junk) (q.bytes ++ 0 :: junk') n) := by
  have hp := p.zero_not_mem
  have hq := q.zero_not_mem
  have hr := r.zero_not_mem
  refine ⟨compareStrings p q, compareStrings q r, compareStrings p r, strcmp_eq hp hq _ _,
    strcmp_eq hq hr _ _, strcmp_eq hp hr _ _, compareStrings_neg_iff p q,
    compareStrings_pos_iff p q, compareStrings_eq_zero_iff p q, ?_, ?_, ?_, fun n ↦ ⟨?_, fun hn ↦ ?_⟩⟩
  · rw [← compareStrings_comm]
    exact strcmp_eq hq hp _ _
  · rw [compareStrings_le_iff, compareStrings_le_iff, compareStrings_le_iff]
    exact le_trans
  · rw [compareStrings_neg_iff, compareStrings_neg_iff, compareStrings_neg_iff]
    exact lt_trans
  · have hcut := strcmp_eq (truncate p n).zero_not_mem (truncate q n).zero_not_mem [] []
    exact ⟨_, strncmp_eq hp hq _ _ n, hcut⟩
  · rw [memcmp_eq hp hq _ _ hn, strncmp_eq hp hq]

end JosKernel.Strings
