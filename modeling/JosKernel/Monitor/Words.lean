import JosKernel.Monitor.Runcmd
import JosKernel.Strings.Compare

/-!
# The words of a command line

`runcmd` overwrites a separator only in the pass after the word before it has been saved:
between two passes the last word is not terminated yet, but the others are.  `AtArg` is
what holds between passes, of the line as it was and the arguments so far.  The loop ends
with all the words in `argv` (`parse_words`), or with one too many (`parse_tooMany`).
-/

namespace JosKernel.Monitor

open Console Printf

/-- Tab, carriage return, newline and space. -/
def isSpace (b : Byte) : Bool := b = ascii '\t' || b = ascii '\r' || b = ascii '\n' || b = ascii ' '

/-- The words of a line. -/
def words (line : CString) : List (List Byte) := tokens isSpace line.bytes

/-! ## Strings -/

theorem strchr_eq_none_iff (s : List Byte) (c : Byte) : strchr s c = none ↔ c ∉ s := by
  induction s with
  | nil => simp [strchr]
  | cons b s ih =>
      rw [strchr]
      by_cases h : b = c
      · simp [h]
      · rw [if_neg h, Option.map_eq_none_iff, ih, List.mem_cons, not_or]
        exact (and_iff_right (Ne.symm h)).symm

theorem strchr_whitespace (b : Byte) : strchr whitespace b = none ↔ isSpace b = false := by
  rw [strchr_eq_none_iff]
  revert b
  decide

theorem isSpace_ne_zero {b : Byte} (h : isSpace b = true) : b ≠ 0 := by
  rintro rfl
  exact absurd h (by decide)

/-! ## The line -/

theorem load_append (pre : List Byte) (b : Byte) (post : List Byte) :
    load (pre ++ b :: post) pre.length = .ok b := by
  rw [load, dif_pos (by simp)]
  simp

theorem store_append (pre : List Byte) (b c : Byte) (post : List Byte) :
    store (pre ++ b :: post) pre.length c = .ok (pre ++ c :: post) := by
  rw [store, if_pos (by simp)]
  simp

theorem load_of_drop {buf rest : List Byte} {p : Nat} {b : Byte} (h : buf.drop p = b :: rest) :
    load buf p = .ok b := by
  have hget : buf[p]? = some b := by
    rw [← List.head?_drop, h]
    rfl
  obtain ⟨hlt, hb⟩ := List.getElem?_eq_some_iff.mp hget
  rw [load, dif_pos hlt, hb]

/-- On the line, `strcmp` is the comparison of any two strings. -/
theorem strcmp_of_strings {buf q : List Byte} {p : Nat} {v : Int}
    (h : Strings.strcmp (buf.drop p) (q ++ [0]) = some v) : strcmp buf p q = .ok v := by
  induction q generalizing p with
  | nil =>
      cases hdrop : buf.drop p with
      | nil =>
          rw [hdrop] at h
          cases h
      | cons b rest =>
          rw [hdrop, List.nil_append, Strings.strcmp_cons, if_neg (fun hgo ↦ hgo.1 hgo.2)] at h
          rw [strcmp, load_of_drop hdrop, ← Option.some.inj h, Strings.unsignedDiff]
          exact congrArg Except.ok (Int.sub_zero _).symm
  | cons c q ih =>
      cases hdrop : buf.drop p with
      | nil =>
          rw [hdrop] at h
          cases h
      | cons b rest =>
          have hnext : buf.drop (p + 1) = rest := by
            rw [← List.drop_drop, hdrop]
            rfl
          rw [hdrop, List.cons_append, Strings.strcmp_cons] at h
          rw [strcmp, load_of_drop hdrop, Result.ok_bind]
          split_ifs at h ⊢
          · exact ih (hnext ▸ h)
          · cases h
            rfl

/-- `strcmp` of a word and a name. -/
theorem strcmp_eq {buf t q : List Byte} {p : Nat} (h : Cut 0 buf p t) (hq : 0 ∉ q) :
    ∃ n, strcmp buf p q = .ok n ∧ (n = 0 ↔ t = q) := by
  obtain ⟨after, hdrop⟩ := h.drop_eq
  have hcmp := Strings.strcmp_eq h.not_mem hq after []
  rw [← hdrop] at hcmp
  exact ⟨_, strcmp_of_strings hcmp, Strings.difference_eq_zero_iff h.not_mem hq⟩

/-! ## The inner loops -/

theorem gobble_of_load {buf : List Byte} {p : Nat} {b : Byte} (h : load buf p = .ok b) :
    gobble buf p =
      if isSpace b = true then do
        let buf ← store buf p 0
        gobble buf (p + 1)
      else .ok (buf, p) := by
  have hgo : b ≠ 0 ∧ strchr whitespace b ≠ none ↔ isSpace b = true := by
    rw [Ne.eq_def (strchr _ _), strchr_whitespace, Bool.not_eq_false]
    exact and_iff_right_of_imp isSpace_ne_zero
  rw [gobble]
  split
  next h' => cases h.symm.trans h'
  next b' h' =>
    cases h.symm.trans h'
    refine if_congr hgo ?_ rfl
    split
    next hstore => rw [hstore]; rfl
    next hstore => rw [hstore]; rfl

theorem skip_of_load {buf : List Byte} {p : Nat} {b : Byte} (h : load buf p = .ok b) :
    skip buf p = if b ≠ 0 ∧ isSpace b = false then skip buf (p + 1) else .ok p := by
  rw [skip]
  split
  next h' => cases h.symm.trans h'
  next b' h' =>
    cases h.symm.trans h'
    exact if_congr (and_congr_right fun _ ↦ strchr_whitespace b) rfl rfl

/-- The separators at the front, as many NULs. -/
def blank (rest : List Byte) : List Byte := List.replicate (rest.takeWhile isSpace).length 0

theorem blank_of_pos {b : Byte} (h : isSpace b = true) (rest : List Byte) :
    blank (b :: rest) = 0 :: blank rest := by
  rw [blank, List.takeWhile_cons_of_pos h]
  rfl

theorem blank_of_neg {b : Byte} (h : ¬ isSpace b = true) (rest : List Byte) :
    blank (b :: rest) = [] := by
  rw [blank, List.takeWhile_cons_of_neg h]
  rfl

/-- Separators are overwritten. -/
theorem gobble_eq (pre rest : List Byte) :
    gobble (pre ++ rest ++ [0]) pre.length =
      .ok (pre ++ blank rest ++ rest.dropWhile isSpace ++ [0], (pre ++ blank rest).length) := by
  induction rest generalizing pre with
  | nil =>
      rw [List.append_nil, gobble_of_load (load_append pre 0 []), if_neg (by decide)]
      simp [blank]
  | cons b rest ih =>
      rw [List.append_assoc, List.cons_append, gobble_of_load (load_append _ _ _), store_append,
        Result.ok_bind]
      by_cases h : isSpace b = true
      · have hnext := ih (pre ++ [0])
        rw [List.append_assoc, List.append_assoc, List.singleton_append,
          List.length_append] at hnext
        rw [if_pos h, blank_of_pos h, List.dropWhile_cons_of_pos h]
        simpa using hnext
      · rw [if_neg h, blank_of_neg h, List.dropWhile_cons_of_neg h]
        simp

/-- A word is passed over. -/
theorem skip_eq (pre : List Byte) {rest : List Byte} (hzero : 0 ∉ rest) :
    skip (pre ++ rest ++ [0]) pre.length =
      .ok (pre ++ rest.takeWhile (!isSpace ·)).length := by
  induction rest generalizing pre with
  | nil =>
      rw [List.append_nil, skip_of_load (load_append pre 0 []), if_neg (fun h ↦ h.1 rfl)]
      simp
  | cons b rest ih =>
      rw [List.append_assoc, List.cons_append, skip_of_load (load_append _ _ _)]
      have hb : b ≠ 0 := fun hb ↦ hzero (by rw [hb]; simp)
      by_cases h : isSpace b = true
      · rw [if_neg (by simp [h]), List.takeWhile_cons_of_neg (by simpa using h), List.append_nil]
      · have hnext := ih (pre ++ [b]) (List.not_mem_of_not_mem_cons hzero)
        rw [if_pos ⟨hb, by simpa using h⟩, List.takeWhile_cons_of_pos (by simpa using h)]
        simpa using hnext

/-! ## `argv` -/

/-- The first elements of `argv` point to the given words. -/
def Holds (argv : Argv) (buf : List Byte) (ts : List (List Byte)) : Prop :=
  ∀ (i : Nat) (t : List Byte), ts[i]? = some t → ∃ p, argv[i]? = some (some p) ∧ Cut 0 buf p t

theorem setArg_eq (argv : Argv) {i : Nat} (h : i < maxArgs) (p : Option Nat) :
    setArg argv i p = .ok (argv.set i p h) := dif_pos h

section

variable {argv : Argv} {buf : List Byte} {ts : List (List Byte)}

theorem holds_nil (argv : Argv) (buf : List Byte) : Holds argv buf [] := by
  intro i t hi
  cases hi

theorem Holds.append (h : Holds argv buf ts) (x : List Byte) : Holds argv (buf ++ x) ts := by
  intro i t hi
  obtain ⟨p, hp, hcut⟩ := h i t hi
  exact ⟨p, hp, hcut.append x⟩

/-- The element behind the words is free. -/
theorem Holds.set (h : Holds argv buf ts) (hlt : ts.length < maxArgs) (q : Option Nat) :
    Holds (argv.set ts.length q hlt) buf ts := by
  intro i t hi
  obtain ⟨p, hp, hcut⟩ := h i t hi
  have hne : ts.length ≠ i := Nat.ne_of_gt (List.getElem?_eq_some_iff.mp hi).1
  exact ⟨p, by rw [Vector.getElem?_set_ne hlt hne, hp], hcut⟩

/-- A word is saved. -/
theorem Holds.snoc (h : Holds argv buf ts) (hlt : ts.length < maxArgs) {p : Nat} {t : List Byte}
    (hcut : Cut 0 buf p t) : Holds (argv.set ts.length (some p) hlt) buf (ts ++ [t]) := by
  intro i t' hi
  rcases Nat.lt_trichotomy i ts.length with hi' | rfl | hi'
  · rw [List.getElem?_append_left hi'] at hi
    exact h.set hlt (some p) i t' hi
  · rw [List.getElem?_concat_length] at hi
    cases hi
    exact ⟨p, Vector.getElem?_set_self hlt, hcut⟩
  · rw [List.getElem?_eq_none (by rw [List.length_append, List.length_singleton]; omega)] at hi
    cases hi

end

/-! ## The loop -/

theorem parse_of_gobble {buf buf' : List Byte} {p p' : Nat} {b : Byte}
    (hgobble : gobble buf p = .ok (buf', p')) (hload : load buf' p' = .ok b) (argc : Nat)
    (argv : Argv) :
    parse buf p argc argv =
      if b = 0 then .ok (.args buf' argc argv)
      else if argc = maxArgs - 1 then .ok .tooMany
      else (do
        let argv ← setArg argv argc (some p')
        let p' ← skip buf' p'
        parse buf' p' (argc + 1) argv) := by
  rw [parse, hgobble]
  simp only [hload]
  split_ifs
  · rfl
  · rfl
  · split
    next hset => rw [hset]; rfl
    next hset =>
      rw [hset, Result.ok_bind]
      split
      next hskip => rw [hskip]; rfl
      next hskip => rw [hskip]; rfl

/-- Between two passes: the line has been read up to `rest`, and what has been read is
`pre` now.  The words `ts` are in `argv`, the last of them if it is terminated. -/
structure AtArg (line : CString) (pre rest : List Byte) (ts : List (List Byte)) (argv : Argv) :
    Prop where
  words_eq : words line = ts ++ tokens isSpace rest
  zero : 0 ∉ rest
  /-- The last word ends here. -/
  boundary : ts = [] ∨ ∀ b ∈ rest.head?, isSpace b = true
  holds : Holds argv (pre ++ [0]) ts

section

variable {line : CString} {pre rest : List Byte} {ts : List (List Byte)} {argv : Argv}

theorem atArg_start (line : CString) (argv : Argv) : AtArg line [] line.bytes [] argv where
  words_eq := rfl
  zero := line.zero_not_mem
  boundary := .inl rfl
  holds := holds_nil argv _

/-- After the separators, the words so far are terminated. -/
theorem AtArg.holds_blank (h : AtArg line pre rest ts argv) {b : Byte} {r : List Byte}
    (hdrop : rest.dropWhile isSpace = b :: r) : Holds argv (pre ++ blank rest) ts := by
  rcases h.boundary with rfl | hspace
  · exact holds_nil argv _
  · cases rest with
    | nil => cases hdrop
    | cons c rest =>
        have hholds := h.holds.append (blank rest)
        rw [blank_of_pos (hspace c rfl)]
        rwa [List.append_assoc, List.singleton_append] at hholds

/-- At the end of the line all words are terminated. -/
theorem AtArg.parse_end (h : AtArg line pre rest ts argv) (hdrop : rest.dropWhile isSpace = []) :
    words line = ts ∧ ∃ buf, parse (pre ++ rest ++ [0]) pre.length ts.length argv =
      .ok (.args buf ts.length argv) ∧ Holds argv buf ts := by
  have hgobble := gobble_eq pre rest
  rw [hdrop, List.append_nil] at hgobble
  refine ⟨?_, pre ++ blank rest ++ [0], ?_, ?_⟩
  · rw [h.words_eq, tokens_eq_nil hdrop, List.append_nil]
  · rw [parse_of_gobble hgobble (load_append _ _ _), if_pos rfl]
  · have hblank : pre ++ blank rest ++ [0] = pre ++ [0] ++ blank rest := by
      rw [List.append_assoc, blank, ← List.replicate_succ', List.replicate_succ, List.append_assoc]
      rfl
    rw [hblank]
    exact h.holds.append _

section

variable {b : Byte} {r : List Byte} (hdrop : rest.dropWhile isSpace = b :: r)

include hdrop

theorem AtArg.not_mem (h : AtArg line pre rest ts argv) : 0 ∉ b :: r :=
  fun hmem ↦ h.zero ((List.dropWhile_suffix isSpace).subset (hdrop ▸ hmem))

theorem AtArg.ne_zero (h : AtArg line pre rest ts argv) : b ≠ 0 := by
  rintro rfl
  exact h.not_mem hdrop List.mem_cons_self

/-- The pass is at another word. -/
theorem AtArg.parse_eq (h : AtArg line pre rest ts argv) :
    parse (pre ++ rest ++ [0]) pre.length ts.length argv =
      if ts.length = maxArgs - 1 then .ok .tooMany
      else (do
        let argv ← setArg argv ts.length (some (pre ++ blank rest).length)
        parse (pre ++ blank rest ++ (b :: r) ++ [0])
          (pre ++ blank rest ++ (b :: r).takeWhile (!isSpace ·)).length (ts.length + 1) argv) := by
  have hgobble := gobble_eq pre rest
  have hload := load_append (pre ++ blank rest) b (r ++ [0])
  rw [hdrop] at hgobble
  rw [← List.cons_append, ← List.append_assoc] at hload
  rw [parse_of_gobble hgobble hload, if_neg (h.ne_zero hdrop), skip_eq _ (h.not_mem hdrop)]
  rfl

/-- There is no room for it. -/
theorem AtArg.parse_full (h : AtArg line pre rest ts argv) (hfull : ts.length = maxArgs - 1) :
    maxArgs ≤ (words line).length ∧
      parse (pre ++ rest ++ [0]) pre.length ts.length argv = .ok .tooMany := by
  constructor
  · rw [h.words_eq, tokens_eq_cons hdrop, List.length_append, List.length_cons, hfull]
    omega
  · rw [h.parse_eq hdrop, if_pos hfull]

/-- It is saved. -/
theorem AtArg.parse_word (h : AtArg line pre rest ts argv) (hroom : ts.length < maxArgs - 1) :
    ∃ pre' rest' w argv', AtArg line pre' rest' (ts ++ [w]) argv' ∧
      tokens isSpace rest = w :: tokens isSpace rest' ∧
      parse (pre ++ rest ++ [0]) pre.length ts.length argv =
        parse (pre' ++ rest' ++ [0]) pre'.length (ts ++ [w]).length argv' := by
  have hlt : ts.length < maxArgs := by omega
  have hzero := h.not_mem hdrop
  have htokens := tokens_eq_cons hdrop
  have hparse := h.parse_eq hdrop
  have hhead := List.head?_dropWhile_not (!isSpace ·) (b :: r)
  have hsplit := List.takeWhile_append_dropWhile (p := (!isSpace ·)) (l := b :: r)
  -- the word is `w`, and the line goes on with `rest'`
  generalize (b :: r).takeWhile (!isSpace ·) = w at *
  generalize (b :: r).dropWhile (!isSpace ·) = rest' at *
  rw [← hsplit, List.mem_append, not_or] at hzero
  refine ⟨pre ++ blank rest ++ w, rest', w,
    argv.set ts.length (some (pre ++ blank rest).length) hlt,
    ⟨?_, hzero.2, .inr ?_, ?_⟩, htokens, ?_⟩
  · rw [h.words_eq, htokens, List.append_assoc]
    rfl
  · intro c hc
    rw [Option.mem_def.mp hc] at hhead
    simpa using hhead
  · have hold := (h.holds_blank hdrop).append (w ++ [0])
    rw [← List.append_assoc] at hold
    exact hold.snoc hlt (Cut.snoc hzero.1 _)
  · have hlength : (ts ++ [w]).length = ts.length + 1 := List.length_append
    rw [hparse, if_neg (Nat.ne_of_lt hroom), setArg_eq _ hlt, Result.ok_bind, ← hsplit, hlength]
    simp only [List.append_assoc]

end

/-- **The loop.**  From between two passes on, it ends with all the words, or there are too
many. -/
theorem AtArg.parse (h : AtArg line pre rest ts argv) (hlt : ts.length < maxArgs) :
    ((words line).length < maxArgs → ∃ buf argv',
        parse (pre ++ rest ++ [0]) pre.length ts.length argv =
          .ok (.args buf (words line).length argv') ∧ Holds argv' buf (words line)) ∧
      (maxArgs ≤ (words line).length →
        parse (pre ++ rest ++ [0]) pre.length ts.length argv = .ok .tooMany) := by
  -- on the words that are left
  generalize hleft : tokens isSpace rest = left
  induction left generalizing pre rest ts argv with
  | nil =>
      cases hdrop : rest.dropWhile isSpace with
      | nil =>
          obtain ⟨hwords, buf, hparse, hholds⟩ := h.parse_end hdrop
          rw [hwords]
          exact ⟨fun _ ↦ ⟨buf, argv, hparse, hholds⟩, fun hle ↦ absurd hlt (not_lt.mpr hle)⟩
      | cons b r => cases (tokens_eq_cons hdrop).symm.trans hleft
  | cons w left ih =>
      cases hdrop : rest.dropWhile isSpace with
      | nil => cases (tokens_eq_nil hdrop).symm.trans hleft
      | cons b r =>
          by_cases hfull : ts.length = maxArgs - 1
          · obtain ⟨hle, hparse⟩ := h.parse_full hdrop hfull
            exact ⟨fun hlt ↦ absurd hlt (not_lt.mpr hle), fun _ ↦ hparse⟩
          · have hroom : ts.length < maxArgs - 1 := by omega
            obtain ⟨pre', rest', w', argv', hnext, htokens, hparse⟩ := h.parse_word hdrop hroom
            rw [hparse]
            refine ih hnext ?_ (List.cons.inj (htokens.symm.trans hleft)).2
            rw [List.length_append, List.length_singleton]
            omega

end

end JosKernel.Monitor
