import JosKernel.Console.Queue
import JosKernel.Printf.Cprintf
import Mathlib.Data.List.TakeWhile

/-!
# `readline`

`readline` echoes the characters of a line and collects them in a buffer until a
newline.

## The model

* `cons_getc` returns any characters, one call after another; `getchar` waits for one
  that is not 0.  With no more characters `readline` waits.
* The buffer and the index `i` are one structure, with the bound of the index.
* What is echoed goes to the console, whose ports may return anything.
-/

namespace JosKernel.Console

open Printf (CString Code Stop cprintf)

/-! ## The code -/

/-- `getchar()`, where the calls of `cons_getc` return the given characters: the result,
and what is left of them. -/
def getchar : List Byte → Option (Int × List Byte)
  | [] => none
  | c :: polls => if c = 0 then getchar polls else some (c.toNat, polls)

theorem length_of_getchar {polls polls' : List Byte} {c : Int}
    (h : getchar polls = some (c, polls')) : polls'.length < polls.length := by
  induction polls with
  | nil => cases h
  | cons b polls ih =>
      rw [getchar] at h
      split_ifs at h
      · exact Nat.lt_succ_of_lt (ih h)
      · cases h
        exact Nat.lt_succ_self _

/-- `iscons(fdnum)`. -/
def iscons (_fdnum : Int) : Int := 1

/-- `BUFLEN`. -/
def bufLen : Nat := 1024

/-- `buf` and `i`. -/
structure Line where
  buf : Vector Byte bufLen
  i : Nat
  lt : i < bufLen

/-- `i--;` -/
def Line.erase (line : Line) : Line :=
  { line with
    i := line.i - 1
    lt := Nat.lt_of_le_of_lt (Nat.sub_le line.i 1) line.lt }

/-- `buf[i++] = c;` -/
def Line.append (line : Line) (c : Int) (h : line.i < bufLen - 1) : Line where
  buf := line.buf.set line.i (BitVec.ofInt 8 c) line.lt
  i := line.i + 1
  lt := Nat.add_lt_of_lt_sub h

/-- `buf[i] = 0;` -/
def Line.terminate (line : Line) : Vector Byte bufLen := line.buf.set line.i 0 line.lt

/-- How far a call of `readline` gets. -/
inductive Readline where
  /-- `getchar` waits. -/
  | waiting (line : Line) (m : Out)
  /-- It returns `NULL`. -/
  | null (buf : Vector Byte bufLen) (m : Out)
  /-- It returns `buf`. -/
  | line (buf : Vector Byte bufLen) (m : Out)

/-- `"read error: %e\n"`. -/
def readError : CString := .literal "read error: %e\n"

/-- `if (echoing) cputchar(c);` -/
def echo (dev : Device) (echoing : Int) (c : Int) (m : Out) : Out :=
  if echoing ≠ 0 then cputchar dev (BitVec.ofInt 32 c) m else m

/-- The loop of `readline`, with the characters that it has not read. -/
def readlineLoopLeft (dev : Device) (fuel : Nat) (echoing : Int) (polls : List Byte) (line : Line)
    (m : Out) : Except Stop (Readline × List Byte) :=
  match _h : getchar polls with
  | none => .ok (.waiting line m, [])
  | some (c, polls') =>
      if c < 0 then do
        let (_, m) ← cprintf dev fuel readError [.word (BitVec.ofInt 32 c)] m
        return (.null line.buf m, polls')
      else if (c = 0x08 ∨ c = 0x7F) ∧ 0 < line.i then
        readlineLoopLeft dev fuel echoing polls' line.erase (echo dev echoing 0x08 m)
      else if h : 0x20 ≤ c ∧ line.i < bufLen - 1 then
        readlineLoopLeft dev fuel echoing polls' (line.append c h.2) (echo dev echoing c m)
      else if c = 0x0A ∨ c = 0x0D then
        .ok (.line line.terminate (echo dev echoing 0x0A m), polls')
      else readlineLoopLeft dev fuel echoing polls' line m
termination_by polls.length
decreasing_by
  all_goals exact length_of_getchar _h

/-- The loop of `readline`. -/
def readlineLoop (dev : Device) (fuel : Nat) (echoing : Int) (polls : List Byte) (line : Line)
    (m : Out) : Except Stop Readline :=
  (readlineLoopLeft dev fuel echoing polls line m).map Prod.fst

/-- `"%s"`. -/
def promptFormat : CString := .literal "%s"

theorem bufLen_pos : 0 < bufLen := by decide

/-- `readline(prompt)`, with the characters that it has not read. -/
def readlineLeft (dev : Device) (fuel : Nat) (prompt : Option (List Byte)) (polls : List Byte)
    (buf : Vector Byte bufLen) (m : Out) : Except Stop (Readline × List Byte) := do
  let m ← match prompt with
    | none => pure m
    | some p => do
        let (_, m) ← cprintf dev fuel promptFormat [.str (some p)] m
        pure m
  readlineLoopLeft dev fuel (iscons 0) polls { buf, i := 0, lt := bufLen_pos } m

/-- `readline(prompt)`. -/
def readline (dev : Device) (fuel : Nat) (prompt : Option (List Byte)) (polls : List Byte)
    (buf : Vector Byte bufLen) (m : Out) : Except Stop Readline :=
  (readlineLeft dev fuel prompt polls buf m).map Prod.fst

/-! ## The characters -/

/-- One call of `getchar` after another returns the characters that are not 0. -/
theorem getchar_of_nonzero {polls cs : List Byte} {c : Byte} (h : nonzero polls = c :: cs) :
    ∃ polls', getchar polls = some ((c.toNat : Int), polls') ∧ nonzero polls' = cs := by
  induction polls with
  | nil => cases h
  | cons b polls ih =>
      rw [getchar]
      by_cases hb : b = 0
      · rw [hb, nonzero_zero] at h
        rw [if_pos hb]
        exact ih h
      · rw [nonzero_cons hb] at h
        cases h
        exact ⟨polls, if_neg hb, rfl⟩

/-! ## The line -/

/-- The characters on the line. -/
def Line.text (line : Line) : List Byte := line.buf.toList.take line.i

theorem Line.length_text (line : Line) : line.text.length = line.i := by
  have := line.lt
  rw [text, List.length_take, Vector.length_toList]
  omega

theorem Line.text_erase (line : Line) : line.erase.text = line.text.dropLast := by
  have := line.lt
  rw [text, text, List.dropLast_take (by rwa [Vector.length_toList])]
  rfl

theorem Line.text_append (line : Line) (c : Int) (h : line.i < bufLen - 1) :
    (line.append c h).text = line.text ++ [BitVec.ofInt 8 c] := by
  have hlt : line.i < line.buf.toList.length := by
    rw [Vector.length_toList]
    exact line.lt
  rw [text, text, append, Vector.toList_set, List.take_add_one, List.take_set_of_le (Nat.le_refl _),
    List.getElem?_set_self hlt]
  rfl

/-- The C string at the start of the buffer. -/
def cstring (buf : Vector Byte bufLen) : List Byte := buf.toList.takeWhile (· ≠ 0)

theorem Line.cstring_terminate {line : Line} (h : ∀ b ∈ line.text, b ≠ 0) :
    cstring line.terminate = line.text := by
  have hlt : line.i < line.buf.toList.length := by
    rw [Vector.length_toList]
    exact line.lt
  rw [cstring, terminate, Vector.toList_set,
    ← List.take_append_drop line.i (line.buf.toList.set _ _),
    List.take_set_of_le (Nat.le_refl _), List.drop_eq_getElem_cons (by rwa [List.length_set]),
    List.getElem_set_self, List.takeWhile_append_of_pos (fun b hb ↦ by simpa using h b hb),
    List.takeWhile_cons_of_neg (by simp), List.append_nil, text]

/-! ## One character -/

/-- The line after one more character, in the order of the tests of `readline`. -/
def lineStep (line : List Byte) (c : Byte) : List Byte :=
  if (c = 0x08 ∨ c = 0x7F) ∧ line ≠ [] then line.dropLast
  else if 0x20 ≤ c ∧ line.length < bufLen - 1 then line ++ [c]
  else line

/-- No NUL gets on the line. -/
theorem lineStep_ne_zero {line : List Byte} (h : ∀ b ∈ line, b ≠ 0) (c : Byte) :
    ∀ b ∈ lineStep line c, b ≠ 0 := by
  unfold lineStep
  split_ifs with herase happend
  · exact fun b hb ↦ h b (List.dropLast_subset line hb)
  · intro b hb
    rcases List.mem_append.mp hb with hb | hb
    · exact h b hb
    · rw [List.mem_singleton.mp hb]
      rintro rfl
      exact absurd happend.1 (by decide)
  · exact h

/-- The tests of `readline` on an `int` that is a character. -/
theorem char_tests (c : Byte) :
    ((c.toNat : Int) = 0x08 ↔ c = 0x08) ∧ ((c.toNat : Int) = 0x7F ↔ c = 0x7F) ∧
      (0x20 ≤ (c.toNat : Int) ↔ 0x20 ≤ c) ∧ ((c.toNat : Int) = 0x0A ↔ c = 0x0A) ∧
      ((c.toNat : Int) = 0x0D ↔ c = 0x0D) := by
  revert c
  decide

theorem room_of_test {line : Line} {c : Int} (h : 0x20 ≤ c ∧ line.i < bufLen - 1) :
    line.i < bufLen - 1 := h.2

/-- One turn of the loop, and what it echoes. -/
def turn (line : Line) (c : Int) : Line × List Code :=
  if (c = 0x08 ∨ c = 0x7F) ∧ 0 < line.i then (line.erase, [0x08])
  else if h : 0x20 ≤ c ∧ line.i < bufLen - 1 then
    (line.append c (room_of_test h), [BitVec.ofInt 32 c])
  else (line, [])

/-- On the characters of the line, a turn is `lineStep`. -/
theorem text_turn (line : Line) (c : Byte) : (turn line c.toNat).1.text = lineStep line.text c := by
  have hlen := line.length_text
  obtain ⟨hback, hdel, hspace, -, -⟩ := char_tests c
  have herase : ((c.toNat : Int) = 0x08 ∨ (c.toNat : Int) = 0x7F) ∧ 0 < line.i ↔
      (c = 0x08 ∨ c = 0x7F) ∧ line.text ≠ [] := by
    rw [← hlen, List.length_pos_iff]
    exact and_congr_left' (or_congr hback hdel)
  have happend : 0x20 ≤ (c.toNat : Int) ∧ line.i < bufLen - 1 ↔
      0x20 ≤ c ∧ line.text.length < bufLen - 1 := by
    rw [hlen]
    exact and_congr_left' hspace
  rw [turn, lineStep]
  by_cases he : ((c.toNat : Int) = 0x08 ∨ (c.toNat : Int) = 0x7F) ∧ 0 < line.i
  · rw [if_pos he, if_pos (herase.mp he)]
    exact line.text_erase
  rw [if_neg he, if_neg (mt herase.mpr he)]
  by_cases ha : 0x20 ≤ (c.toNat : Int) ∧ line.i < bufLen - 1
  · rw [dif_pos ha, if_pos (happend.mp ha), line.text_append, BitVec.ofInt_natCast,
      BitVec.ofNat_toNat, BitVec.setWidth_eq]
  · rw [dif_neg ha, if_neg (mt happend.mpr ha)]

section

variable {dev : Device} {fuel : Nat} {echoing : Int} {polls polls' : List Byte} {line : Line}
  {m : Out} {c : Byte}

/-- The loop waits when no character comes. -/
theorem readlineLoop_none (hget : getchar polls = none) :
    readlineLoop dev fuel echoing polls line m = .ok (.waiting line m) := by
  rw [readlineLoop, readlineLoopLeft]
  split
  · rfl
  next h => cases hget.symm.trans h

theorem readlineLoop_eq {c : Int} (hget : getchar polls = some (c, polls')) :
    readlineLoop dev fuel echoing polls line m =
      if c < 0 then do
        let (_, m) ← cprintf dev fuel readError [.word (BitVec.ofInt 32 c)] m
        return .null line.buf m
      else if (c = 0x08 ∨ c = 0x7F) ∧ 0 < line.i then
        readlineLoop dev fuel echoing polls' line.erase (echo dev echoing 0x08 m)
      else if h : 0x20 ≤ c ∧ line.i < bufLen - 1 then
        readlineLoop dev fuel echoing polls' (line.append c h.2) (echo dev echoing c m)
      else if c = 0x0A ∨ c = 0x0D then
        .ok (.line line.terminate (echo dev echoing 0x0A m))
      else readlineLoop dev fuel echoing polls' line m := by
  rw [readlineLoop, readlineLoopLeft]
  split
  next h => cases hget.symm.trans h
  next c' polls'' h =>
    cases hget.symm.trans h
    split_ifs
    · cases cprintf dev fuel readError [.word (BitVec.ofInt 32 c)] m <;> rfl
    all_goals rfl

/-- The loop takes a turn. -/
theorem readlineLoop_turn (hget : getchar polls = some ((c.toNat : Int), polls'))
    (hc : c ≠ 0x0A ∧ c ≠ 0x0D) :
    readlineLoop dev fuel (iscons 0) polls line m =
      readlineLoop dev fuel (iscons 0) polls' (turn line c.toNat).1
        (emit (cputchar dev) (turn line c.toNat).2 m) := by
  have hneg : ¬ (c.toNat : Int) < 0 := by omega
  obtain ⟨-, -, -, hnl, hcr⟩ := char_tests c
  have hnewline : ¬ ((c.toNat : Int) = 0x0A ∨ (c.toNat : Int) = 0x0D) := by
    rw [hnl, hcr, not_or]
    exact hc
  rw [readlineLoop_eq hget, if_neg hneg, turn]
  split_ifs <;> rfl

/-- The end of the line. -/
theorem readlineLoop_newline (hget : getchar polls = some ((c.toNat : Int), polls'))
    (hc : c = 0x0A ∨ c = 0x0D) :
    readlineLoop dev fuel echoing polls line m =
      .ok (.line line.terminate (echo dev echoing 0x0A m)) := by
  rw [readlineLoop_eq hget]
  rcases hc with rfl | rfl <;> rfl

/-- **A whole line.**  The buffer holds what `lineStep` makes of the characters. -/
theorem readlineLoop_line {cs rest : List Byte} (hpolls : nonzero polls = cs ++ c :: rest)
    (hcs : ∀ c ∈ cs, c ≠ 0x0A ∧ c ≠ 0x0D) (hc : c = 0x0A ∨ c = 0x0D)
    (hline : ∀ b ∈ line.text, b ≠ 0) :
    ∃ buf m', readlineLoop dev fuel (iscons 0) polls line m = .ok (.line buf m') ∧
      cstring buf = cs.foldl lineStep line.text := by
  induction cs generalizing polls line m with
  | nil =>
      obtain ⟨polls', hget, -⟩ := getchar_of_nonzero hpolls
      exact ⟨_, _, readlineLoop_newline hget hc, Line.cstring_terminate hline⟩
  | cons b cs ih =>
      obtain ⟨hb, hcs⟩ := List.forall_mem_cons.mp hcs
      obtain ⟨polls', hget, hpolls'⟩ := getchar_of_nonzero hpolls
      have htext := text_turn line b
      rw [readlineLoop_turn hget hb, List.foldl_cons, ← htext]
      exact ih hpolls' hcs (htext ▸ lineStep_ne_zero hline b)

end

/-- The prompt is printed. -/
theorem prompt_prints {p : List Byte} (hp : 0 ∈ p) (dev : Device) {fuel : Nat} (hfuel : 2 ≤ fuel)
    (m : Out) : ∃ r, cprintf dev fuel promptFormat [.str (some p)] m = .ok r := by
  obtain ⟨fuel, rfl⟩ := Nat.exists_eq_add_of_le' hfuel
  obtain ⟨s, junk, hs, hzero⟩ := List.eq_append_cons_of_mem hp
  have hat : promptFormat.At 0 [ascii '%', ascii 's'] := .start promptFormat
  have hswitch : Printf.reswitch promptFormat 1 [.str (some p)] {} =
      .ok (ascii 's', 2, [.str (some p)], {}) :=
    Printf.reswitch_stop hat.tail.read (by decide) _ _
  have hescapes := Printf.string_escapes hat.read hswitch hs hzero
  have hend := hat.tail.tail.read
  have hW := (hescapes.vprintfmt_eq record (fuel + 1) []).trans (Printf.vprintfmt_nul hend fuel _ _)
  exact ⟨_, by rw [cprintf, Printf.vcprintf_eq hW]; rfl⟩

/-- **A call of `readline`.**  It returns a line that `lineStep` makes of the characters. -/
theorem readline_line {prompt : Option (List Byte)} (hprompt : ∀ p ∈ prompt, 0 ∈ p) (dev : Device)
    {fuel : Nat} (hfuel : 2 ≤ fuel) {polls cs rest : List Byte} {c : Byte}
    (hpolls : nonzero polls = cs ++ c :: rest) (hcs : ∀ c ∈ cs, c ≠ 0x0A ∧ c ≠ 0x0D)
    (hc : c = 0x0A ∨ c = 0x0D) (buf : Vector Byte bufLen) (m : Out) :
    ∃ buf' m', readline dev fuel prompt polls buf m = .ok (.line buf' m') ∧
      cstring buf' = cs.foldl lineStep [] := by
  have hempty : ∀ b ∈ (⟨buf, 0, by decide⟩ : Line).text, b ≠ 0 := by
    intro b hb
    cases hb
  cases prompt with
  | none => exact readlineLoop_line hpolls hcs hc hempty
  | some p =>
      obtain ⟨⟨cnt, m'⟩, hprint⟩ := prompt_prints (hprompt p rfl) dev hfuel m
      rw [readline, readlineLeft, hprint]
      exact readlineLoop_line hpolls hcs hc hempty

end JosKernel.Console
