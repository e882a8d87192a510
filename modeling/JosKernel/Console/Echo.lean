import JosKernel.Console.Edit

/-!
# The echo of `readline`

What `readline` has sent to the console since its prompt, taken as edits of what is
shown there, is at every turn of its loop the line in the buffer.

## The model

* `turns` takes the turns of the loop on some characters: the line after them, and the
  codes that `cputchar` is called with.  `readlineLoop_turns` says that the loop goes
  through these states.
* Every write to the buffer is in range by the types of `Line.append` and `Line.terminate`.
-/

namespace JosKernel.Console

open Printf (Code codes cprintf)

variable {dev : Device} {fuel : Nat} {line : Line} {m : Out} {c : Byte} {out : List Code}

/-! ## Turns of the loop -/

/-- The turns on some characters, and what they echo. -/
def turns (line : Line) : List Byte → Line × List Code
  | [] => (line, [])
  | c :: cs =>
      let next := turn line c.toNat
      ((turns next.1 cs).1, next.2 ++ (turns next.1 cs).2)

/-- A character that ends the line. -/
def isNewline (c : Byte) : Prop := c = 0x0A ∨ c = 0x0D

instance (c : Byte) : Decidable (isNewline c) := inferInstanceAs (Decidable (_ ∨ _))

/-- A call of `cons_getc` without a character changes nothing. -/
theorem readlineLoop_zero (dev : Device) (fuel : Nat) (echoing : Int) (polls : List Byte)
    (line : Line) (m : Out) :
    readlineLoop dev fuel echoing (0 :: polls) line m =
      readlineLoop dev fuel echoing polls line m := by
  have hget : getchar (0 :: polls) = getchar polls := rfl
  cases hpolls : getchar polls with
  | none => rw [readlineLoop_none (hget.trans hpolls), readlineLoop_none hpolls]
  | some next => rw [readlineLoop_eq (hget.trans hpolls), readlineLoop_eq hpolls]

/-- **The loop takes its turns.** -/
theorem readlineLoop_turns (dev : Device) (fuel : Nat) {pre : List Byte}
    (hpre : ∀ c ∈ pre, ¬ isNewline c) (post : List Byte) (line : Line) (m : Out) :
    readlineLoop dev fuel (iscons 0) (pre ++ post) line m =
      readlineLoop dev fuel (iscons 0) post (turns line (nonzero pre)).1
        (emit (cputchar dev) (turns line (nonzero pre)).2 m) := by
  induction pre generalizing line m with
  | nil => rfl
  | cons c pre ih =>
      obtain ⟨hc, hpre⟩ := List.forall_mem_cons.mp hpre
      rw [List.cons_append]
      by_cases hzero : c = 0
      · rw [hzero, readlineLoop_zero, nonzero_zero]
        exact ih hpre line m
      · have hget : getchar (c :: (pre ++ post)) = some ((c.toNat : Int), pre ++ post) :=
          if_neg hzero
        rw [readlineLoop_turn hget (not_or.mp hc), ih hpre, nonzero_cons hzero, turns, emit_append]

/-! ## What is shown -/

/-- What is shown after one more code: `'\b'` removes the last character, and one that
is not a control character adds itself. -/
def shownStep (text : List Code) (c : Code) : List Code :=
  if c = 0x08 then text.dropLast else if 0x20 ≤ c.toInt then text ++ [c] else text

/-- What some codes show. -/
def shown (out : List Code) : List Code := out.foldl shownStep []

@[simp] theorem shown_concat (out : List Code) (c : Code) :
    shown (out ++ [c]) = shownStep (shown out) c := by
  simp [shown]

/-- The line is what has been echoed: its index is in range, its characters print, and
they are the ones shown. -/
structure Echoes (line : Line) (out : List Code) : Prop where
  index_le : line.i ≤ bufLen - 1
  printing : ∀ b ∈ line.text, 0x20 ≤ b
  shown_eq : shown out = codes line.text

/-- An empty line. -/
theorem Echoes.empty (buf : Vector Byte bufLen) : Echoes ⟨buf, 0, by decide⟩ [] where
  index_le := Nat.zero_le _
  printing := fun b hb ↦ by cases hb
  shown_eq := rfl

/-- An erased character goes from both. -/
theorem Echoes.erase (h : Echoes line out) : Echoes line.erase (out ++ [0x08]) where
  index_le := (Nat.sub_le ..).trans h.index_le
  printing := by
    rw [line.text_erase]
    exact fun b hb ↦ h.printing b (List.dropLast_subset _ hb)
  shown_eq := by
    rw [shown_concat, h.shown_eq, line.text_erase]
    exact List.map_dropLast.symm

/-- The code of a printing character. -/
theorem code_of_printing (hc : 0x20 ≤ (c.toNat : Int)) :
    BitVec.ofInt 32 c.toNat = c.setWidth 32 ∧ BitVec.ofInt 8 c.toNat = c ∧
      (c.setWidth 32 : Code) ≠ 0x08 ∧ 0x20 ≤ (c.setWidth 32 : Code).toInt ∧ 0x20 ≤ c := by
  revert c
  decide

/-- A printing character comes to both. -/
theorem Echoes.append (h : Echoes line out) (hc : 0x20 ≤ (c.toNat : Int))
    (hlt : line.i < bufLen - 1) :
    Echoes (line.append c.toNat hlt) (out ++ [BitVec.ofInt 32 c.toNat]) := by
  obtain ⟨hcode, hbyte, hback, hprint, hspace⟩ := code_of_printing hc
  have htext : (line.append c.toNat hlt).text = line.text ++ [c] := by rw [line.text_append, hbyte]
  refine ⟨hlt, ?_, ?_⟩
  · rw [htext]
    intro b hb
    rcases List.mem_append.mp hb with hb | hb
    · exact h.printing b hb
    · rwa [List.mem_singleton.mp hb]
  · rw [htext, hcode, shown_concat, h.shown_eq, shownStep, if_neg hback, if_pos hprint, codes,
      codes, List.map_append]
    rfl

/-- One turn keeps it so. -/
theorem Echoes.turn (h : Echoes line out) (c : Byte) :
    Echoes (Console.turn line c.toNat).1 (out ++ (Console.turn line c.toNat).2) := by
  rw [Console.turn]
  split_ifs with herase happend
  · exact h.erase
  · exact h.append happend.1 happend.2
  · rwa [List.append_nil]

/-- **What is shown is what is in the buffer**, at every turn. -/
theorem Echoes.turns (h : Echoes line out) (cs : List Byte) :
    Echoes (Console.turns line cs).1 (out ++ (Console.turns line cs).2) := by
  induction cs generalizing line out with
  | nil => rwa [Console.turns, List.append_nil]
  | cons c cs ih =>
      rw [Console.turns, ← List.append_assoc]
      exact ih (h.turn c)

/-! ## Calls of `readline` -/

/-- What is in the output once the prompt is printed. -/
def Prompted (dev : Device) (fuel : Nat) (prompt : Option (List Byte)) (m m₀ : Out) : Prop :=
  match prompt with
  | none => m₀ = m
  | some p => ∃ cnt, cprintf dev fuel promptFormat [.str (some p)] m = .ok (cnt, m₀)

theorem exists_prompted {prompt : Option (List Byte)} (hprompt : ∀ p ∈ prompt, 0 ∈ p) (dev : Device)
    (hfuel : 2 ≤ fuel) (m : Out) : ∃ m₀, Prompted dev fuel prompt m m₀ := by
  cases prompt with
  | none => exact ⟨m, rfl⟩
  | some p =>
      obtain ⟨⟨cnt, m₀⟩, hprint⟩ := prompt_prints (hprompt p rfl) dev hfuel m
      exact ⟨m₀, cnt, hprint⟩

theorem Prompted.readline_eq {prompt : Option (List Byte)} {m₀ : Out}
    (h : Prompted dev fuel prompt m m₀) (polls : List Byte) (buf : Vector Byte bufLen) :
    readline dev fuel prompt polls buf m =
      readlineLoop dev fuel (iscons 0) polls ⟨buf, 0, by decide⟩ m₀ := by
  cases prompt with
  | none =>
      cases h
      rfl
  | some p =>
      obtain ⟨cnt, hprint⟩ := h
      rw [readline, readlineLeft, hprint]
      rfl

/-- A line that is what has been echoed has no NUL. -/
theorem Echoes.ne_zero (h : Echoes line out) : ∀ b ∈ line.text, b ≠ 0 := by
  intro b hb
  have hspace := h.printing b hb
  rintro rfl
  exact absurd hspace (by decide)

/-- The newline is echoed and shows nothing. -/
theorem shown_newline (out : List Code) : shown (out ++ [0x0A]) = shown out := shown_concat out 0x0A

/-- **`readline` echoes what it stores.**  At every point of a call, `pre` being what
`cons_getc` has returned since the prompt and `out` what `cputchar` has been called with,
the index is in range, the line has printing characters only, and the codes show just that
line.  At a newline the line is returned with its NUL, and nothing else is shown. -/
theorem readline_echoes {prompt : Option (List Byte)} (hprompt : ∀ p ∈ prompt, 0 ∈ p) (dev : Device)
    {fuel : Nat} (hfuel : 2 ≤ fuel) (buf : Vector Byte bufLen) (m : Out) :
    ∃ m₀, Prompted dev fuel prompt m m₀ ∧
      ∀ pre post : List Byte, (∀ c ∈ pre, ¬ isNewline c) →
        ∀ line out, turns ⟨buf, 0, by decide⟩ (nonzero pre) = (line, out) →
          readline dev fuel prompt (pre ++ post) buf m =
            readlineLoop dev fuel (iscons 0) post line (emit (cputchar dev) out m₀) ∧
          line.i ≤ bufLen - 1 ∧ (∀ b ∈ line.text, 0x20 ≤ b) ∧ shown out = codes line.text ∧
          ∀ c rest, post = c :: rest → isNewline c →
            ∃ buf', readline dev fuel prompt (pre ++ post) buf m =
                .ok (.line buf' (emit (cputchar dev) (out ++ [0x0A]) m₀)) ∧
              buf'[line.i]? = some 0 ∧ cstring buf' = line.text ∧
                shown (out ++ [0x0A]) = codes (cstring buf') := by
  obtain ⟨m₀, hm₀⟩ := exists_prompted hprompt dev hfuel m
  refine ⟨m₀, hm₀, fun pre post hpre line out hturns ↦ ?_⟩
  have hloop := readlineLoop_turns dev fuel hpre post ⟨buf, 0, by decide⟩ m₀
  have hechoes := (Echoes.empty buf).turns (nonzero pre)
  rw [List.nil_append, hturns] at hechoes
  rw [hm₀.readline_eq, hloop, hturns]
  refine ⟨rfl, hechoes.index_le, hechoes.printing, hechoes.shown_eq, ?_⟩
  rintro c rest rfl hc
  have hne : c ≠ 0 := by
    rcases hc with rfl | rfl <;> decide
  have hget : getchar (c :: rest) = some ((c.toNat : Int), rest) := if_neg hne
  have hstring := Line.cstring_terminate hechoes.ne_zero
  refine ⟨line.terminate, ?_, ?_, hstring, ?_⟩
  · rw [readlineLoop_newline hget hc, emit_append]
    rfl
  · rw [Line.terminate, Vector.getElem?_set_self line.lt]
  · rw [shown_newline, hstring]
    exact hechoes.shown_eq

/-- A character, a delete, and another character. -/
def corrected : List Byte := [0x61, 0x7F, 0x62]

theorem corrected_echoes :
    ∃ m₀, Prompted Printf.deadDevice 2 (some monitorPrompt) blankScreen m₀ ∧
      ∃ buf', readline Printf.deadDevice 2 (some monitorPrompt) (corrected ++ [0x0A])
          (Vector.replicate bufLen 0) blankScreen =
            .ok (.line buf' (emit (cputchar Printf.deadDevice) [0x61, 0x08, 0x62, 0x0A] m₀)) ∧
        shown [0x61, 0x08, 0x62, 0x0A] = codes (cstring buf') := by
  have hprompt : ∀ p ∈ some monitorPrompt, 0 ∈ p := by decide
  obtain ⟨m₀, hm₀, hpoints⟩ := readline_echoes hprompt Printf.deadDevice (Nat.le_refl 2)
    (Vector.replicate bufLen 0) blankScreen
  obtain ⟨-, -, -, -, hend⟩ := hpoints corrected [0x0A] (by decide) _ [0x61, 0x08, 0x62] rfl
  obtain ⟨buf', hline, -, -, hshown⟩ := hend 0x0A [] rfl (.inl rfl)
  exact ⟨m₀, hm₀, buf', hline, hshown⟩

end JosKernel.Console
