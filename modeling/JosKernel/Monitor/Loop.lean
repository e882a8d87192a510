import JosKernel.Console.Echo
import JosKernel.Monitor.Commands

/-!
# `monitor`

The loop of `monitor` calls `readline` and `runcmd` in turn.  `Console/Readline` says what a
call of `readline` returns; here it matters also which characters it leaves to the next call,
those behind its newline (`readlineLoopLeft_eq`).

## The model

* The calls of `cons_getc` return any characters (`polls`), and a call of `readline` leaves
  those that it has not read to the next one.
* `argv` in the frame of `runcmd`, and the static buffer of `readline`, have any contents at
  each call: `stack n` and `static n` at the call number `n`.
* The commands are any functions, as in `runcmd`.
-/

namespace JosKernel.Monitor

open Console Printf

/-! ## `readline`, and what it leaves -/

section

variable {dev : Device} {fuel : Nat} {echoing : Int} {polls' : List Byte} {r : Readline}

/-- A call that returns has read a character. -/
theorem length_of_readlineLoopLeft {polls : List Byte} {line : Line} {m : Out}
    (h : readlineLoopLeft dev fuel echoing polls line m = .ok (r, polls')) :
    (∃ line m, r = .waiting line m) ∨ polls'.length < polls.length := by
  rw [readlineLoopLeft] at h
  split at h
  next =>
    cases h
    exact .inl ⟨line, m, rfl⟩
  next c polls'' hget =>
    have hlt := length_of_getchar hget
    split_ifs at h
    · obtain ⟨p, -, h⟩ := Result.bind_eq_ok.mp h
      cases h
      exact .inr hlt
    · exact (length_of_readlineLoopLeft h).imp_right hlt.trans'
    · exact (length_of_readlineLoopLeft h).imp_right hlt.trans'
    · cases h
      exact .inr hlt
    · exact (length_of_readlineLoopLeft h).imp_right hlt.trans'
termination_by polls.length

theorem length_of_readlineLeft {prompt : Option (List Byte)} {polls : List Byte}
    {buf : Vector Byte bufLen} {m : Out}
    (h : readlineLeft dev fuel prompt polls buf m = .ok (r, polls')) :
    (∃ line m, r = .waiting line m) ∨ polls'.length < polls.length := by
  cases prompt with
  | none => exact length_of_readlineLoopLeft h
  | some p =>
      obtain ⟨cnt, -, h⟩ := Result.bind_eq_ok.mp h
      exact length_of_readlineLoopLeft h

end

/-! ## `monitor` -/

/-- How far a call of `monitor` gets. -/
inductive Outcome where
  /-- `getchar` waits. -/
  | waiting (m : Out)
  /-- It returns, and leaves some characters to the call number `n` of `readline`. -/
  | returned (n : Nat) (polls : List Byte) (m : Out)
  | fault (fault : Fault)

theorem cstring_ne_zero (buf : Vector Byte bufLen) : ∀ b ∈ cstring buf, b ≠ 0 := fun b hb ↦ by
  simpa using List.mem_takeWhile_imp hb

/-- The string that `readline` returns. -/
def commandLine (buf : Vector Byte bufLen) : CString := ⟨cstring buf, cstring_ne_zero buf⟩

section

variable (dev : Device) (fuel : Nat) (funcs : Functions) (stack : Nat → Argv)
  (static : Nat → Vector Byte bufLen) (tf : BitVec 32)

/-- The loop of `monitor`, from the call number `n` of `readline` on. -/
def monitorLoop (n : Nat) (polls : List Byte) (m : Out) : Outcome :=
  match _h : readlineLeft dev fuel (some monitorPrompt) polls (static n) m with
  | .error stop => .fault (.stop stop)
  | .ok (.waiting _ m, _) => .waiting m
  | .ok (.null _ m, polls) => monitorLoop (n + 1) polls m
  | .ok (.line buf m, polls) =>
      match runcmd dev fuel funcs (commandLine buf) (stack n) tf m with
      | .error fault => .fault fault
      | .ok (r, m) => if r < 0 then .returned (n + 1) polls m else monitorLoop (n + 1) polls m
termination_by polls.length
decreasing_by
  all_goals exact (length_of_readlineLeft _h).resolve_left (by simp)

/-- `"Welcome to the JOS kernel monitor!\n"`. -/
def welcome : CString := .literal "Welcome to the JOS kernel monitor!\n"

/-- `"Type 'help' for a list of commands.\n"`. -/
def typeHelp : CString := .literal "Type 'help' for a list of commands.\n"

/-- `monitor(tf)`. -/
def monitor (n : Nat) (polls : List Byte) (m : Out) : Outcome :=
  match cprintf dev fuel welcome [] m with
  | .error stop => .fault (.stop stop)
  | .ok (_, m) =>
      match cprintf dev fuel typeHelp [] m with
      | .error stop => .fault (.stop stop)
      | .ok (_, m) => monitorLoop dev fuel funcs stack static tf n polls m

end

/-! ## One call of `readline` -/

/-- The characters after the first newline. -/
def unread (polls : List Byte) : List Byte := (polls.dropWhile fun c ↦ ¬ isNewline c).tail

theorem unread_newline {c : Byte} (hc : isNewline c) (polls : List Byte) :
    unread (c :: polls) = polls := by
  rw [unread, List.dropWhile_cons_of_neg (by simpa using hc)]
  rfl

theorem unread_cons {c : Byte} (hc : ¬ isNewline c) (polls : List Byte) :
    unread (c :: polls) = unread polls := by
  rw [unread, List.dropWhile_cons_of_pos (by simpa using hc)]
  rfl

theorem unread_append {pre : List Byte} (hpre : ∀ c ∈ pre, ¬ isNewline c) (post : List Byte) :
    unread (pre ++ post) = unread post := by
  induction pre with
  | nil => rfl
  | cons c pre ih =>
      obtain ⟨hc, hpre⟩ := List.forall_mem_cons.mp hpre
      rw [List.cons_append, unread_cons hc, ih hpre]

/-- A character, and what is left after it. -/
theorem getchar_unread {polls polls' : List Byte} {c : Int} (h : getchar polls = some (c, polls')) :
    ∃ b : Byte, c = b.toNat ∧ unread polls = if isNewline b then polls' else unread polls' := by
  induction polls with
  | nil => cases h
  | cons b polls ih =>
      rw [getchar] at h
      split_ifs at h with hb
      · obtain ⟨b', hc, hunread⟩ := ih h
        exact ⟨b', hc, by rw [unread_cons (by rw [hb]; decide), hunread]⟩
      · cases h
        refine ⟨b, rfl, ?_⟩
        split_ifs with hnl
        · exact unread_newline hnl polls'
        · exact unread_cons hnl polls'

theorem getchar_none {polls : List Byte} (h : getchar polls = none) : unread polls = [] := by
  induction polls with
  | nil => rfl
  | cons b polls ih =>
      rw [getchar] at h
      split_ifs at h with hb
      rw [unread_cons (by rw [hb]; decide), ih h]

/-- A call leaves what comes after its newline. -/
theorem readlineLoopLeft_eq (dev : Device) (fuel : Nat) (echoing : Int) (polls : List Byte)
    (line : Line) (m : Out) :
    readlineLoopLeft dev fuel echoing polls line m =
      (readlineLoop dev fuel echoing polls line m).map fun r ↦ (r, unread polls) := by
  rw [readlineLoopLeft]
  split
  next hget =>
    rw [readlineLoop_none hget, getchar_none hget]
    rfl
  next c polls' hget =>
    obtain ⟨b, rfl, hunread⟩ := getchar_unread hget
    obtain ⟨-, -, -, hnl, hcr⟩ := char_tests b
    have hlt := length_of_getchar hget
    have hneg : ¬ (b.toNat : Int) < 0 := by omega
    rw [readlineLoop_eq hget, if_neg hneg, if_neg hneg, hunread]
    by_cases hb : isNewline b
    · rw [if_pos hb]
      rcases hb with rfl | rfl <;> rfl
    · have hb' : ¬ ((b.toNat : Int) = 0x0A ∨ (b.toNat : Int) = 0x0D) := by rwa [hnl, hcr]
      rw [if_neg hb, if_neg hb', if_neg hb']
      split_ifs
      · exact readlineLoopLeft_eq dev fuel echoing polls' _ _
      · exact readlineLoopLeft_eq dev fuel echoing polls' _ _
      · exact readlineLoopLeft_eq dev fuel echoing polls' _ _
termination_by polls.length

/-- What a character on the line shows. -/
def echoStep (line : List Byte) (c : Byte) : List Code :=
  if (c = 0x08 ∨ c = 0x7F) ∧ line ≠ [] then [0x08]
  else if 0x20 ≤ c ∧ line.length < bufLen - 1 then [c.setWidth 32]
  else []

/-- What some more characters show. -/
def echoes (line : List Byte) : List Byte → List Code
  | [] => []
  | c :: cs => echoStep line c ++ echoes (lineStep line c) cs

theorem turn_echo (line : Line) (c : Byte) : (turn line c.toNat).2 = echoStep line.text c := by
  have hlen := line.length_text
  obtain ⟨hback, hdel, hspace, -, -⟩ := char_tests c
  have herase : ((c.toNat : Int) = 0x08 ∨ (c.toNat : Int) = 0x7F) ∧ 0 < line.i ↔
      (c = 0x08 ∨ c = 0x7F) ∧ line.text ≠ [] := by
    rw [← hlen, List.length_pos_iff]
    exact and_congr_left' (or_congr hback hdel)
  have happend : 0x20 ≤ (c.toNat : Int) ∧ line.i < bufLen - 1 ↔
      0x20 ≤ c ∧ line.text.length < bufLen - 1 := by
    rw [hlen]
    exact and_congr_left' hspace
  rw [turn, echoStep]
  by_cases he : ((c.toNat : Int) = 0x08 ∨ (c.toNat : Int) = 0x7F) ∧ 0 < line.i
  · rw [if_pos he, if_pos (herase.mp he)]
  rw [if_neg he, if_neg (mt herase.mpr he)]
  by_cases ha : 0x20 ≤ (c.toNat : Int) ∧ line.i < bufLen - 1
  · rw [dif_pos ha, if_pos (happend.mp ha), (code_of_printing ha.1).1]
  · rw [dif_neg ha, if_neg (mt happend.mpr ha)]

/-- The turns of the loop, on the line alone. -/
theorem turns_eq (line : Line) (cs : List Byte) :
    (turns line cs).1.text = cs.foldl lineStep line.text ∧
      (turns line cs).2 = echoes line.text cs := by
  induction cs generalizing line with
  | nil => exact ⟨rfl, rfl⟩
  | cons c cs ih =>
      obtain ⟨htext, hecho⟩ := ih (turn line c.toNat).1
      rw [text_turn] at htext hecho
      exact ⟨htext, by rw [turns, hecho, turn_echo]; rfl⟩

/-- `"K> "`, as it is printed. -/
def promptCodes : List Code := codes (asciis "K> ".toList)

section

variable (dev : Device) {fuel : Nat} {pre : List Byte} (buf : Vector Byte bufLen) (m : Out)

theorem cprintf_prompt (hfuel : 2 ≤ fuel) :
    cprintf dev fuel promptFormat [.str (some monitorPrompt)] m =
      .ok (0, emit (cputchar dev) promptCodes m) := by
  obtain ⟨fuel, rfl⟩ := Nat.exists_eq_add_of_le' hfuel
  have hat : promptFormat.At 0 [ascii '%', ascii 's'] := .start promptFormat
  have hswitch : reswitch promptFormat 1 [.str (some monitorPrompt)] {} =
      .ok (ascii 's', 2, [.str (some monitorPrompt)], {}) :=
        reswitch_stop hat.tail.read (by decide) _ _
  have hp : stringOrNull (some monitorPrompt) = asciis "K> ".toList ++ 0 :: [] := rfl
  have hescapes := string_escapes hat.read hswitch hp (by decide)
  have hstring : ({} : Esc).string (asciis "K> ".toList) = promptCodes := by decide
  have hW := (hescapes.vprintfmt_eq record (fuel + 1) []).trans
    (vprintfmt_nul hat.tail.tail.read fuel _ _)
  rw [hstring, emit_record, List.nil_append] at hW
  rw [cprintf, vcprintf_eq hW]
  rfl

theorem readlineLeft_eq (hfuel : 2 ≤ fuel) (hpre : ∀ c ∈ pre, ¬ isNewline c) (post : List Byte) :
    readlineLeft dev fuel (some monitorPrompt) (pre ++ post) buf m =
      (readlineLoop dev fuel (iscons 0) post (turns ⟨buf, 0, by decide⟩ (nonzero pre)).1
        (emit (cputchar dev) (promptCodes ++ echoes [] (nonzero pre)) m)).map
          fun r ↦ (r, unread post) := by
  rw [readlineLeft, cprintf_prompt dev m hfuel]
  refine (readlineLoopLeft_eq dev fuel (iscons 0) (pre ++ post) _ _).trans ?_
  rw [readlineLoop_turns dev fuel hpre, unread_append hpre, (turns_eq _ (nonzero pre)).2,
    emit_append]
  rfl

/-- No newline has come yet. -/
theorem readlineLeft_waiting (hfuel : 2 ≤ fuel) (hpre : ∀ c ∈ pre, ¬ isNewline c) :
    ∃ line, readlineLeft dev fuel (some monitorPrompt) pre buf m = .ok (.waiting line
      (emit (cputchar dev) (promptCodes ++ echoes [] (nonzero pre)) m), []) := by
  have h := readlineLeft_eq dev buf m hfuel hpre []
  rw [List.append_nil] at h
  exact ⟨_, h.trans (by rw [readlineLoop_none rfl]; rfl)⟩

/-- A whole line. -/
theorem readlineLeft_line (hfuel : 2 ≤ fuel) (hpre : ∀ c ∈ pre, ¬ isNewline c) {c : Byte}
    (hc : isNewline c) (post : List Byte) :
    ∃ buf', readlineLeft dev fuel (some monitorPrompt) (pre ++ c :: post) buf m = .ok (.line buf'
      (emit (cputchar dev) (promptCodes ++ (echoes [] (nonzero pre) ++ [0x0A])) m), post) ∧
      cstring buf' = (nonzero pre).foldl lineStep [] := by
  have hne : c ≠ 0 := by
    rcases hc with rfl | rfl <;> decide
  have hget : getchar (c :: post) = some ((c.toNat : Int), post) := if_neg hne
  have hechoes := (Echoes.empty buf).turns (nonzero pre)
  have h := readlineLeft_eq dev buf m hfuel hpre (c :: post)
  rw [readlineLoop_newline hget hc, unread_newline hc] at h
  refine ⟨(turns ⟨buf, 0, by decide⟩ (nonzero pre)).1.terminate, h.trans ?_, ?_⟩
  · rw [← List.append_assoc promptCodes, emit_append (promptCodes ++ _) [0x0A]]
    rfl
  · rw [Line.cstring_terminate hechoes.ne_zero]
    exact (turns_eq ⟨buf, 0, by decide⟩ (nonzero pre)).1

end

end JosKernel.Monitor
