import JosKernel.Printf.Format
import Mathlib.Data.List.Induction
import Mathlib.Data.List.TakeWhile

/-!
# Scanning a format

A format is cut into single characters of text and escapes.  The flags of an escape
are the characters that `goto reswitch`, in any order and number; `reswitch` reads
them and the character after them, and `rewind` goes back over them.
-/

namespace JosKernel.Printf

/-! ## Reading the format -/

/-- The format from index `i` on, up to the NUL. -/
structure CString.At (fmt : CString) (i : Nat) (l : List Byte) : Prop where
  le_length : i ≤ fmt.bytes.length
  drop_eq : fmt.bytes.drop i = l

namespace CString.At

variable {fmt : CString} {i : Nat} {b : Byte} {l l' : List Byte}

theorem start (fmt : CString) : fmt.At 0 fmt.bytes := ⟨Nat.zero_le _, rfl⟩

/-- The NUL is read after the last character. -/
theorem read (h : fmt.At i l) : fmt.read i = .ok (l.headD 0) := by
  obtain ⟨hi, rfl⟩ := h
  unfold CString.read
  rw [List.headD_eq_head?_getD, List.head?_drop]
  split
  next b hb => rw [hb]; rfl
  next hnone =>
    rw [hnone, if_pos (Nat.le_antisymm hi (List.getElem?_eq_none_iff.mp hnone))]
    rfl

theorem append (h : fmt.At i (l ++ l')) : fmt.At (i + l.length) l' := by
  refine ⟨?_, ?_⟩
  · have := congrArg List.length h.drop_eq
    have := h.le_length
    simp only [List.length_drop, List.length_append] at *
    omega
  · rw [← List.drop_drop, h.drop_eq, List.drop_left]

theorem tail (h : fmt.At i (b :: l)) : fmt.At (i + 1) l := append (l := [b]) h

theorem ne_zero (h : fmt.At i l) (hb : b ∈ l) : b ≠ 0 :=
  fmt.ne_zero b (List.mem_of_mem_drop (h.drop_eq ▸ hb))

end CString.At

/-! ## Escapes -/

/-- A character that `goto reswitch`. -/
def isFlag (b : Byte) : Bool := (Flag.ofChar b).isSome

/-- A character that ends an escape by a `case` of the switch. -/
def isConv (b : Byte) : Bool := b = ascii 'e' ∨ (Conv.ofChar b).isSome

/-- A piece of a format. -/
inductive Segment where
  /-- A character outside of the escapes. -/
  | text (b : Byte)
  /-- An escape that ends in a conversion. -/
  | conv (flags : List Byte) (ch : Byte)
  /-- An escape that ends in an unrecognized character, or in the NUL. -/
  | bad (flags : List Byte) (ch : Option Byte)
deriving DecidableEq, Repr

/-- The text of a piece. -/
def Segment.bytes : Segment → List Byte
  | .text b => [b]
  | .conv flags ch => ascii '%' :: flags ++ [ch]
  | .bad flags ch => ascii '%' :: flags ++ ch.toList

/-- The pieces of a format. -/
def segments : List Byte → List Segment
  | [] => []
  | b :: bs =>
      if b = ascii '%' then
        match _h : bs.dropWhile isFlag with
        | [] => [.bad (bs.takeWhile isFlag) none]
        | ch :: rest =>
            (if isConv ch then .conv (bs.takeWhile isFlag) ch
              else .bad (bs.takeWhile isFlag) (some ch)) :: segments rest
      else .text b :: segments bs
termination_by l => l.length
decreasing_by
  · have := (bs.dropWhile_suffix isFlag).length_le
    simp only [_h, List.length_cons] at this ⊢
    omega
  · simp

theorem segments_text {b : Byte} (hb : b ≠ ascii '%') (bs : List Byte) :
    segments (b :: bs) = .text b :: segments bs := by
  rw [segments, if_neg hb]

section

variable {flags rest : List Byte} {ch : Byte}

theorem takeWhile_isFlag (hflags : ∀ b ∈ flags, isFlag b) (hch : ¬ isFlag ch) :
    (flags ++ ch :: rest).takeWhile isFlag = flags := by
  simp [List.takeWhile_append_of_pos hflags, hch]

theorem dropWhile_isFlag (hflags : ∀ b ∈ flags, isFlag b) (hch : ¬ isFlag ch) :
    (flags ++ ch :: rest).dropWhile isFlag = ch :: rest := by
  simp [List.dropWhile_append_of_pos hflags, hch]

theorem segments_escape (hflags : ∀ b ∈ flags, isFlag b) (hch : ¬ isFlag ch) :
    segments (ascii '%' :: flags ++ ch :: rest) =
      (if isConv ch then .conv flags ch else .bad flags (some ch)) :: segments rest := by
  rw [List.cons_append, segments, if_pos rfl]
  split
  next h => rw [dropWhile_isFlag hflags hch] at h; cases h
  next ch' rest' h =>
    rw [dropWhile_isFlag hflags hch] at h
    cases h
    rw [takeWhile_isFlag hflags hch]

theorem segments_cut (hflags : ∀ b ∈ flags, isFlag b) :
    segments (ascii '%' :: flags) = [.bad flags none] := by
  rw [segments, if_pos rfl]
  split
  next h => rw [List.takeWhile_eq_self_iff.mpr hflags]
  next ch rest h => rw [List.dropWhile_eq_nil_iff.mpr hflags] at h; cases h

end

/-- Induction on the pieces of a format. -/
theorem segments_induction {motive : List Byte → Prop} (nil : motive [])
    (text : ∀ b bs, b ≠ ascii '%' → motive bs → motive (b :: bs))
    (cut : ∀ flags : List Byte, (∀ b ∈ flags, isFlag b) → motive (ascii '%' :: flags))
    (escape : ∀ flags ch rest, (∀ b ∈ flags, isFlag b) → ¬ isFlag ch → motive rest →
      motive (ascii '%' :: flags ++ ch :: rest))
    (l : List Byte) : motive l := by
  match l with
  | [] => exact nil
  | b :: bs =>
      by_cases hb : b = ascii '%'
      · subst hb
        have hflags : ∀ b ∈ bs.takeWhile isFlag, isFlag b := fun b hb ↦ List.mem_takeWhile_imp hb
        have hbs := bs.takeWhile_append_dropWhile (p := isFlag)
        cases hdrop : bs.dropWhile isFlag with
        | nil =>
            rw [hdrop, List.append_nil] at hbs
            exact hbs ▸ cut _ hflags
        | cons ch rest =>
            have hch : ¬ isFlag ch := by
              have := List.head?_dropWhile_not isFlag bs
              simpa [hdrop] using this
            have hlt : rest.length < (ascii '%' :: bs).length := by
              have := (bs.dropWhile_suffix isFlag).length_le
              simp only [hdrop, List.length_cons] at this ⊢
              omega
            rw [hdrop] at hbs
            have := escape _ ch rest hflags hch (segments_induction nil text cut escape rest)
            rwa [List.cons_append, hbs] at this
      · exact text b bs hb (segments_induction nil text cut escape bs)
termination_by l.length
decreasing_by
  · exact hlt
  · exact Nat.lt_succ_self _

/-- The pieces make up the format. -/
theorem segments_bytes (l : List Byte) : (segments l).flatMap Segment.bytes = l := by
  induction l using segments_induction with
  | nil => rw [segments]; rfl
  | text b bs hb ih => rw [segments_text hb, List.flatMap_cons, ih]; rfl
  | cut flags hflags => rw [segments_cut hflags]; simp [Segment.bytes]
  | escape flags ch rest hflags hch ih =>
      rw [segments_escape hflags hch, List.flatMap_cons, ih]
      split <;> simp [Segment.bytes]

/-- What the characters of a piece are. -/
def Segment.WellFormed : Segment → Prop
  | .text b => b ≠ ascii '%'
  | .conv flags ch => (∀ b ∈ flags, isFlag b) ∧ isConv ch
  | .bad flags ch => (∀ b ∈ flags, isFlag b) ∧ ∀ c ∈ ch, ¬ isFlag c ∧ ¬ isConv c

theorem segments_wellFormed (l : List Byte) : ∀ seg ∈ segments l, seg.WellFormed := by
  induction l using segments_induction with
  | nil => rw [segments]; simp
  | text b bs hb ih => rw [segments_text hb]; exact List.forall_mem_cons.mpr ⟨hb, ih⟩
  | cut flags hflags =>
      rw [segments_cut hflags]
      simpa [Segment.WellFormed] using hflags
  | escape flags ch rest hflags hch ih =>
      rw [segments_escape hflags hch]
      refine List.forall_mem_cons.mpr ⟨?_, ih⟩
      split_ifs with hconv
      · exact ⟨hflags, hconv⟩
      · refine ⟨hflags, ?_⟩
        rintro c ⟨⟩
        exact ⟨hch, hconv⟩

/-- Only the last piece ends in the NUL. -/
theorem segments_cut_last {l : List Byte} {pre post : List Segment} {flags : List Byte}
    (h : segments l = pre ++ .bad flags none :: post) : post = [] := by
  induction l using segments_induction generalizing pre with
  | nil => rw [segments] at h; simp at h
  | text b bs hb ih =>
      rw [segments_text hb] at h
      cases pre with
      | nil => cases h
      | cons seg pre => exact ih (List.cons.inj h).2
  | cut flags hflags =>
      rw [segments_cut hflags] at h
      cases pre with
      | nil => exact (List.cons.inj h).2.symm
      | cons seg pre => simp at h
  | escape flags ch rest hflags hch ih =>
      rw [segments_escape hflags hch] at h
      cases pre with
      | nil =>
          have := (List.cons.inj h).1
          split_ifs at this
          cases this
      | cons seg pre => exact ih (List.cons.inj h).2

/-- Where a piece is in the format. -/
theorem CString.at_segment {fmt : CString} {pre post : List Segment} {seg : Segment}
    (h : segments fmt.bytes = pre ++ seg :: post) :
    fmt.At (pre.flatMap Segment.bytes).length (seg.bytes ++ post.flatMap Segment.bytes) := by
  have hbytes := segments_bytes fmt.bytes
  rw [h, List.flatMap_append, List.flatMap_cons] at hbytes
  have hat : fmt.At 0 (pre.flatMap Segment.bytes ++ (seg.bytes ++ post.flatMap Segment.bytes)) :=
    hbytes ▸ .start fmt
  simpa only [Nat.zero_add] using hat.append

/-! ## Arguments -/

/-- A type that `va_arg` is called with. -/
inductive Demand where
  | word
  | dword
  | str
deriving DecidableEq, Repr

/-- The argument is of the type, and a string is `NULL` or has a NUL. -/
def Demand.Accepts : Demand → Arg → Prop
  | .word, .word _ => True
  | .dword, .dword _ => True
  | .str, .str p => ∀ bs ∈ p, 0 ∈ bs
  | _, _ => False

/-- The arguments start with ones of these types. -/
def Meets : List Demand → List Arg → Prop
  | [], _ => True
  | _ :: _, [] => False
  | d :: ds, a :: ap => d.Accepts a ∧ Meets ds ap

theorem meets_append {ds ds' : List Demand} {ap : List Arg} :
    Meets (ds ++ ds') ap ↔ Meets ds ap ∧ Meets ds' (ap.drop ds.length) := by
  induction ds generalizing ap with
  | nil => simp [Meets]
  | cons d ds ih =>
      cases ap with
      | nil => simp [Meets]
      | cons a ap => simp [Meets, ih, and_assoc]

theorem Meets.word {ds : List Demand} {ap : List Arg} (h : Meets (.word :: ds) ap) :
    ∃ w ap', ap = .word w :: ap' ∧ Meets ds ap' := by
  match ap, h with
  | .word w :: ap, h => exact ⟨w, ap, rfl, h.2⟩

/-- The arguments that the flags take. -/
def starDemands (flags : List Byte) : List Demand :=
  (flags.filter (· = ascii '*')).map fun _ ↦ .word

/-- The number of `l` flags. -/
def longs (flags : List Byte) : Nat := flags.count (ascii 'l')

/-- The arguments that a conversion takes. -/
def Conv.demands (lflag : Nat) : Conv → List Demand
  | .c | .p => [.word]
  | .s => [.str]
  | .d | .u | .o | .x => if 2 ≤ lflag then [.dword] else [.word]
  | .percent => []

/-- The arguments that the `case` of a character takes. -/
def caseDemands (flags : List Byte) (ch : Byte) : List Demand :=
  match Conv.ofChar ch with
  | some conv => conv.demands (longs flags)
  -- `'e'`
  | none => [.word]

/-- The arguments that a piece takes, in their order. -/
def Segment.demands : Segment → List Demand
  | .text _ => []
  | .conv flags ch => starDemands flags ++ caseDemands flags ch
  | .bad flags _ => starDemands flags

/-- The arguments are enough for the format. -/
def Sufficient (fmt : CString) (ap : List Arg) : Prop :=
  Meets ((segments fmt.bytes).flatMap Segment.demands) ap

/-! ## The flags are read, and gone back over -/

theorem Flag.ofChar_star {b : Byte} : Flag.ofChar b = some .star ↔ b = ascii '*' := by
  revert b
  decide

theorem Flag.ofChar_long {b : Byte} : Flag.ofChar b = some .long ↔ b = ascii 'l' := by
  revert b
  decide

theorem isFlag_of_digit {b : Byte} (h : ¬ (b < ascii '0' ∨ ascii '9' < b)) :
    isFlag b ∧ b ≠ ascii '*' ∧ b ≠ ascii 'l' := by
  revert b
  decide

theorem not_isFlag_percent : ¬ isFlag (ascii '%') := by decide

theorem not_isFlag_zero : ¬ isFlag 0 := by decide

theorem not_isConv_zero : ¬ isConv 0 := by decide

theorem not_isFlag_e : ¬ isFlag (ascii 'e') := by decide

theorem starDemands_cons (b : Byte) (flags : List Byte) :
    starDemands (b :: flags) =
      if b = ascii '*' then .word :: starDemands flags else starDemands flags := by
  simp only [starDemands, List.filter_cons, decide_eq_true_eq]
  split_ifs <;> rfl

theorem longs_cons (b : Byte) (flags : List Byte) :
    longs (b :: flags) = longs flags + if b = ascii 'l' then 1 else 0 := by
  simp [longs, List.count_cons]

@[simp] theorem Esc.processPrecision_lflag (e : Esc) : e.processPrecision.lflag = e.lflag := by
  unfold Esc.processPrecision
  split_ifs <;> rfl

section

variable {fmt : CString} {i : Nat} {ch : Byte}

/-- The switch at a flag. -/
theorem reswitch_flag {f : Flag} (hread : fmt.read i = .ok ch) (hf : Flag.ofChar ch = some f)
    (ap : List Arg) (e : Esc) :
    reswitch fmt i ap e =
      match f with
      | .minus => reswitch fmt (i + 1) ap { e with padc := ascii '-' }
      | .zero => reswitch fmt (i + 1) ap { e with padc := ascii '0' }
      | .digit => widthField fmt (i + 1) ap { e with precision := ch.toNat - 0x30 }
      | .star => do
          let (n, ap) ← vaInt ap
          reswitch fmt (i + 1) ap { e with precision := n }.processPrecision
      | .dot => reswitch fmt (i + 1) ap { e with width := if e.width < 0 then 0 else e.width }
      | .alt => reswitch fmt (i + 1) ap { e with altflag := true }
      | .long => reswitch fmt (i + 1) ap { e with lflag := e.lflag + 1 } := by
  rw [reswitch]
  split
  next stop h => rw [hread] at h; cases h
  next ch' h =>
    obtain rfl : ch = ch' := Except.ok.inj (hread.symm.trans h)
    split <;> rename_i hf' <;> cases hf.symm.trans hf' <;> try rfl
    split
    next stop hva => rw [hva]; rfl
    next n ap' hva => rw [hva]; rfl

/-- The switch at a character that is not a flag. -/
theorem reswitch_stop (hread : fmt.read i = .ok ch) (hch : ¬ isFlag ch) (ap : List Arg) (e : Esc) :
    reswitch fmt i ap e = .ok (ch, i + 1, ap, e) := by
  rw [reswitch]
  split
  next stop h => rw [hread] at h; cases h
  next ch' h =>
    obtain rfl : ch = ch' := Except.ok.inj (hread.symm.trans h)
    split <;> simp_all [isFlag]

theorem widthField_eq (hread : fmt.read i = .ok ch) (ap : List Arg) (e : Esc) :
    widthField fmt i ap e =
      if ch < ascii '0' ∨ ascii '9' < ch then reswitch fmt i ap e.processPrecision
      else widthField fmt (i + 1) ap
        { e with precision := wrap32 (e.precision * 10 + ch.toNat - 0x30) } := by
  rw [widthField]
  split
  next stop h => rw [hread] at h; cases h
  next ch' h =>
    obtain rfl : ch = ch' := Except.ok.inj (hread.symm.trans h)
    rw [dite_eq_ite]

end

/-! ## The scan as a fold

What the flags do to the local variables is a fold over their characters. -/

/-- The state of the scan of an escape.  If `inNumber`, then `precision` holds the
digits of a number that may go on. -/
structure Scan where
  inNumber : Bool
  ap : List Arg
  esc : Esc

namespace Scan

/-- The end of a number, if there is one. -/
def leave (s : Scan) : Scan :=
  if s.inNumber then { s with inNumber := false, esc := s.esc.processPrecision } else s

/-- A flag that is not a further digit of a number. -/
def flag (s : Scan) (b : Byte) : Flag → Scan
  | .minus => { s with esc.padc := ascii '-' }
  | .zero => { s with esc.padc := ascii '0' }
  | .digit => { s with inNumber := true, esc.precision := b.toNat - 0x30 }
  | .star =>
      match vaInt s.ap with
      | .ok (n, ap) => { s with ap, esc := { s.esc with precision := n }.processPrecision }
      | .error _ => s
  | .dot => { s with esc.width := if s.esc.width < 0 then 0 else s.esc.width }
  | .alt => { s with esc.altflag := true }
  | .long => { s with esc.lflag := s.esc.lflag + 1 }

/-- One character of the flags. -/
def step (s : Scan) (b : Byte) : Scan :=
  if s.inNumber ∧ ascii '0' ≤ b ∧ b ≤ ascii '9' then
    { s with esc.precision := wrap32 (s.esc.precision * 10 + b.toNat - 0x30) }
  else
    match Flag.ofChar b with
    | some f => s.leave.flag b f
    | none => s

/-- The switch or the loop over the digits of a number, whichever is to go on. -/
def resume (s : Scan) (fmt : CString) (i : Nat) : Except Stop (Byte × Nat × List Arg × Esc) :=
  match s.inNumber with
  | true => widthField fmt i s.ap s.esc
  | false => reswitch fmt i s.ap s.esc

variable {fmt : CString} {s : Scan} {b : Byte} {i : Nat} {flags rest : List Byte}

theorem leave_inNumber (s : Scan) : s.leave.inNumber = false := by
  unfold leave
  split_ifs with hnum
  · rfl
  · simpa using hnum

@[simp] theorem leave_ap (s : Scan) : s.leave.ap = s.ap := by
  unfold leave
  split_ifs <;> rfl

@[simp] theorem leave_lflag (s : Scan) : s.leave.esc.lflag = s.esc.lflag := by
  unfold leave
  split_ifs
  · exact s.esc.processPrecision_lflag
  · rfl

/-- A number ends at a character that is not a digit. -/
theorem resume_leave (hread : fmt.read i = .ok b) (hb : b < ascii '0' ∨ ascii '9' < b) :
    s.resume fmt i = s.leave.resume fmt i := by
  obtain ⟨num, ap, e⟩ := s
  cases num with
  | true => exact (widthField_eq hread ap e).trans (if_pos hb)
  | false => rfl

theorem resume_flag {f : Flag} (hread : fmt.read i = .ok b) (hf : Flag.ofChar b = some f)
    (hstar : f = .star → Meets [.word] s.ap) (hnum : s.inNumber = false) :
    s.resume fmt i = (s.flag b f).resume fmt (i + 1) := by
  obtain ⟨num, ap, e⟩ := s
  obtain rfl : num = false := hnum
  refine (reswitch_flag hread hf ap e).trans ?_
  cases f with
  | star =>
      obtain ⟨w, ap', rfl, -⟩ := (hstar rfl).word
      rfl
  | _ => rfl

/-- The scan at one flag. -/
theorem resume_step (hread : fmt.read i = .ok b) (hflag : isFlag b)
    (hstar : b = ascii '*' → Meets [.word] s.ap) :
    s.resume fmt i = (s.step b).resume fmt (i + 1) := by
  unfold step
  split_ifs with hdigit
  · obtain ⟨num, ap, e⟩ := s
    obtain ⟨rfl, hb⟩ := hdigit
    exact (widthField_eq hread ap e).trans (if_neg (by bv_omega))
  · obtain ⟨f, hf⟩ := Option.isSome_iff_exists.mp hflag
    have hleave : s.resume fmt i = s.leave.resume fmt i := by
      by_cases hnum : s.inNumber
      · exact resume_leave hread (by simp only [hnum, true_and] at hdigit; bv_omega)
      · rw [leave, if_neg hnum]
    rw [hleave, hf]
    refine resume_flag hread hf ?_ s.leave_inNumber
    rintro rfl
    rw [leave_ap]
    exact hstar (Flag.ofChar_star.mp hf)

/-- Only a star takes an argument. -/
theorem step_ap (hflag : isFlag b) (hstar : b = ascii '*' → Meets [.word] s.ap) :
    (s.step b).ap = if b = ascii '*' then s.ap.drop 1 else s.ap := by
  unfold step
  split_ifs with hdigit hb hb
  · exact absurd hdigit.2 (by rw [hb]; decide)
  · rfl
  · obtain ⟨w, ap, hap, -⟩ := (hstar hb).word
    rw [Flag.ofChar_star.mpr hb]
    simp [flag, hap, vaInt]
  · obtain ⟨f, hf⟩ := Option.isSome_iff_exists.mp hflag
    rw [hf]
    cases f with
    | star => exact absurd (Flag.ofChar_star.mp hf) hb
    | _ => exact s.leave_ap

/-- A star at the front has its argument. -/
theorem star_of_meets (hap : Meets (starDemands (b :: flags)) s.ap) (hb : b = ascii '*') :
    Meets [.word] s.ap := by
  rw [starDemands_cons, if_pos hb] at hap
  obtain ⟨w, ap, hap, -⟩ := hap.word
  rw [hap]
  exact ⟨trivial, trivial⟩

/-- After a flag the arguments of the other stars are left. -/
theorem step_meets (hflag : isFlag b) (hap : Meets (starDemands (b :: flags)) s.ap) :
    Meets (starDemands flags) (s.step b).ap ∧
      (s.step b).ap.drop (starDemands flags).length =
        s.ap.drop (starDemands (b :: flags)).length := by
  rw [step_ap hflag (star_of_meets hap)]
  rw [starDemands_cons] at hap ⊢
  split_ifs at hap ⊢
  · obtain ⟨w, ap, hap, hrest⟩ := hap.word
    rw [hap]
    exact ⟨hrest, rfl⟩
  · exact ⟨hap, rfl⟩

/-- The stars take their arguments. -/
theorem foldl_ap (hflags : ∀ b ∈ flags, isFlag b) (hap : Meets (starDemands flags) s.ap) :
    (flags.foldl step s).ap = s.ap.drop (starDemands flags).length := by
  induction flags generalizing s with
  | nil => rfl
  | cons b flags ih =>
      obtain ⟨hb, hflags⟩ := List.forall_mem_cons.mp hflags
      obtain ⟨hmeets, hdrop⟩ := step_meets hb hap
      rw [List.foldl_cons, ih hflags hmeets, hdrop]

theorem step_star (w : BitVec 32) (ap : List Arg) (e : Esc) :
    step ⟨false, .word w :: ap, e⟩ (ascii '*') =
      ⟨false, ap, { e with precision := w.toInt }.processPrecision⟩ := rfl

/-- The `l` flags are counted. -/
theorem step_lflag (s : Scan) (hflag : isFlag b) :
    (s.step b).esc.lflag = s.esc.lflag + if b = ascii 'l' then 1 else 0 := by
  unfold step
  split_ifs with hdigit hb hb
  · exact absurd hdigit.2 (by rw [hb]; decide)
  · rfl
  · rw [Flag.ofChar_long.mpr hb]
    exact congrArg (· + 1) s.leave_lflag
  · obtain ⟨f, hf⟩ := Option.isSome_iff_exists.mp hflag
    rw [hf]
    cases f with
    | long => exact absurd (Flag.ofChar_long.mp hf) hb
    | star =>
        simp only [flag]
        split <;> simp
    | _ => exact s.leave_lflag

theorem foldl_lflag (s : Scan) (hflags : ∀ b ∈ flags, isFlag b) :
    (flags.foldl step s).esc.lflag = s.esc.lflag + longs flags := by
  induction flags generalizing s with
  | nil => rfl
  | cons b flags ih =>
      obtain ⟨hb, hflags⟩ := List.forall_mem_cons.mp hflags
      rw [List.foldl_cons, ih _ hflags, s.step_lflag hb, longs_cons]
      omega

/-- **The scan of an escape.**  All the flags are read, and the character after them,
which may be the NUL. -/
theorem resume_flags (hflags : ∀ b ∈ flags, isFlag b) (hrest : ¬ isFlag (rest.headD 0))
    (hat : fmt.At i (flags ++ rest)) (hap : Meets (starDemands flags) s.ap) :
    s.resume fmt i = .ok (rest.headD 0, i + flags.length + 1,
      s.ap.drop (starDemands flags).length, (flags.foldl step s).leave.esc) := by
  induction flags generalizing i s with
  | nil =>
      have hdigit : rest.headD 0 < ascii '0' ∨ ascii '9' < rest.headD 0 :=
        not_not.mp fun hdigit ↦ hrest (isFlag_of_digit hdigit).1
      rw [resume_leave hat.read hdigit, resume, s.leave_inNumber]
      exact (reswitch_stop hat.read hrest _ _).trans (by rw [leave_ap]; rfl)
  | cons b flags ih =>
      obtain ⟨hb, hflags⟩ := List.forall_mem_cons.mp hflags
      have hread : fmt.read i = .ok b := hat.read
      obtain ⟨hmeets, hdrop⟩ := step_meets hb hap
      rw [resume_step hread hb (star_of_meets hap), ih hflags hat.tail hmeets, hdrop,
        List.foldl_cons, List.length_cons,
        show i + 1 + flags.length + 1 = i + (flags.length + 1) + 1 by omega]

end Scan

/-- Flags have been read up to the character after them. -/
def ReadFlags (flags rest : List Byte) (i : Nat) (ap : List Arg) (e : Esc)
    (r : Except Stop (Byte × Nat × List Arg × Esc)) : Prop :=
  ∃ e', r = .ok (rest.headD 0, i + flags.length + 1, ap.drop (starDemands flags).length, e') ∧
    e'.lflag = e.lflag + longs flags

/-- The scan of an escape, from a flag or from a digit of a number on. -/
theorem readFlags {fmt : CString} {flags rest : List Byte} (hflags : ∀ b ∈ flags, isFlag b)
    (hrest : ¬ isFlag (rest.headD 0)) {i : Nat} {ap : List Arg} (hat : fmt.At i (flags ++ rest))
    (hap : Meets (starDemands flags) ap) (e : Esc) :
    ReadFlags flags rest i ap e (reswitch fmt i ap e) ∧
      ReadFlags flags rest i ap e (widthField fmt i ap e) := by
  have hread : ∀ num, ReadFlags flags rest i ap e (Scan.resume ⟨num, ap, e⟩ fmt i) := by
    intro num
    refine ⟨_, Scan.resume_flags hflags hrest hat hap, ?_⟩
    rw [Scan.leave_lflag, Scan.foldl_lflag _ hflags]
  exact ⟨hread false, hread true⟩

/-- **The backward scan.**  It stops at the `%` before the flags. -/
theorem rewind_flags {fmt : CString} {flags rest : List Byte} (hflags : ∀ b ∈ flags, isFlag b)
    {i : Nat} (hat : fmt.At i (ascii '%' :: flags ++ rest)) :
    rewind fmt (i + 1 + flags.length) = .ok (i + 1) := by
  induction flags using List.reverseRecOn generalizing rest with
  | nil =>
      have hread : fmt.read i = .ok (ascii '%') := hat.read
      simp [rewind, hread]
  | append_singleton flags b ih =>
      have hne : b ≠ ascii '%' := by
        rintro rfl
        exact not_isFlag_percent (hflags _ (by simp))
      rw [← List.cons_append, List.append_assoc] at hat
      have hread : fmt.read (i + 1 + flags.length) = .ok b := by
        have := hat.append.read
        rwa [List.length_cons, Nat.add_comm flags.length, ← Nat.add_assoc] at this
      rw [List.length_append, List.length_singleton, ← Nat.add_assoc, rewind, hread, Result.ok_bind,
        if_pos hne]
      exact ih (fun b hb ↦ hflags b (List.mem_append_left _ hb)) hat

end JosKernel.Printf
