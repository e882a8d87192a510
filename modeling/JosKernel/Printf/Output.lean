import JosKernel.Lib.Emit
import JosKernel.Printf.Format

/-!
# The output of `vprintfmt`

Nothing in the formatter depends on what `putch` does.  So for each of its parts there
is a list of codes that it hands to any `putch`, together with what it returns or why
it stops; for `vprintfmt` this is `vprintfmt_emits`.
-/

namespace JosKernel.Printf

/-- For every callback, `f` hands it the codes of `r`, or stops where `r` does. -/
def Emits {β : Type} (f : ∀ σ : Type, (Code → σ → σ) → σ → Except Stop (β × σ))
    (r : Except Stop (β × List Code)) : Prop :=
  ∀ σ putch s, f σ putch s = r.map fun (b, cs) ↦ (b, emit putch cs s)

section

variable {β γ : Type} {f : ∀ σ : Type, (Code → σ → σ) → σ → Except Stop (β × σ)}
  {g : β → ∀ σ : Type, (Code → σ → σ) → σ → Except Stop (γ × σ)}

/-- One part after another. -/
theorem exists_emits_bind (hf : ∃ r, Emits f r) (hg : ∀ b, ∃ r, Emits (g b) r) :
    ∃ r, Emits (fun σ putch s ↦ do let (b, s) ← f σ putch s; g b σ putch s) r := by
  obtain ⟨r, hr⟩ := hf
  choose r' hr' using hg
  refine ⟨do let (b, cs) ← r; let (b', cs') ← r' b; return (b', cs ++ cs'), ?_⟩
  intro σ putch s
  simp only [hr σ putch s]
  cases r with
  | error stop => rfl
  | ok p =>
      simp only [Result.map_ok, Result.ok_bind, hr' p.1 σ putch (emit putch p.2 s)]
      cases r' p.1 with
      | error stop => rfl
      | ok q => simp [emit_append]

/-- A part that hands nothing to the callback. -/
theorem exists_emits_lift {α : Type} (x : Except Stop α)
    {h : α → ∀ σ : Type, (Code → σ → σ) → σ → Except Stop (γ × σ)}
    (hh : ∀ a, ∃ r, Emits (h a) r) :
    ∃ r, Emits (fun σ putch s ↦ x >>= fun a ↦ h a σ putch s) r := by
  cases x with
  | error stop => exact ⟨.error stop, fun σ putch s ↦ rfl⟩
  | ok a => exact hh a

/-- A part that always hands over the same codes. -/
theorem exists_emits_of_eq {b : β} {h : ∀ σ : Type, (Code → σ → σ) → σ → σ}
    (hh : ∃ cs, ∀ σ putch s, h σ putch s = emit putch cs s) :
    ∃ r, Emits (fun σ putch s ↦ .ok (b, h σ putch s)) r := by
  obtain ⟨cs, hcs⟩ := hh
  exact ⟨.ok (b, cs), fun σ putch s ↦ by simp only [hcs]; rfl⟩

end

/-- A padding loop pads up to the width. -/
theorem padLoop_eq {σ : Type} (putch : Code → σ → σ) (padc : Code) (width : Int) (s : σ) :
    padLoop putch padc width s =
      (min width 0, emit putch (List.replicate width.toNat padc) s) := by
  unfold padLoop
  split_ifs with h
  · rw [padLoop_eq putch padc (width - 1), show width.toNat = (width - 1).toNat + 1 by omega,
      List.replicate_succ, emit_cons, show min (width - 1) 0 = min width 0 by omega]
  · rw [show width.toNat = 0 by omega, show min width 0 = width by omega]
    rfl
termination_by width.toNat

theorem printnum_emits (base : Base) (padc : Code) (num : Nat) (width : Int) :
    ∃ cs, ∀ (σ : Type) (putch : Code → σ → σ) (s : σ),
      printnum putch base padc num width s = emit putch cs s := by
  by_cases h : base.val ≤ num
  · have hlt : num / base.val < num := by
      have := base.two_le
      exact Nat.div_lt_self (by omega) (by omega)
    obtain ⟨cs, hcs⟩ := printnum_emits base padc (num / base.val) (wrap32 (width - 1))
    refine ⟨cs ++ [digit (num % base.val)], ?_⟩
    intro σ putch s
    rw [printnum, dif_pos h, hcs, emit_append]
    rfl
  · refine ⟨List.replicate (wrap32 (width - 1)).toNat padc ++ [digit (num % base.val)],
      fun σ putch s ↦ ?_⟩
    rw [printnum, dif_neg h, padLoop_eq, emit_append]
    rfl
termination_by num

theorem strLoop_emits (altflag : Bool) (bs : List Byte) (precision width : Int) :
    ∃ r, Emits (fun _ putch s ↦ strLoop putch altflag bs precision width s) r := by
  induction bs generalizing precision width with
  | nil => exact ⟨.error .str, fun σ putch s ↦ rfl⟩
  | cons b bs ih =>
      by_cases hb : b = 0
      · exact ⟨.ok (width, []), fun σ putch s ↦ by simp only [strLoop, hb, if_true]; rfl⟩
      by_cases hprec : precision < 0 ∨ 0 ≤ precision - 1
      · obtain ⟨r, hr⟩ := ih (if precision < 0 then precision else precision - 1)
          (wrap32 (width - 1))
        let c : Code := b.signExtend 32
        let c' := if altflag ∧ (c.toInt < 0x20 ∨ 0x7E < c.toInt) then 0x3F else c
        refine ⟨r.map fun (w, cs) ↦ (w, c' :: cs), ?_⟩
        intro σ putch s
        simp only [strLoop, hb, hprec, if_true, if_false]
        rw [show (if altflag ∧ (c.toInt < 0x20 ∨ 0x7E < c.toInt) then putch 0x3F s else putch c s) =
          putch c' s from (apply_ite (fun c ↦ putch c s) _ _ _).symm]
        refine (hr σ putch (putch c' s)).trans ?_
        cases r <;> rfl
      · exact ⟨.ok (width, []), fun σ putch s ↦ by simp only [strLoop, hb, hprec, if_false]; rfl⟩

/-! ## Conversions -/

theorem number_emits (e : Esc) (num : BitVec 64) (base : Base) :
    ∃ cs, ∀ (σ : Type) (putch : Code → σ → σ) (s : σ),
      number putch e num base s = emit putch cs s :=
  printnum_emits base _ _ _

/-- A code, and then a number. -/
theorem putch_number_emits (cs : List Code) (e : Esc) (num : BitVec 64) (base : Base) :
    ∃ cs', ∀ (σ : Type) (putch : Code → σ → σ) (s : σ),
      number putch e num base (emit putch cs s) = emit putch cs' s := by
  obtain ⟨cs', h⟩ := number_emits e num base
  exact ⟨cs ++ cs', fun σ putch s ↦ by rw [h, emit_append]⟩

theorem padLeft_emits (e : Esc) (p : List Byte) :
    ∃ r, Emits (fun _ putch s ↦ padLeft putch e p s) r := by
  by_cases hpad : 0 < e.width ∧ e.padc ≠ ascii '-'
  · simp only [padLeft, if_pos hpad, padLoop_eq]
    exact exists_emits_lift _ fun len ↦ exists_emits_of_eq ⟨_, fun σ putch s ↦ rfl⟩
  · simp only [padLeft, if_neg hpad]
    exact exists_emits_of_eq ⟨[], fun σ putch s ↦ rfl⟩

theorem convStr_emits (e : Esc) (ap : List Arg) :
    ∃ r, Emits (fun _ putch s ↦ convStr putch e ap s) r := by
  have hright : ∀ ap width, ∃ r, Emits (fun σ (putch : Code → σ → σ) s ↦
      .ok ((ap : List Arg), (padLoop putch 0x20 width s).2)) r := fun ap width ↦ by
    simp only [padLoop_eq]
    exact exists_emits_of_eq ⟨_, fun σ putch s ↦ rfl⟩
  refine exists_emits_lift (vaStr ap) fun (p, ap) ↦ ?_
  exact exists_emits_bind (padLeft_emits e (stringOrNull p)) fun width ↦
    exists_emits_bind (strLoop_emits e.altflag (stringOrNull p) e.precision width) (hright ap)

theorem convert_emits (conv : Conv) (e : Esc) (ap : List Arg) :
    ∃ r, Emits (fun _ putch s ↦ convert putch conv e ap s) r := by
  have hunsigned : ∀ base, ∃ r, Emits (fun _ putch s ↦ convUnsigned putch base e ap s) r :=
    fun base ↦ exists_emits_lift (getuint e.lflag ap) fun (num, ap) ↦
      exists_emits_of_eq (number_emits e num base)
  cases conv with
  | c => exact exists_emits_lift (vaInt ap) fun (n, ap) ↦
      exists_emits_of_eq ⟨[BitVec.ofInt 32 n], fun σ putch s ↦ rfl⟩
  | s => exact convStr_emits e ap
  | d =>
      refine exists_emits_lift (getint e.lflag ap) fun (num, ap) ↦ ?_
      by_cases hneg : num.toInt < 0
      · simp only [if_pos hneg]
        exact exists_emits_of_eq (putch_number_emits [0x2D] e (-num) _)
      · simp only [if_neg hneg]
        exact exists_emits_of_eq (number_emits e num _)
  | u => exact hunsigned _
  | o => exact hunsigned _
  | p =>
      simp only [convert, convPointer]
      split
      · exact exists_emits_of_eq (putch_number_emits [0x30, 0x78] e _ _)
      · exact ⟨.error .arg, fun σ putch s ↦ rfl⟩
  | x => exact hunsigned _
  | percent => exact exists_emits_of_eq ⟨[0x25], fun σ putch s ↦ rfl⟩

/-! ## The loop -/

theorem printText_emits (fmt : CString) (i : Nat) :
    ∃ r, Emits (fun _ putch s ↦ printText putch fmt i s) r := by
  cases hread : fmt.read i with
  | error stop => exact ⟨.error stop, fun σ putch s ↦ printText_error putch hread s⟩
  | ok ch =>
      simp only [fun σ putch ↦ @printText_eq σ putch _ _ _ hread]
      by_cases hpercent : ch = ascii '%'
      · simp only [if_pos hpercent]
        exact ⟨.ok (some (i + 1), []), fun σ putch s ↦ rfl⟩
      by_cases hzero : ch = 0
      · simp only [if_neg hpercent, if_pos hzero]
        exact ⟨.ok (none, []), fun σ putch s ↦ rfl⟩
      have hlt := CString.lt_of_read hread hzero
      obtain ⟨r, hr⟩ := printText_emits fmt (i + 1)
      simp only [if_neg hpercent, if_neg hzero]
      refine ⟨r.map fun (j, cs) ↦ (j, ch.setWidth 32 :: cs), ?_⟩
      intro σ putch s
      refine (hr σ putch (putch (ch.setWidth 32) s)).trans ?_
      cases r <;> rfl
termination_by fmt.bytes.length - i

/-- `Emits` for a part that returns nothing. -/
def EmitsOnly (f : ∀ σ : Type, (Code → σ → σ) → σ → Except Stop σ)
    (r : Except Stop (List Code)) : Prop :=
  ∀ σ putch s, f σ putch s = r.map fun cs ↦ emit putch cs s

/-- A part that returns nothing, after another part. -/
theorem exists_emitsOnly_bind {β : Type} {f : ∀ σ : Type, (Code → σ → σ) → σ → Except Stop (β × σ)}
    {g : β → ∀ σ : Type, (Code → σ → σ) → σ → Except Stop σ} (hf : ∃ r, Emits f r)
    (hg : ∀ b, ∃ r, EmitsOnly (g b) r) :
    ∃ r, EmitsOnly (fun σ putch s ↦ do let (b, s) ← f σ putch s; g b σ putch s) r := by
  obtain ⟨r, hr⟩ := hf
  choose r' hr' using hg
  refine ⟨do let (b, cs) ← r; let cs' ← r' b; return cs ++ cs', ?_⟩
  intro σ putch s
  simp only [hr σ putch s]
  cases r with
  | error stop => rfl
  | ok p =>
      simp only [Result.map_ok, Result.ok_bind, hr' p.1 σ putch (emit putch p.2 s)]
      cases r' p.1 with
      | error stop => rfl
      | ok cs' => simp [emit_append]

/-- The rest of a pass of the outer loop. -/
theorem escape_emits {go : ∀ σ : Type,
      (Code → σ → σ) → CString → Nat → List Arg → σ → Except Stop σ}
    (hgo : ∀ fmt i ap, ∃ r, EmitsOnly (fun σ putch s ↦ go σ putch fmt i ap s) r) (fmt : CString)
    (i : Nat) (ap : List Arg) :
    ∃ r, EmitsOnly (fun σ putch s ↦ escape putch (go σ putch) fmt i ap s) r := by
  cases hswitch : reswitch fmt i ap {} with
  | error stop => exact ⟨.error stop, fun σ putch s ↦ by simp only [escape, hswitch]; rfl⟩
  | ok p =>
      obtain ⟨ch, j, ap', e⟩ := p
      simp only [escape, hswitch, Result.ok_bind]
      by_cases he : ch = ascii 'e'
      · simp only [if_pos he]
        cases herr : convError ap' with
        | error stop => exact ⟨.error stop, fun σ putch s ↦ rfl⟩
        | ok p =>
            obtain ⟨⟨fmt', ap''⟩, ap₁⟩ := p
            obtain ⟨r, hr⟩ := hgo fmt' 0 ap''
            obtain ⟨r', hr'⟩ := hgo fmt j ap₁
            refine ⟨do let cs ← r; let cs' ← r'; return cs ++ cs', ?_⟩
            intro σ putch s
            simp only [Result.ok_bind, hr σ putch s]
            cases r with
            | error stop => rfl
            | ok cs =>
                simp only [Result.map_ok, Result.ok_bind, hr' σ putch (emit putch cs s)]
                cases r' <;> simp [emit_append]
      · simp only [if_neg he]
        cases hconv : Conv.ofChar ch with
        | some conv =>
            exact exists_emitsOnly_bind (convert_emits conv e ap') fun ap'' ↦ hgo fmt j ap''
        | none =>
            cases hback : rewind fmt (j - 1) with
            | error stop => exact ⟨.error stop, fun σ putch s ↦ rfl⟩
            | ok k =>
                obtain ⟨r, hr⟩ := hgo fmt k ap'
                refine ⟨r.map fun cs ↦ 0x25 :: cs, ?_⟩
                intro σ putch s
                simp only [Result.ok_bind]
                refine (hr σ putch (putch 0x25 s)).trans ?_
                cases r <;> rfl

/-- **The output of `vprintfmt`.**  What a run does to the state of the callback is to
hand it a list of codes that depends on the format and the arguments only. -/
theorem vprintfmt_emits (fuel : Nat) (fmt : CString) (i : Nat) (ap : List Arg) :
    ∃ r, EmitsOnly (fun _ putch s ↦ vprintfmt putch fuel fmt i ap s) r := by
  induction fuel generalizing fmt i ap with
  | zero => exact ⟨.error .fuel, fun σ putch s ↦ rfl⟩
  | succ fuel ih =>
      simp only [vprintfmt]
      obtain ⟨r, hr⟩ := printText_emits fmt i
      cases r with
      | error stop => exact ⟨.error stop, fun σ putch s ↦ by simp only [hr σ putch s]; rfl⟩
      | ok p =>
          obtain ⟨next, cs⟩ := p
          cases next with
          | none => exact ⟨.ok cs, fun σ putch s ↦ by simp only [hr σ putch s]; rfl⟩
          | some j =>
              obtain ⟨r', hr'⟩ := escape_emits ih fmt j ap
              refine ⟨r'.map fun cs' ↦ cs ++ cs', ?_⟩
              intro σ putch s
              simp only [hr σ putch s, Result.map_ok, Result.ok_bind]
              refine (hr' σ putch (emit putch cs s)).trans ?_
              cases r' <;> simp [emit_append]

/-! ## More fuel -/

section

variable {σ : Type} (putch : Code → σ → σ)

theorem escape_upTo {go go' : CString → Nat → List Arg → σ → Except Stop σ}
    (hgo : ∀ fmt i ap s, Result.UpTo .fuel (go fmt i ap s) (go' fmt i ap s)) (fmt : CString)
    (i : Nat) (ap : List Arg) (s : σ) :
    Result.UpTo .fuel (escape putch go fmt i ap s) (escape putch go' fmt i ap s) := by
  refine .bind (.refl _ _) ?_
  rintro ⟨ch, i, ap, e⟩
  dsimp only
  split_ifs
  · refine .bind (.refl _ _) ?_
    rintro ⟨⟨fmt', ap'⟩, ap⟩
    exact .bind (hgo fmt' 0 ap' s) fun s ↦ hgo fmt i ap s
  · split
    · exact .bind (.refl _ _) fun r ↦ hgo fmt i r.1 r.2
    · exact .bind (.refl _ _) fun i ↦ hgo fmt i ap _

/-- **More fuel.**  A run that does not use up its fuel is the same with more. -/
theorem vprintfmt_upTo {fuel fuel' : Nat} (h : fuel ≤ fuel') (fmt : CString) (i : Nat)
    (ap : List Arg) (s : σ) :
    Result.UpTo .fuel (vprintfmt putch fuel fmt i ap s) (vprintfmt putch fuel' fmt i ap s) := by
  induction fuel generalizing fuel' fmt i ap s with
  | zero => exact .inl rfl
  | succ fuel ih =>
      obtain ⟨fuel', rfl⟩ := Nat.exists_eq_add_of_le' (Nat.le_trans (Nat.le_add_left 1 fuel) h)
      refine .bind (.refl _ _) ?_
      rintro ⟨_ | j, s⟩
      · exact .refl _ _
      · exact escape_upTo putch (ih (Nat.le_of_succ_le_succ h)) fmt j ap s

end

/-- What a run records is what it hands to any callback. -/
theorem vprintfmt_of_record {fuel : Nat} {fmt : CString} {i : Nat} {ap : List Arg} {W : List Code}
    (h : vprintfmt record fuel fmt i ap [] = .ok W) {σ : Type} (putch : Code → σ → σ) (s : σ) :
    vprintfmt putch fuel fmt i ap s = .ok (emit putch W s) := by
  obtain ⟨r, hr⟩ := vprintfmt_emits fuel fmt i ap
  have hrec := (hr _ record []).symm.trans h
  cases r with
  | error stop => cases hrec
  | ok cs =>
      rw [Result.map_ok, emit_record, List.nil_append] at hrec
      cases hrec
      exact hr σ putch s

end JosKernel.Printf
