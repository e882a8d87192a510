import JosKernel.Console.Tape

/-!
# The display shows a window of the tape

`Shows` is the refinement relation: the display memory is the window of the tape, and
the tape is blank below it.  The cases of `cga_putc` keep it but may leave the cursor
just below the window; `scroll` brings it back, as `Tape.follow` does
(`Shows.scroll`).  `cgaPutcs_tape` is the refinement for any sequence of characters.
-/

namespace JosKernel.Console

variable {dev : Device} {m m' m'' : Out} {t : Tape} {c : BitVec 32} {j k : Nat}

/-! ## What is done to the display memory -/

/-- A write to the display memory stays on the screen. -/
def IoEvent.InRange : IoEvent → Prop
  | .outb _ _ => True
  | .store i _ => i < crtSize
  | .memmove dst src n => dst + n ≤ crtSize ∧ src + n ≤ crtSize

/-- The number of scrolls. -/
def scrolls (evs : List IoEvent) : Nat :=
  evs.countP fun
    | .memmove _ _ _ => true
    | _ => false

/-- From `m` to `m'`, all writes are on the screen and there are `k` scrolls. -/
def Acts (m m' : Out) (k : Nat) : Prop :=
  ∃ evs, m'.log = m.log ++ evs ∧ (∀ e ∈ evs, e.InRange) ∧ scrolls evs = k

theorem Acts.refl (h : m'.log = m.log) : Acts m m' 0 := ⟨[], by simp [h], by simp, rfl⟩

theorem Acts.trans (h : Acts m m' j) (h' : Acts m' m'' k) : Acts m m'' (j + k) := by
  obtain ⟨evs, hlog, hin, rfl⟩ := h
  obtain ⟨evs', hlog', hin', rfl⟩ := h'
  refine ⟨evs ++ evs', by rw [hlog', hlog, List.append_assoc], fun e he ↦ ?_, ?_⟩
  · exact (List.mem_append.mp he).elim (hin e) (hin' e)
  · simp [scrolls]

theorem Acts.one {e : IoEvent} (hlog : m'.log = m.log ++ [e]) (he : e.InRange)
    (hk : scrolls [e] = k) : Acts m m' k :=
  ⟨[e], hlog, by simpa using he, hk⟩

theorem acts_outb (p : BitVec 16) (b : Byte) (m : Out) : Acts m (outb p b m) 0 :=
  .one rfl trivial rfl

theorem acts_crtStore {i : Nat} (v : BitVec 16) (hi : i < crtSize) : Acts m (crtStore i v m) 0 :=
  .one rfl hi rfl

/-! ## Actions that leave the display alone -/

/-- `m'` has the display of `m`, and nothing has been written to it. -/
structure SameDisplay (m m' : Out) : Prop where
  buf : m'.crtBuf = m.crtBuf
  pos : m'.crtPos = m.crtPos
  acts : Acts m m' 0

theorem SameDisplay.trans (h : SameDisplay m m') (h' : SameDisplay m' m'') : SameDisplay m m'' :=
  ⟨h'.buf.trans h.buf, h'.pos.trans h.pos, h.acts.trans h'.acts⟩

theorem sameDisplay_outb (p : BitVec 16) (b : Byte) (m : Out) : SameDisplay m (outb p b m) :=
  ⟨rfl, rfl, acts_outb p b m⟩

theorem sameDisplay_waitFor (port : BitVec 16) (mask : Byte) (n : Nat) (m : Out) :
    SameDisplay m (waitFor dev port mask n m) := by
  induction n generalizing m with
  | zero => exact ⟨rfl, rfl, .refl rfl⟩
  | succ n ih =>
      simp only [waitFor]
      have hread : SameDisplay m (inb dev port m).2 := ⟨rfl, rfl, .refl rfl⟩
      have hdelay : SameDisplay m (delay dev (inb dev port m).2) := ⟨rfl, rfl, .refl rfl⟩
      split_ifs
      · exact hdelay.trans (ih _)
      · exact hread

variable (dev) in
theorem sameDisplay_ports (c : BitVec 32) (m : Out) :
    SameDisplay m (lptPutc dev c (serialPutc dev c m)) :=
  (sameDisplay_waitFor _ _ _ _).trans <| (sameDisplay_outb _ _ _).trans <|
    (sameDisplay_waitFor _ _ _ _).trans <| (sameDisplay_outb _ _ _).trans <|
    (sameDisplay_outb _ _ _).trans (sameDisplay_outb _ _ _)

theorem sameDisplay_moveCursor (m : Out) : SameDisplay m (moveCursor m) :=
  (sameDisplay_outb _ _ _).trans <| (sameDisplay_outb _ _ _).trans <|
    (sameDisplay_outb _ _ _).trans (sameDisplay_outb _ _ _)

/-! ## The window -/

/-- The display memory is the window of the tape. -/
structure Shows (t : Tape) (m : Out) : Prop where
  cursor : t.cursor = crtCols * t.top + m.crtPos.toNat
  window : ∀ i < crtSize, m.crtBuf i = t.cells (crtCols * t.top + i)
  below : ∀ i, crtCols * t.top + crtSize ≤ i → t.cells i = blank

theorem shows_ofScreen (m : Out) : Shows (.ofScreen m) m where
  cursor := by simp [Tape.ofScreen]
  window i hi := by simp [Tape.ofScreen, hi]
  below i hi := if_neg (by simp only [Tape.ofScreen] at hi ⊢; omega)

theorem Shows.sameDisplay (h : Shows t m) (hsame : SameDisplay m m') : Shows t m' where
  cursor := by rw [hsame.pos]; exact h.cursor
  window := by rw [hsame.buf]; exact h.window
  below := h.below

/-- A store into the window. -/
theorem Shows.store (h : Shows t m) {i : Nat} (hi : i < crtSize) (v : BitVec 16) :
    Shows (t.write (crtCols * t.top + i) v) (crtStore i v m) where
  cursor := h.cursor
  window j hj := by
    simp only [crtStore, Tape.write, Nat.add_left_cancel_iff]
    split_ifs
    · rfl
    · exact h.window j hj
  below j hj := by
    simp only [Tape.write] at hj ⊢
    rw [if_neg (by omega)]
    exact h.below j hj

/-! ## The cases of the switch -/

theorem carriageReturn_toNat (m : Out) :
    (carriageReturn m).crtPos.toNat = crtCols * (m.crtPos.toNat / crtCols) := by
  have hmod : (m.crtPos % BitVec.ofNat 16 crtCols).toNat = m.crtPos.toNat % crtCols :=
    BitVec.toNat_umod
  have := m.crtPos.isLt
  simp only [carriageReturn, BitVec.toNat_sub, hmod]
  simp only [crtCols]
  omega

theorem Shows.carriageReturn (h : Shows t m) : Shows t.carriageReturn (carriageReturn m) where
  cursor := by
    rw [carriageReturn_toNat]
    simp only [Tape.carriageReturn, h.cursor, crtCols]
    omega
  window := h.window
  below := h.below

/-- The cases of the switch keep the window, and leave the cursor in it or at the
first cell below it. -/
structure Moves (t : Tape) (m : Out) (t' : Tape) (m' : Out) : Prop where
  shows : Shows t' m'
  pos : m'.crtPos.toNat ≤ crtSize
  top : t'.top = t.top
  acts : Acts m m' 0

theorem Shows.put (h : Shows t m) (hlt : m.crtPos.toNat < crtSize) (v : BitVec 16) :
    Moves t m (t.put v)
      { crtStore m.crtPos.toNat v m with crtPos := (crtStore m.crtPos.toNat v m).crtPos + 1 } := by
  have hstore := h.store hlt v
  have hpos : (m.crtPos + 1).toNat = m.crtPos.toNat + 1 := by
    simp only [crtSize, crtRows, crtCols] at hlt
    bv_omega
  refine ⟨⟨?_, ?_, ?_⟩, ?_, rfl, acts_crtStore v hlt⟩
  · simp only [Tape.put, Tape.write, crtStore, hpos, h.cursor]
    omega
  · simpa only [Tape.put, h.cursor] using hstore.window
  · simpa only [Tape.put, h.cursor] using hstore.below
  · simp only [crtStore, hpos]
    omega

theorem Shows.backspace (h : Shows t m) (hlt : m.crtPos.toNat < crtSize) (hne : m.crtPos ≠ 0)
    (v : BitVec 16) :
    Moves t m (t.backspace v)
      (crtStore (m.crtPos - 1).toNat v { m with crtPos := m.crtPos - 1 }) := by
  have hpos : (m.crtPos - 1).toNat + 1 = m.crtPos.toNat := by bv_omega
  have hcell : t.cursor - 1 = crtCols * t.top + (m.crtPos - 1).toNat := by
    rw [h.cursor]
    omega
  have hback : t.backspace v =
      { t.write (crtCols * t.top + (m.crtPos - 1).toNat) v with
        cursor := crtCols * t.top + (m.crtPos - 1).toNat } := by
    rw [Tape.backspace, if_neg (by rw [h.cursor]; omega), hcell]
  have hstore := h.store (by omega : (m.crtPos - 1).toNat < crtSize) v
  rw [hback]
  refine ⟨⟨rfl, hstore.window, hstore.below⟩, ?_, rfl, acts_crtStore v (by omega)⟩
  simp only [crtStore]
  omega

theorem Shows.newline (h : Shows t m) (hlt : m.crtPos.toNat < crtSize) :
    Moves t m t.newline
      (Console.carriageReturn { m with crtPos := m.crtPos + BitVec.ofNat 16 crtCols }) := by
  have hpos : (m.crtPos + BitVec.ofNat 16 crtCols).toNat = m.crtPos.toNat + crtCols := by
    simp only [crtSize, crtRows, crtCols] at hlt ⊢
    bv_omega
  refine ⟨⟨?_, h.window, h.below⟩, ?_, rfl, .refl rfl⟩
  · rw [carriageReturn_toNat, hpos]
    simp only [Tape.newline, h.cursor, crtCols]
    omega
  · rw [carriageReturn_toNat, hpos]
    simp only [crtSize, crtRows, crtCols] at hlt ⊢
    omega

theorem Shows.cgaSwitch (h : Shows t m) (hlt : m.crtPos.toNat < crtSize) (c : BitVec 32) :
    Moves t m (t.act c) (cgaSwitch c m) := by
  unfold Tape.act Console.cgaSwitch
  split_ifs with hb hzero hn hr
  · have hback : ∀ v, t.backspace v = t := fun v ↦ if_pos (by rw [h.cursor, hzero]; rfl)
    rw [hback]
    exact ⟨h, Nat.le_of_lt hlt, rfl, .refl rfl⟩
  · exact h.backspace hlt hzero _
  · exact h.newline hlt
  · refine ⟨h.carriageReturn, ?_, rfl, .refl rfl⟩
    rw [carriageReturn_toNat]
    simp only [crtCols]
    omega
  · exact h.put hlt _

/-! ## Scrolling -/

theorem crtStores (i n : Nat) (v : BitVec 16) (m : Out) :
    let m' := (List.range' i n).foldl (fun m i ↦ crtStore i v m) m
    m'.crtPos = m.crtPos ∧ (∀ j, m'.crtBuf j = if i ≤ j ∧ j < i + n then v else m.crtBuf j) ∧
      (i + n ≤ crtSize → Acts m m' 0) := by
  induction n generalizing i m with
  | zero => exact ⟨rfl, fun j ↦ by rw [if_neg (by omega)]; rfl, fun _ ↦ .refl rfl⟩
  | succ n ih =>
      obtain ⟨hpos, hbuf, hacts⟩ := ih (i + 1) (crtStore i v m)
      simp only [List.range'_succ, List.foldl_cons]
      refine ⟨hpos, fun j ↦ ?_, fun hle ↦ ?_⟩
      · rw [hbuf j]
        simp only [crtStore]
        split_ifs <;> first | rfl | omega
      · exact (acts_crtStore v (by omega)).trans (hacts (by omega))

/-- From below the screen, `scroll` moves every row up by one and blanks the last. -/
theorem scroll_full (hfull : crtSize ≤ m.crtPos.toNat) :
    (scroll m).crtPos.toNat + crtCols = m.crtPos.toNat ∧
      (∀ i < crtSize, (scroll m).crtBuf i =
        if crtSize - crtCols ≤ i then blank else m.crtBuf (crtCols + i)) ∧
      Acts m (scroll m) 1 := by
  obtain ⟨hpos, hbuf, hacts⟩ := crtStores (crtSize - crtCols) crtCols blank
    (crtMemmove 0 crtCols (crtSize - crtCols) m)
  have hmove : Acts m (crtMemmove 0 crtCols (crtSize - crtCols) m) 1 :=
    .one rfl ⟨by decide, by decide⟩ rfl
  unfold Console.scroll
  rw [if_pos hfull]
  dsimp only
  refine ⟨?_, ?_, (hmove.trans (hacts (Nat.le_refl _))).trans (.refl rfl)⟩
  · rw [hpos]
    simp only [crtMemmove]
    simp only [crtSize, crtRows, crtCols] at hfull ⊢
    bv_omega
  · intro i hi
    have hsize : crtSize - crtCols + crtCols = crtSize := by decide
    rw [hbuf i, hsize]
    by_cases hlast : crtSize - crtCols ≤ i
    · rw [if_pos ⟨hlast, hi⟩, if_pos hlast]
    · rw [if_neg (by omega), if_neg hlast]
      simp only [crtMemmove]
      rw [if_pos (by omega), Nat.sub_zero]

/-- A step of the display refines a step of the tape. -/
structure Refines (t : Tape) (m : Out) (t' : Tape) (m' : Out) : Prop where
  shows : Shows t' m'
  lt : m'.crtPos.toNat < crtSize
  acts : ∃ k, Acts m m' k ∧ t'.top = t.top + k

/-- Scrolling is the window following the cursor. -/
theorem Shows.scroll (h : Shows t m) (hle : m.crtPos.toNat ≤ crtSize) :
    Refines t m t.follow (scroll m) := by
  unfold Tape.follow
  rw [h.cursor]
  by_cases hfull : crtSize ≤ m.crtPos.toNat
  · obtain ⟨hpos, hbuf, hacts⟩ := scroll_full hfull
    have hrow : crtCols * (t.top + 1) = crtCols * t.top + crtCols := Nat.mul_succ _ _
    rw [if_pos (by omega)]
    refine ⟨⟨?_, ?_, ?_⟩, ?_, 1, hacts, rfl⟩
    · dsimp only
      omega
    · intro i hi
      dsimp only
      rw [hbuf i hi, hrow, Nat.add_assoc]
      split_ifs with hlast
      · exact (h.below _ (by omega)).symm
      · exact h.window _ (by omega)
    · intro i hi
      dsimp only at hi
      exact h.below i (by omega)
    · simp only [crtSize, crtRows, crtCols] at hle hpos ⊢
      omega
  · rw [if_neg (by omega), Console.scroll, if_neg hfull]
    exact ⟨h, by omega, 0, .refl rfl, rfl⟩

/-! ## One character -/

theorem Refines.trans {t' t'' : Tape} (h : Refines t m t' m') (h' : Refines t' m' t'' m'') :
    Refines t m t'' m'' := by
  obtain ⟨j, hacts, htop⟩ := h.acts
  obtain ⟨k, hacts', htop'⟩ := h'.acts
  exact ⟨h'.shows, h'.lt, j + k, hacts.trans hacts', by omega⟩

theorem Refines.sameDisplay {t' : Tape} (h : Refines t m t' m') (hsame : SameDisplay m' m'') :
    Refines t m t' m'' := by
  obtain ⟨k, hacts, htop⟩ := h.acts
  exact ⟨h.shows.sameDisplay hsame, by rw [hsame.pos]; exact h.lt, k, hacts.trans hsame.acts, htop⟩

theorem SameDisplay.refines {t' : Tape} (hsame : SameDisplay m m') (h : Refines t m' t' m'') :
    Refines t m t' m'' := by
  obtain ⟨k, hacts, htop⟩ := h.acts
  exact ⟨h.shows, h.lt, k, by simpa using hsame.acts.trans hacts, htop⟩

theorem Moves.refines {t' : Tape} (h : Moves t m t' m') :
    Refines t m t'.follow (moveCursor (scroll m')) := by
  obtain ⟨hshows, hlt, k, hacts, htop⟩ := h.shows.scroll h.pos
  have hscroll : Refines t m t'.follow (scroll m') :=
    ⟨hshows, hlt, k, by simpa using h.acts.trans hacts, by rw [htop, h.top]⟩
  exact hscroll.sameDisplay (sameDisplay_moveCursor _)

theorem Shows.cgaPutc_of_not_tab (h : Shows t m) (hlt : m.crtPos.toNat < crtSize)
    (htab : isTab c = false) : Refines t m (t.putc c) (cgaPutc dev c m) := by
  rw [cgaPutc, Tape.putc]
  simp only [isTab_withAttribute, htab, Bool.false_eq_true, dif_neg, if_false, not_false_eq_true]
  exact (h.cgaSwitch hlt _).refines

variable (dev) in
/-- A blank of a tab. -/
theorem Shows.space (h : Shows t m) (hlt : m.crtPos.toNat < crtSize) :
    Refines t m t.space (consPutc dev 0x20 m) := by
  have hsame := sameDisplay_ports dev 0x20 m
  rw [consPutc, ← Tape.putc_space]
  exact hsame.refines <| (h.sameDisplay hsame).cgaPutc_of_not_tab (by rw [hsame.pos]; exact hlt)
    (by decide)

variable (dev) in
/-- **One character.** -/
theorem Shows.cgaPutc (h : Shows t m) (hlt : m.crtPos.toNat < crtSize) (c : BitVec 32) :
    Refines t m (t.putc c) (cgaPutc dev c m) := by
  cases htab : isTab c
  · exact h.cgaPutc_of_not_tab hlt htab
  · rw [Console.cgaPutc, Tape.putc]
    simp only [isTab_withAttribute, htab, dif_pos, if_true]
    have h₁ := h.space dev hlt
    have h₂ := h₁.trans (h₁.shows.space dev h₁.lt)
    have h₃ := h₂.trans (h₂.shows.space dev h₂.lt)
    have h₄ := h₃.trans (h₃.shows.space dev h₃.lt)
    have h₅ := h₄.trans (h₄.shows.space dev h₄.lt)
    -- after the blanks the cursor is on the screen, so `scroll` does nothing
    have hscroll := h₅.shows.scroll (Nat.le_of_lt h₅.lt)
    have hfollow : t.space.space.space.space.space.follow = t.space.space.space.space.space := by
      refine if_neg ?_
      have := h₅.shows.cursor
      have := h₅.lt
      omega
    rw [hfollow] at hscroll
    exact (h₅.trans hscroll).sameDisplay (sameDisplay_moveCursor _)

/-! ## Any sequence of characters -/

/-- `cga_putc` on each code in turn. -/
def cgaPutcs (dev : Device) (cs : List (BitVec 32)) (m : Out) : Out :=
  cs.foldl (fun m c ↦ cgaPutc dev c m) m

/-- The codes written to the tape in turn. -/
def Tape.putcs (cs : List (BitVec 32)) (t : Tape) : Tape := cs.foldl (fun t c ↦ t.putc c) t

variable (dev) in
theorem Shows.cgaPutcs (h : Shows t m) (hlt : m.crtPos.toNat < crtSize) (cs : List (BitVec 32)) :
    Refines t m (t.putcs cs) (cgaPutcs dev cs m) := by
  induction cs generalizing t m with
  | nil => exact ⟨h, hlt, 0, .refl rfl, rfl⟩
  | cons c cs ih =>
      have hc := h.cgaPutc dev hlt c
      exact hc.trans (ih hc.shows hc.lt)

/-- **The display refines the tape.**  From a cursor on the screen, after any sequence
of codes the cursor is on the screen, the screen is the window of the tape, all
writes were on the screen, and the window has moved down once for each scroll. -/
theorem cgaPutcs_tape (dev : Device) {m : Out} (hlt : m.crtPos.toNat < crtSize)
    (cs : List (BitVec 32)) :
    (cgaPutcs dev cs m).crtPos.toNat < crtSize ∧
      Shows ((Tape.ofScreen m).putcs cs) (cgaPutcs dev cs m) ∧
      ∃ evs, (cgaPutcs dev cs m).log = m.log ++ evs ∧ (∀ e ∈ evs, e.InRange) ∧
        ((Tape.ofScreen m).putcs cs).top = scrolls evs := by
  obtain ⟨hshows, hlt', k, ⟨evs, hlog, hin, rfl⟩, htop⟩ :=
    (shows_ofScreen m).cgaPutcs dev hlt cs
  exact ⟨hlt', hshows, evs, hlog, hin, by simpa [Tape.ofScreen] using htop⟩

theorem blankScreen_tape :
    (cgaPutcs (fun _ _ ↦ 0xFF) [0x41, 0x0A, 0x09] blankScreen).crtPos.toNat < crtSize ∧
      Shows ((Tape.ofScreen blankScreen).putcs [0x41, 0x0A, 0x09])
        (cgaPutcs (fun _ _ ↦ 0xFF) [0x41, 0x0A, 0x09] blankScreen) ∧
      ∃ evs, (cgaPutcs (fun _ _ ↦ 0xFF) [0x41, 0x0A, 0x09] blankScreen).log =
          blankScreen.log ++ evs ∧ (∀ e ∈ evs, e.InRange) ∧
        ((Tape.ofScreen blankScreen).putcs [0x41, 0x0A, 0x09]).top = scrolls evs :=
  cgaPutcs_tape _ (by decide) _

end JosKernel.Console
