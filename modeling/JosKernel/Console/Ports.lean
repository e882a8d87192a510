import JosKernel.Console.Output

/-!
# The bytes on the serial and the parallel port

`cons_putc` puts the low byte of its code out to each port once.  A tab is the
exception: the display shows it as five blanks, and gets them by calling
`cons_putc`, so the ports get the tab and then the blanks.  `cputchar_ports_iff`
says that this is the only one.
-/

namespace JosKernel.Console

variable {dev : Device} {m : Out} {c : BitVec 32} {p : BitVec 16}

/-- The bytes put out to the port `p`. -/
def bytesTo (p : BitVec 16) (m : Out) : List Byte :=
  m.log.filterMap fun
    | .outb q b => if q = p then some b else none
    | _ => none

/-- The serial transmit register and the parallel data port. -/
def IsDataPort (p : BitVec 16) : Prop := p = comTx ∨ p = lptData

/-! ## One action at a time -/

theorem bytesTo_outb {q : BitVec 16} {b : Byte} :
    bytesTo p (outb q b m) = bytesTo p m ++ if q = p then [b] else [] := by
  simp only [bytesTo, outb, List.filterMap_append]
  split_ifs with h <;> simp [h]

@[simp] theorem bytesTo_inb {q : BitVec 16} : bytesTo p (inb dev q m).2 = bytesTo p m := rfl

@[simp] theorem bytesTo_crtStore {i : Nat} {v : BitVec 16} :
    bytesTo p (crtStore i v m) = bytesTo p m := by
  simp [bytesTo, crtStore]

@[simp] theorem bytesTo_crtMemmove {dst src n : Nat} :
    bytesTo p (crtMemmove dst src n m) = bytesTo p m := by
  simp [bytesTo, crtMemmove]

@[simp] theorem bytesTo_crtPos {pos : BitVec 16} :
    bytesTo p { m with crtPos := pos } = bytesTo p m := rfl

@[simp] theorem bytesTo_delay : bytesTo p (delay dev m) = bytesTo p m := rfl

@[simp] theorem bytesTo_waitFor {q : BitVec 16} {mask : Byte} {n : Nat} :
    bytesTo p (waitFor dev q mask n m) = bytesTo p m := by
  induction n generalizing m with
  | zero => rfl
  | succ n ih =>
      simp only [waitFor]
      split_ifs
      · rw [ih, bytesTo_delay, bytesTo_inb]
      · rfl

/-! ## One character -/

theorem bytesTo_scroll : bytesTo p (scroll m) = bytesTo p m := by
  unfold scroll
  split_ifs
  · rw [bytesTo_crtPos]
    generalize List.range' (crtSize - crtCols) crtCols = is
    have hstores : ∀ m : Out,
        bytesTo p (is.foldl (fun m i ↦ crtStore i blank m) m) = bytesTo p m := by
      induction is with
      | nil => exact fun m ↦ rfl
      | cons i is ih => exact fun m ↦ by rw [List.foldl_cons, ih, bytesTo_crtStore]
    rw [hstores, bytesTo_crtMemmove]
  · rfl

/-- The cursor ports are not data ports. -/
theorem bytesTo_moveCursor (hp : IsDataPort p) : bytesTo p (moveCursor m) = bytesTo p m := by
  have hne : m.addr6845.port ≠ p ∧ m.addr6845.port + 1 ≠ p := by
    rcases hp with rfl | rfl <;> cases m.addr6845 <;> decide
  simp only [moveCursor, bytesTo_outb, if_neg hne.1, if_neg hne.2, List.append_nil]

theorem bytesTo_cgaSwitch : bytesTo p (cgaSwitch c m) = bytesTo p m := by
  unfold cgaSwitch
  split_ifs
  · rfl
  · simp
  · rfl
  · rfl
  · simp

/-- Each of the two ports gets the low byte of the code. -/
theorem bytesTo_ports (hp : IsDataPort p) :
    bytesTo p (lptPutc dev c (serialPutc dev c m)) = bytesTo p m ++ [lowByte c] := by
  simp only [lptPutc, serialPutc, bytesTo_outb, bytesTo_waitFor]
  rcases hp with rfl | rfl
  · simp [comTx, lptData]
  · simp [comTx, lptData]

/-- What a port gets for a character. -/
def portBytes (c : BitVec 32) : List Byte :=
  lowByte c :: if isTab c then List.replicate 5 0x20 else []

theorem portBytes_of_tab (h : isTab c = true) :
    portBytes c = [lowByte c, 0x20, 0x20, 0x20, 0x20, 0x20] := by
  simp only [portBytes, h, if_true]
  rfl

theorem portBytes_of_not_tab (h : isTab c = false) : portBytes c = [lowByte c] := by
  simp only [portBytes, h, Bool.false_eq_true, if_false]

theorem bytesTo_consPutc_of_not_tab (hp : IsDataPort p) (htab : isTab c = false) :
    bytesTo p (consPutc dev c m) = bytesTo p m ++ [lowByte c] := by
  rw [consPutc, cgaPutc]
  simp only [isTab_withAttribute, htab, Bool.false_eq_true, dif_neg, not_false_eq_true]
  rw [bytesTo_moveCursor hp, bytesTo_scroll, bytesTo_cgaSwitch, bytesTo_ports hp]

theorem bytesTo_consPutc (hp : IsDataPort p) :
    bytesTo p (consPutc dev c m) = bytesTo p m ++ portBytes c := by
  cases htab : isTab c
  · rw [bytesTo_consPutc_of_not_tab hp htab, portBytes_of_not_tab htab]
  · rw [consPutc, cgaPutc]
    simp only [isTab_withAttribute, htab, dif_pos]
    rw [bytesTo_moveCursor hp, bytesTo_scroll, portBytes_of_tab htab]
    simp only [bytesTo_consPutc_of_not_tab hp (show isTab 0x20 = false by decide),
      bytesTo_ports hp, List.append_assoc, List.singleton_append]
    rfl

/-! ## Any sequence of characters -/

/-- `cputchar` on each code in turn. -/
def cputchars (dev : Device) (cs : List (BitVec 32)) (m : Out) : Out :=
  cs.foldl (fun m c ↦ cputchar dev c m) m

theorem bytesTo_cputchars (hp : IsDataPort p) (cs : List (BitVec 32)) :
    bytesTo p (cputchars dev cs m) = bytesTo p m ++ cs.flatMap portBytes := by
  induction cs generalizing m with
  | nil => simp [cputchars]
  | cons c cs ih =>
      rw [cputchars, List.foldl_cons, ← cputchars, ih, cputchar, bytesTo_consPutc hp,
        List.append_assoc, List.flatMap_cons]

theorem isTab_iff : isTab c = true ↔ lowByte c = 0x09 := by
  rw [isTab, decide_eq_true_eq, ← BitVec.toNat_inj, and_0xFF_toNat, lowByte, ← BitVec.toNat_inj]
  rfl

theorem length_le_flatMap_portBytes (cs : List (BitVec 32)) :
    cs.length ≤ (cs.flatMap portBytes).length := by
  induction cs with
  | nil => exact Nat.le_refl _
  | cons c cs ih =>
      rw [List.flatMap_cons, List.length_append, portBytes, List.length_cons, List.length_cons]
      omega

/-- A port gets one byte for each code exactly when no code is a tab. -/
theorem flatMap_portBytes_iff (cs : List (BitVec 32)) :
    cs.flatMap portBytes = cs.map lowByte ↔ ∀ c ∈ cs, lowByte c ≠ 0x09 := by
  induction cs with
  | nil => simp
  | cons c cs ih =>
      rw [List.flatMap_cons, List.map_cons, List.forall_mem_cons]
      cases htab : isTab c
      · have hne : lowByte c ≠ 0x09 := mt isTab_iff.mpr (by simp [htab])
        rw [portBytes_of_not_tab htab, List.singleton_append, List.cons.injEq, ih]
        exact ⟨fun h ↦ ⟨hne, h.2⟩, fun h ↦ ⟨rfl, h.2⟩⟩
      · -- the blanks of the tab are too many
        refine iff_of_false (fun h ↦ ?_) (fun h ↦ h.1 (isTab_iff.mp htab))
        have hlen := congrArg List.length h
        have hle := length_le_flatMap_portBytes cs
        rw [portBytes_of_tab htab] at hlen
        simp only [List.length_append, List.length_cons, List.length_nil, List.length_map] at hlen
        omega

/-- **The bytes on the ports.**  Whatever the state, the devices and the codes, both
ports get exactly the low bytes of the codes, one for each call, if and only if no
code is a tab. -/
theorem cputchar_ports_iff (dev : Device) (m : Out) (cs : List (BitVec 32)) :
    (bytesTo comTx (cputchars dev cs m) = bytesTo comTx m ++ cs.map lowByte ∧
        bytesTo lptData (cputchars dev cs m) = bytesTo lptData m ++ cs.map lowByte) ↔
      ∀ c ∈ cs, lowByte c ≠ 0x09 := by
  rw [bytesTo_cputchars (.inl rfl), bytesTo_cputchars (.inr rfl), List.append_cancel_left_eq,
    List.append_cancel_left_eq, and_self, flatMap_portBytes_iff]

/-- A tab puts six bytes out to each port. -/
theorem tab_ports :
    bytesTo comTx (cputchars (fun _ _ ↦ 0xFF) [0x09] blankScreen) =
        [0x09, 0x20, 0x20, 0x20, 0x20, 0x20] ∧
      bytesTo comTx (cputchars (fun _ _ ↦ 0xFF) [0x09] blankScreen) ≠
        bytesTo comTx blankScreen ++ [0x09].map lowByte := by
  decide +kernel

end JosKernel.Console
