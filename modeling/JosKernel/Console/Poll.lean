import JosKernel.Console.Fifo
import JosKernel.Console.Keyboard
import JosKernel.Lib.Interleave

/-!
# Polling the devices

`cons_intr` calls the procedure of a device until it returns -1.  Here the devices are behind
their ports: what `serial_proc_data` and `kbd_proc_data` read is a status, and what then waits
at the data port.  Every run of calls is a run of the buffer on what the devices return
(`Input.runs_eq`), and no byte of a device is read twice, passed over or out of its order
(`input_conserves`).

## The model

* More bytes may come in at a device before each read of its status.  In all there are
  finitely many, so that `cons_intr` comes to an end.
* The other bits of a status are any.
-/

namespace JosKernel.Console

/-! ## A device -/

/-- A device that is polled. -/
structure Feed where
  /-- The other bits of the status. -/
  flags : Byte
  /-- The bytes that wait at the data port. -/
  waiting : List Byte
  /-- What comes in before each of the next reads of the status. -/
  coming : List (List Byte)
deriving DecidableEq, Repr

namespace Feed

/-- The bytes that have not been read. -/
def rest (d : Feed) : List Byte := d.waiting ++ d.coming.flatten

/-- The device when its status is read. -/
def polled (d : Feed) : Feed :=
  { d with waiting := d.waiting ++ d.coming.headD [], coming := d.coming.tail }

/-- The status: bit 0 says that there is data. -/
def status (d : Feed) : Byte := d.flags &&& ~~~0x01 ||| if d.waiting = [] then 0 else 0x01

/-- The device when its data port has been read. -/
def taken (d : Feed) : Feed := { d with waiting := d.waiting.tail }

theorem rest_polled (d : Feed) : d.polled.rest = d.rest := by
  cases d with
  | mk flags waiting coming => cases coming <;> simp [rest, polled]

theorem status_eq_zero_iff (d : Feed) : d.status &&& 0x01 = 0 ↔ d.waiting = [] := by
  rw [status]
  generalize d.flags = flags
  by_cases hw : d.waiting = []
  · rw [if_pos hw]
    refine iff_of_true ?_ hw
    revert flags
    decide
  · rw [if_neg hw]
    refine iff_of_false ?_ hw
    revert flags
    decide

theorem rest_eq_cons {d : Feed} {b : Byte} {bs : List Byte} (h : d.polled.waiting = b :: bs) :
    d.rest = b :: d.polled.taken.rest := by
  rw [← rest_polled, rest, h, rest, taken, h]
  rfl

/-- What is read until nothing waits. -/
def drain (d : Feed) : List Byte × Feed :=
  match _h : d.polled.waiting with
  | [] => ([], d.polled)
  | b :: _ => (b :: (drain d.polled.taken).1, (drain d.polled.taken).2)
termination_by d.rest.length
decreasing_by all_goals rw [rest_eq_cons _h]; simp

theorem drain_nil {d : Feed} (h : d.polled.waiting = []) : d.drain = ([], d.polled) := by
  rw [drain]
  split
  · rfl
  · rename_i h'
    cases h.symm.trans h'

theorem drain_cons {d : Feed} {b : Byte} {bs : List Byte} (h : d.polled.waiting = b :: bs) :
    d.drain = (b :: d.polled.taken.drain.1, d.polled.taken.drain.2) := by
  rw [drain]
  split
  · rename_i h'
    cases h.symm.trans h'
  · rename_i h'
    cases h.symm.trans h'
    rfl

/-- What has been read and what has not are the bytes of the device. -/
theorem drain_rest (d : Feed) : d.drain.1 ++ d.drain.2.rest = d.rest := by
  induction d using drain.induct with
  | case1 d h => rw [drain_nil h, List.nil_append, rest_polled]
  | case2 d b bs h ih => rw [drain_cons h, rest_eq_cons h, List.cons_append, ih]

end Feed

/-! ## Procedures of devices -/

/-- A procedure that `cons_intr` is given.  It returns the values of bytes, and then -1. -/
structure Proc (σ : Type) where
  call : σ → Int × σ
  size : σ → Nat
  size_lt : ∀ d, (call d).1 ≠ -1 → size (call d).2 < size d
  byte : ∀ d, (call d).1 ≠ -1 → ∃ b : Byte, (call d).1 = b.toNat

namespace Proc

variable {σ : Type} (p : Proc σ)

/-- `cons_intr(proc)`. -/
def consIntr (s : Cons) (d : σ) : Option (Cons × σ) :=
  if _h : (p.call d).1 = -1 then some (s, (p.call d).2)
  else if (p.call d).1 = 0 then consIntr s (p.call d).2
  else do
    let s ← s.stash (BitVec.ofInt 8 (p.call d).1)
    consIntr s (p.call d).2
termination_by p.size d
decreasing_by all_goals exact p.size_lt d _h

/-- The characters that the procedure returns before the -1. -/
def chars (d : σ) : List Byte × σ :=
  if _h : (p.call d).1 = -1 then ([], (p.call d).2)
  else (BitVec.ofInt 8 (p.call d).1 :: (chars (p.call d).2).1, (chars (p.call d).2).2)
termination_by p.size d
decreasing_by all_goals exact p.size_lt d _h

variable {p} {d : σ}

theorem chars_done (h : (p.call d).1 = -1) : p.chars d = ([], (p.call d).2) := by
  rw [chars, dif_pos h]

theorem chars_byte {b : Byte} (h : (p.call d).1 = b.toNat) :
    p.chars d = (b :: (p.chars (p.call d).2).1, (p.chars (p.call d).2).2) := by
  have hne : ¬ (p.call d).1 = -1 := by omega
  rw [chars, dif_neg hne, h, BitVec.ofInt_natCast, BitVec.ofNat_toNat, BitVec.setWidth_eq]

/-- `cons_intr` writes the characters that the procedure returns. -/
theorem consIntr_eq (s : Cons) (d : σ) :
    p.consIntr s d = (Console.consIntr s (p.chars d).1).map fun s ↦ (s, (p.chars d).2) := by
  induction s, d using consIntr.induct (p := p) with
  | case1 s d h => rw [consIntr, dif_pos h, chars_done h]; rfl
  | case2 s d h hzero ih =>
      rw [consIntr, dif_neg h, if_pos hzero, ih, chars_byte (b := 0) hzero, Console.consIntr,
        if_pos rfl]
  | case3 s d h hzero ih =>
      obtain ⟨b, hb⟩ := p.byte d h
      have hne : b ≠ 0 := by
        rintro rfl
        exact hzero hb
      rw [consIntr, dif_neg h, if_neg hzero, chars_byte hb, Console.consIntr, if_neg hne, hb,
        BitVec.ofInt_natCast, BitVec.ofNat_toNat, BitVec.setWidth_eq]
      simp only [ih]
      cases s.stash b <;> rfl

end Proc

/-! ## The serial port and the keyboard -/

/-- `serial_proc_data()`. -/
def serialProcData (d : Feed) : Int × Feed :=
  if d.polled.status &&& 0x01 = 0 then (-1, d.polled)
  else ((d.polled.waiting.headD 0).toNat, d.polled.taken)

/-- The keyboard, with the variable `shift` of `kbd_proc_data`. -/
structure Keyboard where
  shift : BitVec 32
  feed : Feed
  /-- How often the machine has been reset. -/
  resets : Nat
deriving DecidableEq, Repr

/-- The keyboard after a call of `kbd_proc_data`. -/
def Keyboard.next (k : Keyboard) (r : KbdResult) (feed : Feed) : Int × Keyboard :=
  (r.c, { shift := r.shift, feed, resets := k.resets + if r.reboot then 1 else 0 })

/-- `kbd_proc_data()`, at the ports. -/
def kbdProc (k : Keyboard) : Int × Keyboard :=
  if k.feed.polled.status &&& 0x01 = 0 then k.next (kbdProcData k.shift none) k.feed.polled
  else
    k.next (kbdProcData k.shift (some (k.feed.polled.waiting.headD 0))) k.feed.polled.taken

theorem kbdPress_byte (shift : BitVec 32) (data : Byte) :
    ∃ c : Byte, (kbdPress shift data).c = c.toNat := by
  simp only [kbdPress]
  generalize charcode _ data = c
  have hlt := c.isLt
  suffices h : ∀ i : Int, 0 ≤ i → i < 256 → ∃ c : Byte, i = c.toNat by
    refine h _ ?_ ?_ <;> split_ifs <;> omega
  intro i h0 h256
  exact ⟨BitVec.ofNat 8 i.toNat, by rw [BitVec.toNat_ofNat]; omega⟩

/-- The character that `kbd_proc_data` makes of a byte. -/
theorem kbdProcData_byte (shift : BitVec 32) (b : Byte) :
    ∃ c : Byte, (kbdProcData shift (some b)).c = c.toNat := by
  simp only [kbdProcData]
  split_ifs
  · exact ⟨0, rfl⟩
  · exact ⟨0, rfl⟩
  · exact ⟨0, rfl⟩
  · exact kbdPress_byte ..
  · exact kbdPress_byte ..

/-- The characters that the keyboard makes of some bytes. -/
def kbdChars (shift : BitVec 32) : List Byte → List Byte
  | [] => []
  | b :: bs =>
      BitVec.ofInt 8 (kbdProcData shift (some b)).c ::
        kbdChars (kbdProcData shift (some b)).shift bs

/-- How often some bytes reset the machine. -/
def kbdResets (shift : BitVec 32) : List Byte → Nat
  | [] => 0
  | b :: bs =>
      (if (kbdProcData shift (some b)).reboot then 1 else 0) +
        kbdResets (kbdProcData shift (some b)).shift bs

theorem kbdChars_append (shift : BitVec 32) (bs bs' : List Byte) :
    kbdChars shift (bs ++ bs') = kbdChars shift bs ++ kbdChars (kbdBytes shift bs) bs' := by
  induction bs generalizing shift with
  | nil => rfl
  | cons b bs ih => rw [List.cons_append, kbdChars, kbdChars, List.cons_append, ih]; rfl

theorem kbdResets_append (shift : BitVec 32) (bs bs' : List Byte) :
    kbdResets shift (bs ++ bs') = kbdResets shift bs + kbdResets (kbdBytes shift bs) bs' := by
  induction bs generalizing shift with
  | nil => exact (Nat.zero_add _).symm
  | cons b bs ih => rw [List.cons_append, kbdResets, kbdResets, ih, Nat.add_assoc]; rfl

section

variable {d : Feed} {k : Keyboard} {b : Byte} {bs : List Byte}

theorem serialProcData_nil (h : d.polled.waiting = []) : serialProcData d = (-1, d.polled) :=
  if_pos (d.polled.status_eq_zero_iff.mpr h)

theorem serialProcData_cons (h : d.polled.waiting = b :: bs) :
    serialProcData d = ((b.toNat : Int), d.polled.taken) := by
  rw [serialProcData, if_neg (mt d.polled.status_eq_zero_iff.mp (h ▸ List.cons_ne_nil b bs)), h]
  rfl

theorem kbdProc_nil (h : k.feed.polled.waiting = []) :
    kbdProc k = (-1, { k with feed := k.feed.polled }) :=
  if_pos (k.feed.polled.status_eq_zero_iff.mpr h)

theorem kbdProc_cons (h : k.feed.polled.waiting = b :: bs) :
    kbdProc k = k.next (kbdProcData k.shift (some b)) k.feed.polled.taken := by
  rw [kbdProc, if_neg (mt k.feed.polled.status_eq_zero_iff.mp (h ▸ List.cons_ne_nil b bs)), h]
  rfl

end

/-- The procedure of the serial port. -/
def serial : Proc Feed where
  call := serialProcData
  size d := d.rest.length
  size_lt d hne := by
    cases h : d.polled.waiting with
    | nil => exact absurd (congrArg Prod.fst (serialProcData_nil h)) hne
    | cons b bs => simp [serialProcData_cons h, Feed.rest_eq_cons h]
  byte d hne := by
    cases h : d.polled.waiting with
    | nil => exact absurd (congrArg Prod.fst (serialProcData_nil h)) hne
    | cons b bs => exact ⟨b, congrArg Prod.fst (serialProcData_cons h)⟩

/-- The procedure of the keyboard. -/
def keyboard : Proc Keyboard where
  call := kbdProc
  size k := k.feed.rest.length
  size_lt k hne := by
    cases h : k.feed.polled.waiting with
    | nil => exact absurd (congrArg Prod.fst (kbdProc_nil h)) hne
    | cons b bs => simp [kbdProc_cons h, Keyboard.next, Feed.rest_eq_cons h]
  byte k hne := by
    cases h : k.feed.polled.waiting with
    | nil => exact absurd (congrArg Prod.fst (kbdProc_nil h)) hne
    | cons b bs =>
        obtain ⟨c, hc⟩ := kbdProcData_byte k.shift b
        exact ⟨c, (congrArg Prod.fst (kbdProc_cons h)).trans hc⟩

/-- The serial port returns what is read from it. -/
theorem serial_chars (d : Feed) : serial.chars d = d.drain := by
  induction d using Feed.drain.induct with
  | case1 d h =>
      have hcall : serial.call d = (-1, d.polled) := serialProcData_nil h
      rw [Feed.drain_nil h, Proc.chars_done (congrArg Prod.fst hcall), hcall]
  | case2 d b bs h ih =>
      have hcall : serial.call d = ((b.toNat : Int), d.polled.taken) := serialProcData_cons h
      rw [Feed.drain_cons h, Proc.chars_byte (congrArg Prod.fst hcall), hcall, ih]

/-- The keyboard when all that waits has been read. -/
def Keyboard.drained (k : Keyboard) : Keyboard :=
  { shift := kbdBytes k.shift k.feed.drain.1
    feed := k.feed.drain.2
    resets := k.resets + kbdResets k.shift k.feed.drain.1 }

/-- The keyboard returns what it makes of what is read from it. -/
theorem keyboard_chars (k : Keyboard) :
    keyboard.chars k = (kbdChars k.shift k.feed.drain.1, k.drained) := by
  obtain ⟨shift, d, resets⟩ := k
  induction d using Feed.drain.induct generalizing shift resets with
  | case1 d h =>
      have hcall : keyboard.call ⟨shift, d, resets⟩ = _ := kbdProc_nil h
      rw [Proc.chars_done (congrArg Prod.fst hcall), hcall, Keyboard.drained, Feed.drain_nil h]
      rfl
  | case2 d b bs h ih =>
      have hcall : keyboard.call ⟨shift, d, resets⟩ = _ := kbdProc_cons h
      obtain ⟨c, hc⟩ := kbdProcData_byte shift b
      have hchar : BitVec.ofInt 8 (kbdProcData shift (some b)).c = c := by
        rw [hc, BitVec.ofInt_natCast, BitVec.ofNat_toNat, BitVec.setWidth_eq]
      rw [Proc.chars_byte ((congrArg Prod.fst hcall).trans hc), hcall, Keyboard.next, ih,
        Keyboard.drained, Keyboard.drained, Feed.drain_cons h]
      dsimp only
      rw [kbdChars, hchar, kbdResets, Nat.add_assoc]
      rfl

/-! ## Calls -/

/-- The devices of the console. -/
structure Devices where
  keys : Keyboard
  port : Feed
deriving DecidableEq, Repr

/-- The calls that read the devices. -/
inductive Call where
  | serialIntr
  | kbdIntr
  | consGetc
deriving DecidableEq, Repr

namespace Devices

/-- `serial_intr()`. -/
def serialIntr (serialExists : Bool) (s : Cons) (d : Devices) : Option (Cons × Devices) :=
  if serialExists then (serial.consIntr s d.port).map fun r ↦ (r.1, { d with port := r.2 })
  else some (s, d)

/-- `kbd_intr()`. -/
def kbdIntr (s : Cons) (d : Devices) : Option (Cons × Devices) :=
  (keyboard.consIntr s d.keys).map fun r ↦ (r.1, { d with keys := r.2 })

/-- `cons_getc()`. -/
def consGetc (serialExists : Bool) (s : Cons) (d : Devices) : Option ((Cons × Devices) × Byte) := do
  let (s, d) ← d.serialIntr serialExists s
  let (s, d) ← d.kbdIntr s
  if s.rpos ≠ s.wpos then
    let c ← s.buf[s.rpos.toNat]?
    return (({ s with rpos := bump s.rpos }, d), c)
  else
    return ((s, d), 0)

/-- One call: the buffer, the devices and what `cons_getc` returns. -/
def step (serialExists : Bool) : Cons × Devices → Call → Option ((Cons × Devices) × List Byte)
  | (s, d), .serialIntr => do return (← d.serialIntr serialExists s, [])
  | (s, d), .kbdIntr => do return (← d.kbdIntr s, [])
  | (s, d), .consGetc => do
      let (sd, c) ← d.consGetc serialExists s
      return (sd, [c])

/-- What is read from the serial port, if there is one. -/
def heard (serialExists : Bool) (d : Devices) : List Byte × Feed :=
  if serialExists then d.port.drain else ([], d.port)

/-- What the keyboard returns. -/
def typed (d : Devices) : List Byte := kbdChars d.keys.shift d.keys.feed.drain.1

/-- The devices after a call, and what they return to it. -/
def drive (serialExists : Bool) (d : Devices) : Call → Devices × List Event
  | .serialIntr => ({ d with port := (d.heard serialExists).2 },
      [.serialIntr (d.heard serialExists).1])
  | .kbdIntr => ({ d with keys := d.keys.drained }, [.kbdIntr d.typed])
  | .consGetc =>
      ({ keys := d.keys.drained, port := (d.heard serialExists).2 },
        [.consGetc (d.heard serialExists).1 d.typed])

variable (serialExists : Bool) (s : Cons) (d : Devices)

theorem serialIntr_eq : d.serialIntr serialExists s =
    (Console.serialIntr serialExists s (d.heard serialExists).1).map fun s ↦
      (s, { d with port := (d.heard serialExists).2 }) := by
  cases serialExists
  · rfl
  · simp only [serialIntr, if_true, Proc.consIntr_eq, serial_chars, Option.map_map, heard,
      Console.serialIntr]
    rfl

theorem kbdIntr_eq : d.kbdIntr s =
    (Console.kbdIntr s d.typed).map fun s ↦ (s, { d with keys := d.keys.drained }) := by
  simp only [kbdIntr, Proc.consIntr_eq, keyboard_chars, Option.map_map, Console.kbdIntr, typed]
  rfl

/-- A call is one of the buffer, on what the devices return to it. -/
theorem step_eq (c : Call) : step serialExists (s, d) c =
    (runs (consStep serialExists) s (d.drive serialExists c).2).map fun r ↦
      ((r.1, (d.drive serialExists c).1), r.2) := by
  cases c with
  | serialIntr =>
      simp only [step, serialIntr_eq, drive, runs, consStep]
      cases Console.serialIntr serialExists s (d.heard serialExists).1 <;> rfl
  | kbdIntr =>
      simp only [step, kbdIntr_eq, drive, runs, consStep]
      cases Console.kbdIntr s d.typed <;> rfl
  | consGetc =>
      simp only [step, consGetc, serialIntr_eq, kbdIntr_eq, drive, runs, consStep, Console.consGetc]
      cases Console.serialIntr serialExists s (d.heard serialExists).1 with
      | none => rfl
      | some s₁ =>
          simp only [Option.map_some, Option.bind_eq_bind, Option.bind_some, typed]
          cases Console.kbdIntr s₁ (kbdChars d.keys.shift d.keys.feed.drain.1) with
          | none => rfl
          | some s₂ =>
              simp only [Option.map_some, Option.bind_some]
              split_ifs
              · cases s₂.buf[s₂.rpos.toNat]? <;> rfl
              · rfl

/-- **A run of calls is one of the buffer**, on what the devices return. -/
theorem runs_eq (cs : List Call) : runs (step serialExists) (s, d) cs =
    (runs (consStep serialExists) s (trace (drive serialExists) d cs).2).map fun r ↦
      ((r.1, (trace (drive serialExists) d cs).1), r.2) :=
  runs_driven (step_eq serialExists) s d cs

/-! ## What is read -/

/-- The bytes `typed` and `heard` have been read from the devices `d`, which are `d'` now, and
the characters `cs` have come of them. -/
structure Reads (d d' : Devices) (typed heard cs : List Byte) : Prop where
  keys : typed ++ d'.keys.feed.rest = d.keys.feed.rest
  port : heard ++ d'.port.rest = d.port.rest
  shift : d'.keys.shift = kbdBytes d.keys.shift typed
  resets : d'.keys.resets = d.keys.resets + kbdResets d.keys.shift typed
  chars : Interleaves (nonzero (kbdChars d.keys.shift typed)) (nonzero heard) cs

variable {d₁ d₂ d₃ : Devices} {typed₁ typed₂ heard₁ heard₂ cs₁ cs₂ : List Byte}

theorem Reads.refl : Reads d d [] [] [] where
  keys := rfl
  port := rfl
  shift := rfl
  resets := rfl
  chars := .nil

theorem Reads.trans (h : Reads d₁ d₂ typed₁ heard₁ cs₁) (h' : Reads d₂ d₃ typed₂ heard₂ cs₂) :
    Reads d₁ d₃ (typed₁ ++ typed₂) (heard₁ ++ heard₂) (cs₁ ++ cs₂) where
  keys := by rw [List.append_assoc, h'.keys, h.keys]
  port := by rw [List.append_assoc, h'.port, h.port]
  shift := by rw [h'.shift, h.shift, kbdBytes_append]
  resets := by rw [h'.resets, h.resets, h.shift, kbdResets_append, Nat.add_assoc]
  chars := by
    rw [kbdChars_append, nonzero_append, nonzero_append, ← h.shift]
    exact h.chars.append h'.chars

/-- What is read from the serial port. -/
theorem reads_port : Reads d { d with port := (d.heard serialExists).2 } [] (d.heard serialExists).1
    (if serialExists then nonzero (d.heard serialExists).1 else []) where
  keys := rfl
  port := by
    cases serialExists
    · rfl
    · exact d.port.drain_rest
  shift := rfl
  resets := rfl
  chars := by
    cases serialExists
    · exact .nil
    · exact .only_right _

/-- What is read from the keyboard. -/
theorem reads_keys :
    Reads d { d with keys := d.keys.drained } d.keys.feed.drain.1 [] (nonzero d.typed) where
  keys := d.keys.feed.drain_rest
  port := rfl
  shift := rfl
  resets := rfl
  chars := .only_left _

/-- What one call reads is what it delivers, and nothing is read from a port that is not there. -/
theorem drive_reads (c : Call) : ∃ typed heard, Reads d (d.drive serialExists c).1 typed heard
    (delivered serialExists (d.drive serialExists c).2) ∧ (serialExists = false → heard = []) := by
  have hnone : serialExists = false → (d.heard serialExists).1 = [] := by
    rintro rfl
    rfl
  cases c with
  | serialIntr =>
      rw [drive, delivered, List.flatMap_singleton]
      exact ⟨_, _, reads_port serialExists d, hnone⟩
  | kbdIntr =>
      rw [drive, delivered, List.flatMap_singleton]
      exact ⟨_, _, reads_keys d, fun _ ↦ rfl⟩
  | consGetc =>
      rw [drive, delivered, List.flatMap_singleton]
      exact ⟨_, _, (reads_port serialExists d).trans (reads_keys _), fun h ↦ by rw [hnone h]; rfl⟩

/-- What a run reads is what it delivers. -/
theorem trace_reads (cs : List Call) : ∃ typed heard,
    Reads d (trace (drive serialExists) d cs).1 typed heard
      (delivered serialExists (trace (drive serialExists) d cs).2) ∧
      (serialExists = false → heard = []) := by
  induction cs generalizing d with
  | nil => exact ⟨_, _, .refl d, fun _ ↦ rfl⟩
  | cons c cs ih =>
      obtain ⟨typed₁, heard₁, h₁, hnone₁⟩ := drive_reads serialExists d c
      obtain ⟨typed₂, heard₂, h₂, hnone₂⟩ := ih (d.drive serialExists c).1
      rw [trace_cons, delivered, List.flatMap_append]
      exact ⟨_, _, h₁.trans h₂, fun h ↦ by rw [hnone₁ h, hnone₂ h]; rfl⟩

end Devices

/-! ## From the ports to the reader -/

open Devices

variable {serialExists : Bool} {d : Devices} {cs : List Call}

/-- **Nothing is lost, doubled or out of order.**  Whatever comes in at the devices and
whenever it does, and in whatever order the routines are called, every run succeeds, and as
long as the buffer never overruns, the characters returned and those that still wait are what
the keyboard makes of the bytes read from it and the bytes read from the serial port, each in
their order; with the bytes not yet read these are all there are. -/
theorem input_conserves
    (hfits : Fits serialExists [] (trace (drive serialExists) d cs).2) :
    ∃ s d' outs waiting typed heard, runs (step serialExists) (.init, d) cs = some ((s, d'), outs) ∧
      s.Holds waiting ∧ Reads d d' typed heard (nonzero outs ++ waiting) ∧
      (serialExists = false → heard = []) := by
  obtain ⟨s, hrun, hholds⟩ := runs_fifo hfits
  obtain ⟨hout, -⟩ := fifoTrace_out serialExists (q := []) (by simp)
    (trace (drive serialExists) d cs).2
  obtain ⟨typed, heard, hreads, hnone⟩ := trace_reads serialExists d cs
  refine ⟨s, _, _, _, typed, heard, by rw [runs_eq, hrun]; rfl, hholds, ?_, hnone⟩
  rwa [hout, List.nil_append]

/-- A key is pressed between two polls, and bytes come in at the serial port. -/
def twoLines : Devices where
  keys := { shift := 0,
            feed := { flags := 0x14, waiting := [0x1E], coming := [[], [0x9E], [0x30]] },
            resets := 0 }
  port := { flags := 0x60, waiting := [], coming := [[0x78], [], [], [0x79]] }

theorem twoLines_conserves :
    ∃ s d' outs waiting typed heard,
      runs (step true) (.init, twoLines) [.kbdIntr, .consGetc, .serialIntr, .consGetc] =
          some ((s, d'), outs) ∧
        s.Holds waiting ∧ Reads twoLines d' typed heard (nonzero outs ++ waiting) ∧
        (true = false → heard = []) :=
  input_conserves (by decide +kernel)

end JosKernel.Console
