import JosKernel.Console.Poll

/-!
# What comes in is read

`cons_getc` polls the devices before it reads the buffer, so it needs no interrupts.  After as
many calls as there are arrivals the devices have been read empty, and after as many more as
there are bytes so has the buffer: `input_delivers`.
-/

namespace JosKernel.Console

/-! ## Devices that run empty -/

namespace Feed

/-- Nothing waits when all has been read. -/
theorem drain_waiting (d : Feed) : d.drain.2.waiting = [] := by
  induction d using drain.induct with
  | case1 d h => rw [drain_nil h, h]
  | case2 d b bs h ih => rw [drain_cons h, ih]

/-- One arrival is over. -/
theorem drain_coming (d : Feed) : d.drain.2.coming.length ≤ d.coming.length - 1 := by
  induction d using drain.induct with
  | case1 d h => rw [drain_nil h, polled, List.length_tail]
  | case2 d b bs h ih =>
      rw [drain_cons h]
      refine ih.trans ?_
      simp only [taken, polled, List.length_tail]
      omega

/-- Nothing waits, and there are at most `n` arrivals to come. -/
structure EmptyIn (n : Nat) (d : Feed) : Prop where
  waiting : d.waiting = []
  coming : d.coming.length ≤ n

theorem emptyIn_drain {d : Feed} {n : Nat} (h : d.coming.length ≤ n + 1) : d.drain.2.EmptyIn n where
  waiting := d.drain_waiting
  coming := d.drain_coming.trans (by omega)

theorem EmptyIn.rest {d : Feed} (h : d.EmptyIn 0) : d.rest = [] := by
  rw [Feed.rest, h.waiting, List.eq_nil_of_length_eq_zero (Nat.le_zero.mp h.coming)]
  rfl

/-- An empty device returns nothing. -/
theorem EmptyIn.drain {d : Feed} (h : d.EmptyIn 0) : d.drain.1 = [] := by
  have hrest := d.drain_rest
  rw [h.rest] at hrest
  exact (List.append_eq_nil_iff.mp hrest).1

end Feed

namespace Devices

variable {serialExists : Bool} {d : Devices} {n : Nat} {q : List Byte}

/-- Nothing waits at the devices that are there, and there are at most `n` arrivals to come. -/
structure EmptyIn (serialExists : Bool) (n : Nat) (d : Devices) : Prop where
  keys : d.keys.feed.EmptyIn n
  port : serialExists = true → d.port.EmptyIn n

theorem emptyIn_getc (hkeys : d.keys.feed.coming.length ≤ n + 1)
    (hport : serialExists = true → d.port.coming.length ≤ n + 1) :
    (d.drive serialExists .consGetc).1.EmptyIn serialExists n where
  keys := Feed.emptyIn_drain hkeys
  port := by
    rintro rfl
    exact Feed.emptyIn_drain (hport rfl)

/-- The calls read the devices empty. -/
theorem EmptyIn.trace (h : d.EmptyIn serialExists n) :
    (trace (drive serialExists) d (List.replicate n .consGetc)).1.EmptyIn serialExists 0 := by
  induction n generalizing d with
  | zero => exact h
  | succ n ih => exact ih (emptyIn_getc h.keys.coming fun he ↦ (h.port he).coming)

/-- Empty devices stay empty. -/
theorem EmptyIn.next (h : d.EmptyIn serialExists 0) :
    (d.drive serialExists .consGetc).1.EmptyIn serialExists 0 :=
  emptyIn_getc (h.keys.coming.trans (Nat.zero_le _)) fun he ↦
    (h.port he).coming.trans (Nat.zero_le _)

theorem EmptyIn.stays (h : d.EmptyIn serialExists 0) (k : Nat) :
    (JosKernel.trace (drive serialExists) d
      (List.replicate k .consGetc)).1.EmptyIn serialExists 0 := by
  induction k generalizing d with
  | zero => exact h
  | succ k ih => exact ih h.next

/-- Empty devices deliver nothing. -/
theorem EmptyIn.arrivals (h : d.EmptyIn serialExists 0) :
    (Event.consGetc (d.heard serialExists).1 d.typed).arrivals serialExists = [] := by
  have htyped : d.typed = [] := by rw [typed, h.keys.drain, kbdChars]
  rw [htyped, Event.arrivals]
  cases serialExists with
  | false => rfl
  | true =>
      have hheard : (d.heard true).1 = [] := (h.port rfl).drain
      rw [hheard]
      rfl

/-- The next calls take what waits in the buffer. -/
theorem EmptyIn.queue (h : d.EmptyIn serialExists 0) (k : Nat) :
    (JosKernel.trace (queueStep fifoPut serialExists) q
        (JosKernel.trace (drive serialExists) d (List.replicate k .consGetc)).2).1 = q.drop k := by
  induction k generalizing q d with
  | zero => rfl
  | succ k ih =>
      have hqueue : (queueStep fifoPut serialExists q
          (.consGetc (d.heard serialExists).1 d.typed)).1 = q.tail := by
        rw [queueStep, h.arrivals, fifoPut, List.append_nil]
      rw [List.replicate_succ, trace_cons, drive, List.singleton_append, trace_cons, hqueue]
      exact (ih h.next).trans List.drop_tail

end Devices

/-! ## What the calls read -/

open Devices

variable {serialExists : Bool} {d d' : Devices} {typed heard cs q outs : List Byte} {n k : Nat}

theorem length_kbdChars (shift : BitVec 32) (bs : List Byte) :
    (kbdChars shift bs).length = bs.length := by
  induction bs generalizing shift with
  | nil => rfl
  | cons b bs ih => rw [kbdChars, List.length_cons, List.length_cons, ih]

/-- No more characters come of the bytes than there are. -/
theorem Devices.Reads.length_le (h : Reads d d' typed heard cs) :
    cs.length ≤ d.keys.feed.rest.length + d.port.rest.length := by
  have hkeys := List.length_filter_le (fun c ↦ c ≠ 0) (kbdChars d.keys.shift typed)
  have hport := List.length_filter_le (fun c ↦ c ≠ 0) heard
  rw [length_kbdChars] at hkeys
  rw [h.chars.length_eq, ← h.keys, ← h.port, List.length_append, List.length_append, nonzero,
    nonzero]
  omega

/-- What a FIFO puts out is all that comes in. -/
theorem trace_delivers (hkeys : d.keys.feed.coming.length < n) (hport : d.port.coming.length < n)
    (hbytes : d.keys.feed.rest.length + d.port.rest.length ≤ k) {es : List Event}
    (hes : (trace (drive serialExists) d (List.replicate (n + k) .consGetc)) = (d', es)) :
    (trace (queueStep fifoPut serialExists) [] es).1 = [] ∧
      ∃ heard, Reads d d' d.keys.feed.rest heard
          (nonzero (trace (queueStep fifoPut serialExists) [] es).2) ∧
        nonzero heard = if serialExists then nonzero d.port.rest else [] := by
  obtain ⟨n, rfl⟩ := Nat.exists_eq_succ_of_ne_zero (Nat.ne_zero_of_lt hkeys)
  -- the devices are empty after the first calls, and stay so
  have hfirst : (trace (drive serialExists) d (List.replicate (n + 1) .consGetc)).1.EmptyIn
      serialExists 0 := (emptyIn_getc (Nat.le_of_lt hkeys) fun _ ↦ Nat.le_of_lt hport).trace
  have hlast := hfirst.stays k
  -- what waits in the buffer then is taken by the other calls
  have hwaiting : (trace (queueStep fifoPut serialExists) []
      (trace (drive serialExists) d (List.replicate (n + 1 + k) .consGetc)).2).1 = [] := by
    rw [List.replicate_add, trace_append, trace_append]
    refine (hfirst.queue k).trans (List.drop_eq_nil_of_le ?_)
    obtain ⟨hout, -⟩ := fifoTrace_out serialExists (q := []) (by simp)
      (trace (drive serialExists) d (List.replicate (n + 1) .consGetc)).2
    obtain ⟨typed, heard, hreads, -⟩ :=
      trace_reads serialExists d (List.replicate (n + 1) .consGetc)
    have hle := hreads.length_le
    rw [List.nil_append] at hout
    rw [← hout, List.length_append] at hle
    omega
  have hd' : d'.EmptyIn serialExists 0 := by
    rw [List.replicate_add, trace_append] at hes
    rwa [(Prod.mk.inj hes).1] at hlast
  obtain ⟨typed, heard, hreads, hnone⟩ :=
    trace_reads serialExists d (List.replicate (n + 1 + k) .consGetc)
  obtain ⟨hout, -⟩ := fifoTrace_out serialExists (q := []) (by simp) es
  rw [hes] at hreads hwaiting
  rw [hwaiting, List.append_nil, List.nil_append] at hout
  have htyped : typed = d.keys.feed.rest := by
    rw [← hreads.keys, hd'.keys.rest, List.append_nil]
  subst htyped
  refine ⟨hwaiting, heard, hout ▸ hreads, ?_⟩
  cases hserial : serialExists with
  | false => rw [hnone hserial]; rfl
  | true => rw [← hreads.port, (hd'.port hserial).rest, List.append_nil]; rfl

/-- **What comes in is read.**  As long as the buffer never overruns, `cons_getc` returns
everything, whenever it has come in: after enough calls, what has been returned is what the
keyboard makes of all its bytes and all the bytes of the serial port, each in their order. -/
theorem input_delivers (hkeys : d.keys.feed.coming.length < n) (hport : d.port.coming.length < n)
    (hbytes : d.keys.feed.rest.length + d.port.rest.length ≤ k)
    (hfits : Fits serialExists []
      (trace (drive serialExists) d (List.replicate (n + k) .consGetc)).2) :
    ∃ s d' outs, runs (step serialExists) (.init, d) (List.replicate (n + k) .consGetc) =
        some ((s, d'), outs) ∧
      s.Holds [] ∧ d'.keys.shift = kbdBytes d.keys.shift d.keys.feed.rest ∧
      d'.keys.resets = d.keys.resets + kbdResets d.keys.shift d.keys.feed.rest ∧
      Interleaves (nonzero (kbdChars d.keys.shift d.keys.feed.rest))
        (if serialExists then nonzero d.port.rest else []) (nonzero outs) := by
  obtain ⟨hwaiting, heard, hreads, hheard⟩ := trace_delivers hkeys hport hbytes (Prod.mk.eta.symm)
  obtain ⟨s, hrun, hholds⟩ := runs_fifo hfits
  refine ⟨s, _, _, by rw [runs_eq, hrun]; rfl, hwaiting ▸ hholds, hreads.shift, hreads.resets, ?_⟩
  exact hheard ▸ hreads.chars

/-- The two keys and the bytes from the serial port are read by ten polls. -/
theorem twoLines_delivers :
    ∃ s d' outs, runs (step true) (.init, twoLines) (List.replicate (5 + 5) .consGetc) =
        some ((s, d'), outs) ∧
      s.Holds [] ∧ d'.keys.shift = kbdBytes 0 twoLines.keys.feed.rest ∧
      d'.keys.resets = 0 + kbdResets 0 twoLines.keys.feed.rest ∧
      Interleaves (nonzero (kbdChars 0 twoLines.keys.feed.rest))
        (if true then nonzero twoLines.port.rest else []) (nonzero outs) :=
  input_delivers (n := 5) (k := 5) (by decide) (by decide) (by decide) (by decide +kernel)

end JosKernel.Console
