import JosKernel.Console.Queue

/-!
# What is read from the console

As long as fewer characters than the buffer has slots are unread, the lossy queue of
the buffer forgets nothing and the console is a FIFO (`cons_fifo`).

A burst that fills the buffer is lost as a whole, and `cons_getc` returns 0, though
its comment says "0 if none waiting".  `cons_overrun_iff` says which bursts still
leave the 511 characters that the buffer has room for.
-/

namespace JosKernel.Console

variable {serialExists : Bool} {s s' : Cons} {q : List Byte} {es es' : List Event} {e : Event}

/-! ## Queues that forget nothing -/

/-- The number of unread characters never exceeds `CONSBUFSIZE - 1`. -/
def Fits (serialExists : Bool) : List Byte → List Event → Prop
  | _, [] => True
  | q, e :: es =>
      q.length + (e.arrivals serialExists).length ≤ consBufSize - 1 ∧
        Fits serialExists (queueStep fifoPut serialExists q e).1 es

instance instDecidableFits (serialExists : Bool) :
    (q : List Byte) → (es : List Event) → Decidable (Fits serialExists q es)
  | _, [] => .isTrue trivial
  | q, e :: es =>
      have := instDecidableFits serialExists (queueStep fifoPut serialExists q e).1 es
      inferInstanceAs (Decidable (_ ∧ _))

/-- A run fits when both its parts do. -/
theorem fits_append : Fits serialExists q (es ++ es') ↔ Fits serialExists q es ∧
    Fits serialExists (trace (queueStep fifoPut serialExists) q es).1 es' := by
  induction es generalizing q with
  | nil => simp [Fits]
  | cons e es ih => simp only [List.cons_append, Fits, ih, trace_cons, and_assoc]

/-- While everything fits, the lossy queue forgets nothing. -/
theorem Fits.step_eq (h : Fits serialExists q (e :: es)) :
    queueStep lossyPut serialExists q e = queueStep fifoPut serialExists q e := by
  have hle := h.1
  have hput : lossyPut q (e.arrivals serialExists) = fifoPut q (e.arrivals serialExists) :=
    foldl_lossyPush_of_lt (by simp only [consBufSize] at hle ⊢; omega)
  simp only [queueStep, hput]

theorem Fits.trace_eq (h : Fits serialExists q es) :
    trace (queueStep lossyPut serialExists) q es = trace (queueStep fifoPut serialExists) q es := by
  induction es generalizing q with
  | nil => rfl
  | cons e es ih => rw [trace_cons, trace_cons, h.step_eq, ih h.2]

/-- The characters delivered by a run. -/
def delivered (serialExists : Bool) (es : List Event) : List Byte :=
  es.flatMap (Event.arrivals serialExists)

theorem arrivals_ne_zero {c : Byte} (h : c ∈ e.arrivals serialExists) : c ≠ 0 := by
  cases e with
  | serialIntr cs =>
      cases serialExists
      · cases h
      · exact (mem_nonzero.mp h).2
  | kbdIntr cs => exact (mem_nonzero.mp h).2
  | consGetc serial kbd =>
      rcases List.mem_append.mp h with h | h
      · cases serialExists
        · cases h
        · exact (mem_nonzero.mp h).2
      · exact (mem_nonzero.mp h).2

variable (serialExists) in
/-- A step of a FIFO takes from the front what it puts out. -/
theorem fifoStep_out (hq : ∀ c ∈ q, c ≠ 0) (e : Event) :
    nonzero (queueStep fifoPut serialExists q e).2 ++ (queueStep fifoPut serialExists q e).1 =
        q ++ e.arrivals serialExists ∧
      ∀ c ∈ (queueStep fifoPut serialExists q e).1, c ≠ 0 := by
  have hput : ∀ c ∈ q ++ e.arrivals serialExists, c ≠ 0 := fun c hc ↦
    (List.mem_append.mp hc).elim (hq c) arrivals_ne_zero
  unfold queueStep
  rw [fifoPut]
  generalize q ++ e.arrivals serialExists = q' at hput ⊢
  cases e with
  | serialIntr cs => exact ⟨rfl, hput⟩
  | kbdIntr cs => exact ⟨rfl, hput⟩
  | consGetc serial kbd =>
      cases q' with
      | nil => exact ⟨rfl, hput⟩
      | cons c q' =>
          refine ⟨?_, fun c' hc' ↦ hput c' (List.mem_cons_of_mem c hc')⟩
          simp only [List.headD_cons, List.tail_cons, nonzero_cons (hput c List.mem_cons_self)]
          rfl

variable (serialExists) in
/-- A FIFO puts out what it is given, in order. -/
theorem fifoTrace_out (hq : ∀ c ∈ q, c ≠ 0) (es : List Event) :
    nonzero (trace (queueStep fifoPut serialExists) q es).2 ++
        (trace (queueStep fifoPut serialExists) q es).1 = q ++ delivered serialExists es ∧
      ∀ c ∈ (trace (queueStep fifoPut serialExists) q es).1, c ≠ 0 := by
  induction es generalizing q with
  | nil => exact ⟨by simp [nonzero, delivered], hq⟩
  | cons e es ih =>
      obtain ⟨hout, hq'⟩ := fifoStep_out serialExists hq e
      obtain ⟨hrest, hend⟩ := ih hq'
      refine ⟨?_, hend⟩
      rw [trace_cons, nonzero_append, List.append_assoc, hrest, ← List.append_assoc, hout,
        List.append_assoc]
      rfl

/-! ## The console is a FIFO -/

/-- While everything fits, the console puts out what a FIFO puts out. -/
theorem runs_fifo (h : Fits serialExists [] es) :
    ∃ s, runs (consStep serialExists) .init es =
        some (s, (trace (queueStep fifoPut serialExists) [] es).2) ∧
      s.Holds (trace (queueStep fifoPut serialExists) [] es).1 := by
  have hrun := runs_lossy serialExists holds_init es
  rwa [h.trace_eq] at hrun

variable (serialExists es) in
/-- A read of a FIFO puts out 0 when it has put out everything delivered. -/
theorem fifo_getc_iff (serial kbd : List Byte) :
    (queueStep fifoPut serialExists (trace (queueStep fifoPut serialExists) [] es).1
        (.consGetc serial kbd)).2 = [0] ↔
      nonzero (trace (queueStep fifoPut serialExists) [] es).2 =
        delivered serialExists (es ++ [.consGetc serial kbd]) := by
  obtain ⟨hout, hq⟩ := fifoTrace_out serialExists (q := []) (by simp) es
  generalize trace (queueStep fifoPut serialExists) [] es = t at hout hq ⊢
  have hdel : delivered serialExists (es ++ [.consGetc serial kbd]) =
      nonzero t.2 ++ (t.1 ++ (Event.consGetc serial kbd).arrivals serialExists) := by
    rw [← List.append_assoc, hout]
    simp [delivered]
  rw [hdel, List.self_eq_append_right]
  have hput : ∀ c ∈ t.1 ++ (Event.consGetc serial kbd).arrivals serialExists, c ≠ 0 := fun c hc ↦
    (List.mem_append.mp hc).elim (hq c) arrivals_ne_zero
  unfold queueStep
  rw [fifoPut]
  generalize t.1 ++ (Event.consGetc serial kbd).arrivals serialExists = q' at hput ⊢
  cases q' with
  | nil => simp
  | cons c q' =>
      have hc := hput c List.mem_cons_self
      simpa using hc

/-- **The console is a FIFO.**  As long as everything fits, every run succeeds with
its positions in range, what it returns are the characters delivered, in order, and
`cons_getc` returns 0 exactly when all of them have been returned. -/
theorem cons_fifo (h : Fits serialExists [] es) :
    ∃ s outs, runs (consStep serialExists) .init es = some (s, outs) ∧
      s.rpos.toNat < consBufSize ∧ s.wpos.toNat < consBufSize ∧
      nonzero outs <+: delivered serialExists es ∧
      ∀ pre serial kbd post, es = pre ++ .consGetc serial kbd :: post →
        ∃ s₁ outs₁ s₂ c, runs (consStep serialExists) .init pre = some (s₁, outs₁) ∧
          consStep serialExists s₁ (.consGetc serial kbd) = some (s₂, [c]) ∧
          (c = 0 ↔ nonzero outs₁ = delivered serialExists (pre ++ [.consGetc serial kbd])) := by
  obtain ⟨s, hs, hq⟩ := runs_fifo h
  obtain ⟨hrlt, hwlt⟩ := hq.lt
  obtain ⟨hout, -⟩ := fifoTrace_out serialExists (q := []) (by simp) es
  refine ⟨s, _, hs, hrlt, hwlt, ⟨_, by simpa using hout⟩, ?_⟩
  rintro pre serial kbd post rfl
  obtain ⟨hpre, hpost⟩ := fits_append.mp h
  obtain ⟨s₁, hs₁, hq₁⟩ := runs_fifo hpre
  obtain ⟨s₂, hs₂, -⟩ :=
    consStep_simulates serialExists hq₁ (.consGetc serial kbd)
  have hiff := fifo_getc_iff serialExists pre serial kbd
  rw [hpost.step_eq] at hs₂
  refine ⟨s₁, _, s₂, _, hs₁, hs₂, ?_⟩
  rw [← hiff]
  simp only [queueStep, List.cons.injEq, and_true]

/-- Two keys, a read that also finds a character at the serial port, and a read. -/
def twoKeys : List Event := [.kbdIntr [0x61, 0, 0x62], .consGetc [0x63] [], .consGetc [] []]

theorem twoKeys_fifo :
    ∃ s outs, runs (consStep true) .init twoKeys = some (s, outs) ∧
      s.rpos.toNat < consBufSize ∧ s.wpos.toNat < consBufSize ∧
      nonzero outs <+: delivered true twoKeys ∧
      ∀ pre serial kbd post, twoKeys = pre ++ .consGetc serial kbd :: post →
        ∃ s₁ outs₁ s₂ c, runs (consStep true) .init pre = some (s₁, outs₁) ∧
          consStep true s₁ (.consGetc serial kbd) = some (s₂, [c]) ∧
          (c = 0 ↔ nonzero outs₁ = delivered true (pre ++ [.consGetc serial kbd])) :=
  cons_fifo (by decide)

/-! ## Overruns -/

/-- The calls of the interrupt routines. -/
def Event.IsIntr : Event → Prop
  | .consGetc _ _ => False
  | _ => True

/-- A burst of interrupts puts nothing out. -/
theorem trace_burst {burst : List Event} (h : ∀ e ∈ burst, e.IsIntr) :
    trace (queueStep lossyPut serialExists) q burst =
      (lossyPut q (delivered serialExists burst), []) := by
  induction burst generalizing q with
  | nil => rfl
  | cons e burst ih =>
      have hstep : queueStep lossyPut serialExists q e =
          (lossyPut q (e.arrivals serialExists), []) := by
        cases e with
        | serialIntr cs => rfl
        | kbdIntr cs => rfl
        | consGetc serial kbd => exact absurd (h _ List.mem_cons_self) id
      rw [trace_cons, hstep, ih fun e' he' ↦ h e' (List.mem_cons_of_mem e he'), lossyPut_append]
      rfl

/-- `cons_getc` when nothing new has come in. -/
def quietGetc : Event := .consGetc [] []

theorem queueStep_quietGetc :
    queueStep lossyPut serialExists q quietGetc = (q.tail, [q.headD 0]) := by
  cases serialExists <;> rfl

variable (serialExists) in
/-- As many reads as there are characters waiting put out no 0, and no more. -/
theorem quietGetc_ne_zero_iff (hq : ∀ c ∈ q, c ≠ 0) (n : Nat) :
    (∀ c ∈ (trace (queueStep lossyPut serialExists) q (List.replicate n quietGetc)).2, c ≠ 0) ↔
      n ≤ q.length := by
  induction n generalizing q with
  | zero => simp
  | succ n ih =>
      rw [List.replicate_succ, trace_cons, queueStep_quietGetc]
      cases q with
      | nil => simp
      | cons c q =>
          have hrest := ih fun c' hc' ↦ hq c' (List.mem_cons_of_mem c hc')
          have hc := hq c List.mem_cons_self
          simp only [List.headD_cons, List.tail_cons, List.singleton_append, List.forall_mem_cons,
            hrest, List.length_cons]
          exact ⟨fun h ↦ by omega, fun h ↦ ⟨hc, by omega⟩⟩

theorem delivered_ne_zero {c : Byte} (h : c ∈ delivered serialExists es) : c ≠ 0 := by
  obtain ⟨e, -, hc⟩ := List.mem_flatMap.mp h
  exact arrivals_ne_zero hc

/-- **What is left of a burst.**  From any reachable state with nothing unread, the
first reads after a burst return as many characters as the buffer has room for
exactly when the burst does not fill the buffer, or leaves one slot of a round. -/
theorem cons_overrun_iff {burst es : List Event} {outs : List Byte}
    (hreach : runs (consStep serialExists) .init es = some (s, outs)) (hempty : s.rpos = s.wpos)
    (hburst : ∀ e ∈ burst, e.IsIntr) :
    (∃ s' outs', runs (consStep serialExists) s
        (burst ++ List.replicate (min (delivered serialExists burst).length (consBufSize - 1))
          quietGetc) = some (s', outs') ∧
      ∀ c ∈ outs', c ≠ 0) ↔
      (delivered serialExists burst).length < consBufSize ∨
        (delivered serialExists burst).length % consBufSize = consBufSize - 1 := by
  obtain ⟨s₁, hs₁, hq₁⟩ := runs_lossy serialExists holds_init es
  obtain ⟨rfl, -⟩ := Prod.mk.inj (Option.some.inj (hs₁.symm.trans hreach))
  rw [hq₁.eq_nil_iff.mpr hempty] at hq₁
  generalize hn : min (delivered serialExists burst).length (consBufSize - 1) = n
  obtain ⟨s₂, hs₂, -⟩ := runs_lossy serialExists hq₁
    (burst ++ List.replicate n quietGetc)
  rw [trace_append, trace_burst hburst, List.nil_append] at hs₂
  have hnz : ∀ c ∈ lossyPut [] (delivered serialExists burst), c ≠ 0 := fun c hc ↦
    (mem_foldl_lossyPush hc).elim (by simp) delivered_ne_zero
  have hlen : (lossyPut [] (delivered serialExists burst)).length =
      (delivered serialExists burst).length % consBufSize := by
    rw [lossyPut, length_foldl_lossyPush (by decide), List.length_nil, Nat.zero_add]
  have hreads := quietGetc_ne_zero_iff serialExists hnz n
  rw [hlen] at hreads
  rw [hs₂]
  trans n ≤ (delivered serialExists burst).length % consBufSize
  · rw [← hreads]
    constructor
    · rintro ⟨s', outs', h, hnz'⟩
      cases h
      exact hnz'
    · intro h
      exact ⟨s₂, _, rfl, h⟩
  · simp only [consBufSize] at hn ⊢
    omega

theorem twoKeys_overrun_iff :
    (∃ s' outs', runs (consStep false) .init
        ([.kbdIntr [0x61, 0x62]] ++ List.replicate
          (min (delivered false [.kbdIntr [0x61, 0x62]]).length (consBufSize - 1)) quietGetc) =
            some (s', outs') ∧
      ∀ c ∈ outs', c ≠ 0) ↔
      (delivered false [.kbdIntr [0x61, 0x62]]).length < consBufSize ∨
        (delivered false [.kbdIntr [0x61, 0x62]]).length % consBufSize = consBufSize - 1 :=
  cons_overrun_iff (rfl : runs (consStep false) .init [] = some (.init, [])) rfl
    (by simp [Event.IsIntr])

/-- A burst of 512 characters. -/
def fullBurst : List Event := [.kbdIntr (List.replicate consBufSize 0x61)]

/-- After a burst of 512 characters the first read returns 0. -/
theorem fullBurst_lost :
    runs (consStep false) .init [] = some (.init, []) ∧ Cons.init.rpos = Cons.init.wpos ∧
      (delivered false fullBurst).length = consBufSize ∧
      ∃ s, runs (consStep false) .init (fullBurst ++ [quietGetc]) = some (s, [0]) := by
  have hburst : ∀ e ∈ fullBurst, e.IsIntr := by simp [fullBurst, Event.IsIntr]
  have hlen : (delivered false fullBurst).length = consBufSize := by
    simp [delivered, fullBurst, Event.arrivals, nonzero]
  refine ⟨rfl, rfl, hlen, ?_⟩
  obtain ⟨s, hs, -⟩ := runs_lossy false holds_init (fullBurst ++ [quietGetc])
  have hlost : lossyPut [] (delivered false fullBurst) = [] := by
    rw [← List.length_eq_zero_iff, lossyPut, length_foldl_lossyPush (by decide), hlen]
    rfl
  rw [trace_append, trace_burst hburst, hlost] at hs
  exact ⟨s, hs⟩

end JosKernel.Console
