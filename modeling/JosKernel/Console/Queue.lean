import JosKernel.Console.Input
import JosKernel.Lib.Ring
import JosKernel.Lib.Run

/-!
# The console input buffer is a lossy queue

The buffer is a ring (`Cons.Models`) whose contents are a queue.  A write that fills
the last slot makes the ring look empty, so the queue forgets everything there.
`consStep_simulates` is the simulation of one call, and `runs_lossy` that of any run
of calls from any state in range.
-/

namespace JosKernel.Console

variable {serialExists : Bool} {s s' : Cons} {r : Ring Byte consBufSize} {q cs : List Byte}
  {es : List Event} {e : Event}

/-! ## The ring -/

/-- The buffer, with its positions in range. -/
structure Cons.Models (s : Cons) (r : Ring Byte consBufSize) : Prop where
  buf : s.buf = r.buf
  rpos : s.rpos.toNat = r.rpos
  wpos : s.wpos.toNat = r.wpos

theorem bump_toNat {pos : BitVec 32} (h : pos.toNat < consBufSize) :
    (bump pos).toNat = ringNext consBufSize pos.toNat := by
  simp only [consBufSize] at h
  have hadd : (pos + 1).toNat = pos.toNat + 1 := by bv_omega
  have hiff : pos + 1 = BitVec.ofNat 32 consBufSize ↔ pos.toNat + 1 = consBufSize := by
    simp only [consBufSize]
    bv_omega
  simp only [bump, ringNext, hiff]
  split_ifs
  · rfl
  · exact hadd

theorem Cons.Models.stash (h : s.Models r) (c : Byte) :
    ∃ s', s.stash c = some s' ∧ s'.Models (r.push c) := by
  have hlt : s.wpos.toNat < consBufSize := by
    rw [h.wpos]
    exact r.wpos_lt
  refine ⟨_, dif_pos hlt, ?_, h.rpos, ?_⟩
  · simp only [Ring.push, h.buf, h.wpos]
  · rw [bump_toNat hlt, h.wpos]
    rfl

/-- The characters of a batch that are not 0. -/
def nonzero (cs : List Byte) : List Byte := cs.filter fun c ↦ c ≠ 0

theorem nonzero_zero (cs : List Byte) : nonzero (0 :: cs) = nonzero cs := rfl

theorem nonzero_cons {c : Byte} (hc : c ≠ 0) (cs : List Byte) :
    nonzero (c :: cs) = c :: nonzero cs := List.filter_cons_of_pos (by simpa using hc)

theorem nonzero_append (cs cs' : List Byte) : nonzero (cs ++ cs') = nonzero cs ++ nonzero cs' :=
  List.filter_append ..

theorem mem_nonzero {c : Byte} : c ∈ nonzero cs ↔ c ∈ cs ∧ c ≠ 0 := by simp [nonzero]

/-- An interrupt routine writes the characters that are not 0. -/
theorem Cons.Models.consIntr (h : s.Models r) (cs : List Byte) :
    ∃ s', consIntr s cs = some s' ∧ s'.Models ((nonzero cs).foldl Ring.push r) := by
  induction cs generalizing s r with
  | nil => exact ⟨s, rfl, h⟩
  | cons c cs ih =>
      rw [Console.consIntr]
      by_cases hc : c = 0
      · obtain ⟨s', hs', hr'⟩ := ih h
        rw [if_pos hc, hc, nonzero_zero]
        exact ⟨s', hs', hr'⟩
      · obtain ⟨s₁, hs₁, hr₁⟩ := h.stash c
        obtain ⟨s', hs', hr'⟩ := ih hr₁
        rw [if_neg hc, hs₁, nonzero_cons hc]
        exact ⟨s', hs', hr'⟩

/-! ## The queue -/

/-- The characters a call delivers. -/
def Event.arrivals (serialExists : Bool) : Event → List Byte
  | .serialIntr cs => if serialExists then nonzero cs else []
  | .kbdIntr cs => nonzero cs
  | .consGetc serial kbd =>
      (if serialExists then nonzero serial else []) ++ nonzero kbd

/-- What the calls mean for the characters waiting, when `put` adds what arrives. -/
def queueStep (put : List Byte → List Byte → List Byte) (serialExists : Bool) (q : List Byte)
    (e : Event) : List Byte × List Byte :=
  let q := put q (e.arrivals serialExists)
  match e with
  | .consGetc _ _ => (q.tail, [q.headD 0])
  | _ => (q, [])

/-- A queue that forgets everything when the buffer is full. -/
def lossyPut (q cs : List Byte) : List Byte := cs.foldl (lossyPush consBufSize) q

/-- A queue that forgets nothing. -/
def fifoPut (q cs : List Byte) : List Byte := q ++ cs

/-- The buffer is in range, and the characters of `q` are waiting in it. -/
def Cons.Holds (s : Cons) (q : List Byte) : Prop := ∃ r, s.Models r ∧ r.contents = q

theorem holds_init : Cons.init.Holds [] := by
  let r : Ring Byte consBufSize :=
    { buf := Vector.replicate consBufSize 0, rpos := 0, wpos := 0, rpos_lt := by decide,
      wpos_lt := by decide }
  exact ⟨r, ⟨rfl, rfl, rfl⟩, Ring.contents_eq_nil_iff.mpr rfl⟩

theorem Cons.Holds.lt (h : s.Holds q) :
    s.rpos.toNat < consBufSize ∧ s.wpos.toNat < consBufSize := by
  obtain ⟨r, hr, -⟩ := h
  rw [hr.rpos, hr.wpos]
  exact ⟨r.rpos_lt, r.wpos_lt⟩

theorem Cons.Holds.eq_nil_iff (h : s.Holds q) : q = [] ↔ s.rpos = s.wpos := by
  obtain ⟨r, hr, rfl⟩ := h
  rw [Ring.contents_eq_nil_iff, ← hr.rpos, ← hr.wpos, BitVec.toNat_inj]

theorem Cons.Holds.consIntr (h : s.Holds q) (cs : List Byte) :
    ∃ s', consIntr s cs = some s' ∧ s'.Holds (lossyPut q (nonzero cs)) := by
  obtain ⟨r, hr, rfl⟩ := h
  obtain ⟨s', hs', hr'⟩ := hr.consIntr cs
  refine ⟨s', hs', _, hr', ?_⟩
  generalize nonzero cs = cs
  clear hs' hr' hr
  induction cs generalizing r with
  | nil => rfl
  | cons c cs ih =>
      rw [List.foldl_cons, ih, Ring.contents_push]
      rfl

variable (serialExists) in
theorem Cons.Holds.serialIntr (h : s.Holds q) (cs : List Byte) :
    ∃ s', serialIntr serialExists s cs = some s' ∧
      s'.Holds (lossyPut q (if serialExists then nonzero cs else [])) := by
  cases serialExists
  · exact ⟨s, rfl, h⟩
  · exact h.consIntr cs

/-- The read at the end of `cons_getc`. -/
theorem Cons.Holds.read (h : s.Holds q) (hq : q ≠ []) :
    s.buf[s.rpos.toNat]? = some (q.headD 0) ∧
      Cons.Holds { s with rpos := bump s.rpos } q.tail := by
  obtain ⟨hrlt, -⟩ := h.lt
  obtain ⟨r, hr, rfl⟩ := h
  have hne : r.rpos ≠ r.wpos := mt Ring.contents_eq_nil_iff.mpr hq
  rw [Ring.contents_eq_cons hne]
  constructor
  · rw [hr.buf, hr.rpos, Vector.getElem?_eq_getElem r.rpos_lt]
    rfl
  · refine ⟨r.drop, ⟨hr.buf, ?_, hr.wpos⟩, rfl⟩
    rw [bump_toNat hrlt, hr.rpos]
    rfl

theorem lossyPut_append (q cs cs' : List Byte) :
    lossyPut (lossyPut q cs) cs' = lossyPut q (cs ++ cs') := by
  simp [lossyPut]

variable (serialExists) in
/-- **The console is a lossy queue.** -/
theorem consStep_simulates (h : s.Holds q) (e : Event) :
    ∃ s', consStep serialExists s e = some (s', (queueStep lossyPut serialExists q e).2) ∧
      s'.Holds (queueStep lossyPut serialExists q e).1 := by
  cases e with
  | serialIntr cs =>
      obtain ⟨s', hs', hq'⟩ := h.serialIntr serialExists cs
      exact ⟨s', by simp [consStep, hs', queueStep], hq'⟩
  | kbdIntr cs =>
      obtain ⟨s', hs', hq'⟩ := h.consIntr cs
      exact ⟨s', by simp [consStep, kbdIntr, hs', queueStep], hq'⟩
  | consGetc serial kbd =>
      obtain ⟨s₁, hs₁, hq₁⟩ := h.serialIntr serialExists serial
      obtain ⟨s₂, hs₂, hq₂⟩ := hq₁.consIntr kbd
      rw [lossyPut_append] at hq₂
      simp only [consStep, consGetc, kbdIntr, hs₁, hs₂, Option.bind_eq_bind, Option.bind_some,
        queueStep, Event.arrivals]
      by_cases hnil : s₂.rpos = s₂.wpos
      · have hq := hq₂.eq_nil_iff.mpr hnil
        rw [hq] at hq₂ ⊢
        exact ⟨s₂, by rw [if_neg (not_not.mpr hnil)]; rfl, hq₂⟩
      · obtain ⟨hread, hq'⟩ := hq₂.read (mt hq₂.eq_nil_iff.mp hnil)
        exact ⟨_, by rw [if_pos hnil, hread]; rfl, hq'⟩

variable (serialExists) in
/-- Every run of the console succeeds and is that of the lossy queue. -/
theorem runs_lossy (h : s.Holds q) (es : List Event) :
    ∃ s', runs (consStep serialExists) s es =
        some (s', (trace (queueStep lossyPut serialExists) q es).2) ∧
      s'.Holds (trace (queueStep lossyPut serialExists) q es).1 :=
  runs_simulates (R := Cons.Holds) (fun _ _ e hq ↦ consStep_simulates serialExists hq e) h es

end JosKernel.Console
