import Mathlib.Data.List.OfFn
import Mathlib.Data.Vector.Basic
import Mathlib.Tactic.Common

/-!
# Ring buffers without a full state

A ring buffer with a read and a write position, in which equal positions mean that
it is empty.  Nothing keeps the writer from catching up with the reader: a write
that fills the last slot makes a buffer with `n - 1` elements look empty.

`Ring.contents` are the elements that are waiting, and `lossyPush` is what a write
does to them.
-/

namespace JosKernel

universe u

/-! ## Lossy queues -/

/-- Appending to a queue that forgets everything when it reaches length `n`. -/
def lossyPush {α : Type u} (n : Nat) (q : List α) (a : α) : List α :=
  if q.length + 1 = n then [] else q ++ [a]

section

variable {α : Type u} {n : Nat} {q as : List α}

/-- A queue that stays below the limit forgets nothing. -/
theorem foldl_lossyPush_of_lt (h : q.length + as.length < n) :
    as.foldl (lossyPush n) q = q ++ as := by
  induction as generalizing q with
  | nil => simp
  | cons a as ih =>
      simp only [List.length_cons] at h
      have hpush : lossyPush n q a = q ++ [a] := if_neg (by omega)
      rw [List.foldl_cons, hpush,
        ih (by simp only [List.length_append, List.length_singleton]; omega),
        List.append_assoc, List.singleton_append]

/-- The length counts modulo the limit. -/
theorem length_foldl_lossyPush (h : q.length < n) :
    (as.foldl (lossyPush n) q).length = (q.length + as.length) % n := by
  induction as generalizing q with
  | nil => simp [Nat.mod_eq_of_lt h]
  | cons a as ih =>
      rw [List.foldl_cons]
      by_cases hfull : q.length + 1 = n
      · have hpush : lossyPush n q a = [] := if_pos hfull
        rw [hpush, ih (by simp only [List.length_nil]; omega), List.length_nil, List.length_cons,
          show q.length + (as.length + 1) = 0 + as.length + n by omega, Nat.add_mod_right]
      · have hpush : lossyPush n q a = q ++ [a] := if_neg hfull
        rw [hpush, ih (by simp only [List.length_append, List.length_singleton]; omega)]
        simp only [List.length_append, List.length_cons, List.length_nil]
        rw [show q.length + (0 + 1) + as.length = q.length + (as.length + 1) by omega]

/-- A lossy queue holds nothing that has not been put into it. -/
theorem mem_foldl_lossyPush {a : α} (h : a ∈ as.foldl (lossyPush n) q) : a ∈ q ∨ a ∈ as := by
  induction as generalizing q with
  | nil => exact .inl h
  | cons b as ih =>
      rw [List.foldl_cons] at h
      rcases ih h with hq | has
      · unfold lossyPush at hq
        split_ifs at hq
        · cases hq
        · rcases List.mem_append.mp hq with hq | hb
          · exact .inl hq
          · exact .inr (List.mem_singleton.mp hb ▸ List.mem_cons_self)
      · exact .inr (List.mem_cons_of_mem b has)

end

/-! ## Ring buffers -/

/-- The position after `i` in a buffer of size `n`. -/
def ringNext (n i : Nat) : Nat := if i + 1 = n then 0 else i + 1

/-- A position that may have run past the end by at most one round. -/
def ringWrap (n i : Nat) : Nat := if i < n then i else i - n

/-- A ring buffer, with its positions in range. -/
structure Ring (α : Type u) (n : Nat) where
  buf : Vector α n
  rpos : Nat
  wpos : Nat
  rpos_lt : rpos < n
  wpos_lt : wpos < n

namespace Ring

variable {α : Type u} {n : Nat} {r : Ring α n}

theorem next_lt {i : Nat} (h : i < n) : ringNext n i < n := by
  unfold ringNext
  split_ifs <;> omega

/-- The number of elements waiting. -/
def length (r : Ring α n) : Nat :=
  if r.rpos ≤ r.wpos then r.wpos - r.rpos else r.wpos + n - r.rpos

theorem length_lt (r : Ring α n) : r.length < n := by
  have := r.rpos_lt
  have := r.wpos_lt
  unfold length
  split_ifs <;> omega

theorem wrap_lt {k : Nat} (h : k < r.length) : ringWrap n (r.rpos + k) < n := by
  have := r.rpos_lt
  have := r.length_lt
  unfold ringWrap
  split_ifs <;> omega

/-- The slot to be written is not among those of the elements waiting. -/
theorem wpos_ne_wrap {k : Nat} (h : k < r.length) : r.wpos ≠ ringWrap n (r.rpos + k) := by
  have := r.rpos_lt
  have := r.wpos_lt
  unfold length at h
  unfold ringWrap
  split_ifs at h ⊢ <;> omega

/-- The elements waiting, from the next one to be read on. -/
def contents (r : Ring α n) : List α :=
  List.ofFn fun k : Fin r.length ↦ r.buf.get ⟨ringWrap n (r.rpos + k), wrap_lt k.isLt⟩

@[simp] theorem length_contents (r : Ring α n) : r.contents.length = r.length := by
  simp [contents]

theorem getElem_contents {k : Nat} (h : k < r.contents.length) :
    r.contents[k] = r.buf.get ⟨ringWrap n (r.rpos + k), wrap_lt (by simpa using h)⟩ := by
  simp [contents]

/-- The buffer after a write. -/
def push (r : Ring α n) (a : α) : Ring α n where
  buf := r.buf.set r.wpos a r.wpos_lt
  rpos := r.rpos
  wpos := ringNext n r.wpos
  rpos_lt := r.rpos_lt
  wpos_lt := next_lt r.wpos_lt

/-- The buffer after a read. -/
def drop (r : Ring α n) : Ring α n where
  buf := r.buf
  rpos := ringNext n r.rpos
  wpos := r.wpos
  rpos_lt := next_lt r.rpos_lt
  wpos_lt := r.wpos_lt

theorem length_push (r : Ring α n) (a : α) :
    (r.push a).length = if r.length + 1 = n then 0 else r.length + 1 := by
  have := r.rpos_lt
  have := r.wpos_lt
  simp only [length, push, ringNext]
  split_ifs <;> omega

/-- A write appends, unless it fills the buffer. -/
theorem contents_push (r : Ring α n) (a : α) : (r.push a).contents = lossyPush n r.contents a := by
  have hlen := r.length_push a
  have hr := r.rpos_lt
  have hw := r.wpos_lt
  unfold lossyPush
  rw [length_contents]
  split_ifs at hlen ⊢ with hfull
  · rw [← List.length_eq_zero_iff, length_contents, hlen]
  · refine List.ext_getElem (by simp [hlen]) fun k hk hk' ↦ ?_
    rw [length_contents, hlen] at hk
    rw [getElem_contents, List.getElem_append]
    split_ifs with hlt
    · rw [getElem_contents]
      rw [length_contents] at hlt
      exact Vector.getElem_set_ne r.wpos_lt _ (wpos_ne_wrap hlt)
    · rw [length_contents] at hlt
      have hpos : ringWrap n (r.rpos + k) = r.wpos := by
        obtain rfl : k = r.length := by omega
        simp only [ringWrap, length]
        split_ifs <;> omega
      simp only [push, hpos, List.getElem_singleton]
      exact Vector.getElem_set_self r.wpos_lt

/-- Equal positions mean that nothing is waiting. -/
theorem contents_eq_nil_iff : r.contents = [] ↔ r.rpos = r.wpos := by
  have := r.rpos_lt
  have := r.wpos_lt
  rw [← List.length_eq_zero_iff, length_contents, length]
  split_ifs <;> omega

/-- A read takes the first element that is waiting. -/
theorem contents_eq_cons (h : r.rpos ≠ r.wpos) :
    r.contents = r.buf.get ⟨r.rpos, r.rpos_lt⟩ :: r.drop.contents := by
  have hr := r.rpos_lt
  have hw := r.wpos_lt
  have hlen : r.length = r.drop.length + 1 := by
    simp only [length, drop, ringNext]
    split_ifs <;> omega
  refine List.ext_getElem (by simp [hlen]) fun k hk hk' ↦ ?_
  rw [getElem_contents]
  rw [length_contents] at hk
  cases k with
  | zero => simp [ringWrap, hr]
  | succ k =>
      have hpos : ringWrap n (r.rpos + (k + 1)) = ringWrap n (r.drop.rpos + k) := by
        have := r.length_lt
        simp only [ringWrap, drop, ringNext]
        split_ifs <;> omega
      rw [List.getElem_cons_succ, getElem_contents]
      simp only [hpos, drop]

end Ring

end JosKernel
