import JosKernel.Lib.Memory
import JosKernel.Printf.Output

/-!
# `vsnprintf`

Printing to a buffer is `vprintfmt` with the callback `sprintputch`, which stores a
character if there is room and counts it in any case.  What ends up in the buffer is a
prefix of the output of `vprintfmt`, and a NUL.

## The model

* The state of the callback is the `struct sprintbuf` and the memory that its pointers
  point into.  The format and the strings it prints are not in the buffer.
* `n` and the return value are of type `int`.  A buffer of `n` bytes does not go past
  the end of the address space.
-/

namespace JosKernel.Printf

/-- `struct sprintbuf`. -/
structure Sprintbuf where
  buf : BitVec 32
  ebuf : BitVec 32
  cnt : Int
deriving DecidableEq, Repr

/-- `sprintputch(ch, b)`. -/
def sprintputch (ch : Code) : Sprintbuf × Mem → Sprintbuf × Mem
  | (b, mem) =>
      let b := { b with cnt := wrap32 (b.cnt + 1) }
      if b.buf < b.ebuf then ({ b with buf := b.buf + 1 }, mem.store b.buf (ch.setWidth 8))
      else (b, mem)

/-- `vsnprintf(buf, n, fmt, ap)`. -/
def vsnprintf (fuel : Nat) (mem : Mem) (buf n : BitVec 32) (fmt : CString) (ap : List Arg) :
    Except Stop (Int × Mem) := do
  let b : Sprintbuf := { buf := buf, ebuf := buf + n - 1, cnt := 0 }
  if buf = 0 ∨ n.toInt < 1 then return (-eInval, mem)
  let (b, mem) ← vprintfmt sprintputch fuel fmt 0 ap (b, mem)
  return (b.cnt, mem.store b.buf 0)

/-- `snprintf(buf, n, fmt, ...)`. -/
def snprintf (fuel : Nat) (mem : Mem) (buf n : BitVec 32) (fmt : CString) (ap : List Arg) :
    Except Stop (Int × Mem) := do
  let rc ← vsnprintf fuel mem buf n fmt ap
  return rc

theorem wrap32_succ {n : Nat} (h : n + 1 < 2 ^ 31) : wrap32 (n + 1) = (n + 1 : Nat) :=
  Int.bmod_eq_of_le (by omega) (by omega)

section

variable {buf ebuf : BitVec 32} {cnt room : Nat} {mem : Mem} {cs : List Code}

/-- A character for which there is room. -/
theorem sprintputch_store (hroom : ebuf.toNat = buf.toNat + (room + 1)) (hcnt : cnt + 1 < 2 ^ 31)
    (c : Code) :
    sprintputch c (⟨buf, ebuf, cnt⟩, mem) =
      (⟨buf + 1, ebuf, (cnt + 1 : Nat)⟩, mem.store buf (c.setWidth 8)) := by
  have hlt : buf < ebuf := by bv_omega
  simp only [sprintputch, wrap32_succ hcnt, if_pos hlt]

/-- A character for which there is no room. -/
theorem sprintputch_full (hroom : ebuf.toNat = buf.toNat) (hcnt : cnt + 1 < 2 ^ 31) (c : Code) :
    sprintputch c (⟨buf, ebuf, cnt⟩, mem) = (⟨buf, ebuf, (cnt + 1 : Nat)⟩, mem) := by
  have hlt : ¬ buf < ebuf := by bv_omega
  simp only [sprintputch, wrap32_succ hcnt, if_neg hlt]

/-- The characters as they are stored. -/
def chars (cs : List Code) : List Byte := cs.map (·.setWidth 8)

/-- **Printing to a buffer.**  As many characters are stored as there is room for, and
all of them are counted. -/
theorem emit_sprintputch (hroom : ebuf.toNat = buf.toNat + room)
    (hcnt : cnt + cs.length < 2 ^ 31) :
    emit sprintputch cs (⟨buf, ebuf, cnt⟩, mem) =
      (⟨buf + BitVec.ofNat 32 (min cs.length room), ebuf, (cnt + cs.length : Nat)⟩,
        mem.storeAll buf (chars (cs.take room))) := by
  induction cs generalizing buf cnt room mem with
  | nil => simp [chars, Mem.storeAll]
  | cons c cs ih =>
      rw [List.length_cons] at hcnt ⊢
      rw [emit_cons, Nat.add_comm cs.length, ← Nat.add_assoc]
      cases room with
      | zero =>
          rw [sprintputch_full hroom (by omega), ih hroom (by omega)]
          simp
      | succ room =>
          have hnext : ebuf.toNat = (buf + 1).toNat + room := by bv_omega
          have hbuf : buf + 1 + BitVec.ofNat 32 (min cs.length room) =
              buf + BitVec.ofNat 32 (min (1 + cs.length) (room + 1)) := by
            rw [BitVec.add_assoc, Nat.add_comm 1, Nat.add_min_add_right, Nat.add_comm _ 1,
              BitVec.ofNat_add]
            rfl
          rw [sprintputch_store hroom (by omega), ih hnext (by omega), hbuf]
          rfl

end

/-- What `vsnprintf` does with the output `W` of `vprintfmt`. -/
theorem vsnprintf_eq {fuel : Nat} {mem : Mem} {buf n : BitVec 32} {fmt : CString} {ap : List Arg}
    {W : List Code} (hbuf : buf ≠ 0) (hn : 1 ≤ n.toInt) (hfits : buf.toNat + n.toNat ≤ 2 ^ 32)
    (hW : vprintfmt record fuel fmt 0 ap [] = .ok W) (hlen : W.length < 2 ^ 31) :
    vsnprintf fuel mem buf n fmt ap =
      .ok (W.length, (mem.storeAll buf (chars (W.take (n.toNat - 1)))).store
        (buf + BitVec.ofNat 32 (min W.length (n.toNat - 1))) 0) := by
  have hpos : n ≠ 0 := by rintro rfl; exact absurd hn (by decide)
  have hroom : (buf + n - 1).toNat = buf.toNat + (n.toNat - 1) := by bv_omega
  have hcalls : emit sprintputch W (⟨buf, buf + n - 1, (0 : Nat)⟩, mem) = _ :=
    emit_sprintputch hroom (by omega)
  rw [Nat.zero_add] at hcalls
  rw [vsnprintf, if_neg (not_or.mpr ⟨hbuf, by omega⟩), vprintfmt_of_record hW]
  exact congrArg (fun p ↦ Except.ok (p.1.cnt, p.2.store p.1.buf 0)) hcalls

/-- **`vsnprintf` prints a prefix.**  Let `W` be the whole output of `vprintfmt`, with
fewer than `2 ^ 31` characters.  A buffer of `n` bytes gets the first characters of `W`,
at most `n - 1` of them, and then a NUL; no other byte of memory changes, and the length
of `W` is returned.  Without a buffer nothing changes. -/
theorem vsnprintf_writes (fuel : Nat) (mem : Mem) (buf n : BitVec 32) (fmt : CString)
    (ap : List Arg) :
    (buf = 0 ∨ n.toInt < 1 → vsnprintf fuel mem buf n fmt ap = .ok (-eInval, mem)) ∧
      ∀ W : List Code, buf ≠ 0 → 1 ≤ n.toInt → buf.toNat + n.toNat ≤ 2 ^ 32 →
        vprintfmt record fuel fmt 0 ap [] = .ok W → W.length < 2 ^ 31 →
        ∃ mem', vsnprintf fuel mem buf n fmt ap = .ok (W.length, mem') ∧
          (∀ k (hk : k < min W.length (n.toNat - 1)),
            mem' (buf + BitVec.ofNat 32 k) = W[k].setWidth 8) ∧
          mem' (buf + BitVec.ofNat 32 (min W.length (n.toNat - 1))) = 0 ∧
          ∀ x : BitVec 32, x.toNat < buf.toNat ∨
              buf.toNat + min W.length (n.toNat - 1) < x.toNat → mem' x = mem x := by
  refine ⟨fun h ↦ by rw [vsnprintf, if_pos h]; rfl, ?_⟩
  intro W hbuf hn hfits hW hlen
  have hchars : (chars (W.take (n.toNat - 1))).length ≤ 2 ^ 32 := by
    rw [chars, List.length_map, List.length_take]
    omega
  refine ⟨_, vsnprintf_eq hbuf hn hfits hW hlen, fun k hk ↦ ?_, Mem.store_self, fun x hx ↦ ?_⟩
  · have hne : buf + BitVec.ofNat 32 k ≠ buf + BitVec.ofNat 32 (min W.length (n.toNat - 1)) := by
      bv_omega
    have hk' : (buf + BitVec.ofNat 32 k - buf).toNat = k := by bv_omega
    rw [Mem.store_of_ne hne, Mem.storeAll_apply hchars, hk', chars, List.getElem?_map,
      List.getElem?_take_of_lt (by omega), List.getElem?_eq_getElem (by omega)]
    rfl
  · have hne : x ≠ buf + BitVec.ofNat 32 (min W.length (n.toNat - 1)) := by bv_omega
    have hx' : (chars (W.take (n.toNat - 1))).length ≤ (x - buf).toNat := by
      rw [chars, List.length_map, List.length_take]
      bv_omega
    rw [Mem.store_of_ne hne, Mem.storeAll_apply hchars, List.getElem?_eq_none hx']
    rfl

/-- A format with eight characters of output for a buffer of six. -/
def countFormat : CString := .literal "count=%d"

theorem countFormat_writes :
    ∃ mem', vsnprintf 2 (fun _ ↦ 0xFF) 0x1000 6 countFormat [.word 42] = .ok (8, mem') ∧
      mem' 0x1004 = ascii 't' ∧ mem' 0x1005 = 0 ∧ mem' 0x1006 = 0xFF := by
  have hW : vprintfmt record 2 countFormat 0 [.word 42] [] =
      .ok ((asciis "count=42".toList).map (·.setWidth 32)) := by decide +kernel
  obtain ⟨mem', hrun, hchars, hnul, hframe⟩ :=
    (vsnprintf_writes 2 (fun _ ↦ 0xFF) 0x1000 6 countFormat [.word 42]).2 _ (by decide) (by decide)
      (by decide) hW (by decide)
  exact ⟨mem', hrun, hchars 4 (by decide), hnul, hframe 0x1006 (by decide)⟩

end JosKernel.Printf
