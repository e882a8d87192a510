import JosKernel.Kdebug.Bracket

/-!
# The entry that contains an address

The header comment of `stab_binsearch` promises to "bracket" the address:
`*region_left` is the last entry of the type at or below it, and
`*region_right` lies just before the next entry of the type.  `Brackets` is that
promise.

The loop does not compare with one address.  On an exact match it goes on with
the address incremented, and an entry that matches the *incremented* address is
then taken for a match again.  So the promise is kept exactly when no such second
match happens: `Clean` says so in terms of the table alone, and
`stabBinsearch_brackets_iff` is the equivalence.

The proof cuts the run at its first exact match and, if there is one, at its
second.  Between two matches the address is constant (`Plain`) and the search is
an ordinary bisection (`Splits`).
-/

namespace JosKernel.Kdebug

open JosKernel.Interval Relation

/-! ## The promise and its condition -/

section

variable (P : Int → Prop) (v : Int → BitVec 32)

/-- `L` is the last entry of the type in `[l₀, r₀]` whose key is at most `x`, and
`R` is just before the next entry of the type, or `r₀` if there is none. -/
structure Brackets (l₀ r₀ : Int) (x : BitVec 32) (L R : Int) : Prop where
  last : LastIn (fun i ↦ P i ∧ v i ≤ x) l₀ r₀ L
  next : R = r₀ ∧ NoneIn P (L + 1) r₀ ∨ L ≤ R ∧ R < r₀ ∧ P (R + 1) ∧ NoneIn P (L + 1) R

/-- Halving `[l, r]` by comparisons with `x`, the first entry of the type met
whose key equals `x` is `m`, and the right bound is then `r'`. -/
inductive Meets (x : BitVec 32) : Int → Int → Int → Int → Prop
  | here {l r m : Int} (hlr : l ≤ r) (hm : LastIn P l (mid l r) m) (hv : v m = x) :
      Meets x l r m r
  | skip {l r m r' : Int} (hlr : l ≤ r) (hn : NoneIn P l (mid l r))
      (h : Meets x (mid l r + 1) r m r') : Meets x l r m r'
  | less {l r k m r' : Int} (hlr : l ≤ r) (hk : LastIn P l (mid l r) k) (hv : v k < x)
      (h : Meets x (mid l r + 1) r m r') : Meets x l r m r'
  | greater {l r k m r' : Int} (hlr : l ≤ r) (hk : LastIn P l (mid l r) k) (hv : x < v k)
      (h : Meets x l (k - 1) m r') : Meets x l r m r'

/-- If the bisection meets an entry at the address `x`, then `x` is not the last
address, and the bisection of what is left meets no entry at `x + 1`.

The one exception: an entry at the last address `x + 1` that directly follows an
entry at `x`.  There the increment wraps, and the right bound falls back onto the
entry at `x`. -/
def Clean (l₀ r₀ : Int) (x : BitVec 32) : Prop :=
  ∀ m r, Meets P v x l₀ r₀ m r → x + 1 ≠ 0 ∧
    ∀ m' r', Meets P v (x + 1) m r m' r' → x + 2 = 0 ∧ P (m' - 1) ∧ v (m' - 1) = x

end

variable {P : Int → Prop} {v : Int → BitVec 32} {l₀ r₀ : Int} {x : BitVec 32} {s s' t u : Search}

theorem Meets.mem {l r m r' : Int} (h : Meets P v x l r m r') :
    l ≤ m ∧ m ≤ r ∧ P m ∧ v m = x := by
  induction h with
  | here hlr hm hv =>
      have := mid_mem hlr
      have := hm.le
      exact ⟨hm.ge, by omega, hm.holds, hv⟩
  | skip hlr hn _ ih =>
      have := mid_mem hlr
      exact ⟨by omega, ih.2⟩
  | less hlr hk hv _ ih =>
      have := mid_mem hlr
      exact ⟨by omega, ih.2⟩
  | greater hlr hk hv _ ih =>
      have := mid_mem hlr
      have := hk.le
      exact ⟨ih.1, by omega, ih.2.2⟩

theorem Meets.right_le {l r m r' : Int} (h : Meets P v x l r m r') : r' ≤ r := by
  induction h with
  | here => exact le_refl _
  | skip _ _ _ ih => exact ih
  | less _ _ _ _ ih => exact ih
  | greater hlr hk _ _ ih =>
      have := mid_mem hlr
      have := hk.le
      omega

/-- Where no entry of the type is at the address, the bisection meets none. -/
theorem not_meets {l r m r' : Int} (hne : ∀ i, l ≤ i → i ≤ r → P i → v i ≠ x) :
    ¬ Meets P v x l r m r' := by
  intro h
  obtain ⟨hl, hr, hp, hv⟩ := h.mem
  exact hne m hl hr hp hv

/-- A search is clean when no entry of the type is at the address, or none at the
next one. -/
theorem Clean.of_forall
    (h : (∀ i, l₀ ≤ i → i ≤ r₀ → P i → v i ≠ x) ∨
      x + 1 ≠ 0 ∧ ∀ i, l₀ ≤ i → i ≤ r₀ → P i → v i ≠ x + 1) : Clean P v l₀ r₀ x := by
  intro m r hm
  rcases h with hno | ⟨hx, hno⟩
  · exact absurd hm (not_meets hno)
  · refine ⟨hx, ?_⟩
    intro m' r' hm'
    have hl := hm.mem.1
    have hr := hm.right_le
    refine absurd hm' (not_meets ?_)
    intro i hi hi' hp
    exact hno i (by omega) (by omega) hp

/-! ## Cutting a run at its exact matches -/

/-- A pass that is not an exact match. -/
def Plain (P : Int → Prop) (v : Int → BitVec 32) (s s' : Search) : Prop :=
  Step P v s s' ∧ s'.addr = s.addr

/-- The state after an exact match at `m`. -/
def Search.matched (u : Search) (m : Int) : Search :=
  { u with anyMatches := true, regionLeft := m, l := m, addr := u.addr + 1 }

/-- In `u` the bisection is about to match exactly at `m`. -/
structure MatchesAt (P : Int → Prop) (v : Int → BitVec 32) (u : Search) (m : Int) : Prop where
  le : u.l ≤ u.r
  last : LastIn P u.l (mid u.l u.r) m
  value : v m = u.addr

theorem MatchesAt.step {m : Int} (h : MatchesAt P v u m) : Step P v u (u.matched m) :=
  .exact h.le h.last h.value

theorem addr_succ_ne (y : BitVec 32) : y + 1 ≠ y := by bv_omega

/-- Plain runs keep the address. -/
theorem plain_addr (h : ReflTransGen (Plain P v) s u) : u.addr = s.addr := by
  induction h with
  | refl => rfl
  | tail _ hlast ih => rw [hlast.2, ih]

theorem plain_run (h : ReflTransGen (Plain P v) s u) : ReflTransGen (Step P v) s u :=
  ReflTransGen.mono (fun _ _ ↦ And.left) _ _ h

/-- A pass is plain or an exact match. -/
theorem Step.plain_or_matches (h : Step P v s s') :
    Plain P v s s' ∨ ∃ m, MatchesAt P v s m ∧ s' = s.matched m := by
  cases h with
  | skip hlr hn => exact .inl ⟨.skip hlr hn, rfl⟩
  | less hlr hm hv => exact .inl ⟨.less hlr hm hv, rfl⟩
  | greater hlr hm hv => exact .inl ⟨.greater hlr hm hv, rfl⟩
  | @exact m hlr hm hv => exact .inr ⟨m, ⟨hlr, hm, hv⟩, rfl⟩

/-- A run without exact matches, or one up to its first exact match. -/
theorem Ends.cut (h : Ends P v s t) :
    ReflTransGen (Plain P v) s t ∨
      ∃ u m, ReflTransGen (Plain P v) s u ∧ MatchesAt P v u m ∧ Ends P v (u.matched m) t := by
  obtain ⟨hrun, hx⟩ := h
  induction hrun using ReflTransGen.head_induction_on with
  | refl => exact .inl .refl
  | head hstep hrest ih =>
      rcases hstep.plain_or_matches with hp | ⟨m, hm, rfl⟩
      · rcases ih with hall | ⟨u, m, hu, hm, hends⟩
        · exact .inl (.head hp hall)
        · exact .inr ⟨u, m, .head hp hu, hm, hends⟩
      · exact .inr ⟨_, m, .refl, hm, hrest, hx⟩

/-- The search is deterministic. -/
theorem Step.unique {a b : Search} (h₁ : Step P v s a) (h₂ : Step P v s b) : a = b := by
  cases h₁ with
  | skip hlr hn =>
      cases h₂ with
      | skip => rfl
      | less _ hm => exact absurd hn hm.not_noneIn
      | greater _ hm => exact absurd hn hm.not_noneIn
      | exact _ hm => exact absurd hn hm.not_noneIn
  | less hlr hm hv =>
      cases h₂ with
      | skip _ hn => exact absurd hn hm.not_noneIn
      | less _ hm' => rw [hm.unique hm']
      | greater _ hm' hv' => rw [hm.unique hm'] at hv; bv_omega
      | exact _ hm' hv' => rw [hm.unique hm'] at hv; bv_omega
  | greater hlr hm hv =>
      cases h₂ with
      | skip _ hn => exact absurd hn hm.not_noneIn
      | less _ hm' hv' => rw [hm.unique hm'] at hv; bv_omega
      | greater _ hm' => rw [hm.unique hm']
      | exact _ hm' hv' => rw [hm.unique hm'] at hv; bv_omega
  | exact hlr hm hv =>
      cases h₂ with
      | skip _ hn => exact absurd hn hm.not_noneIn
      | less _ hm' hv' => rw [hm.unique hm'] at hv; bv_omega
      | greater _ hm' hv' => rw [hm.unique hm'] at hv; bv_omega
      | exact _ hm' => rw [hm.unique hm']

/-- A pass out of a state whose run ends is the first pass of that run. -/
theorem Ends.tail (h : Ends P v s t) (hs : Step P v s s') : Ends P v s' t := by
  rcases h.cases_head with ⟨rfl, hx⟩ | ⟨s'', hs'', hends⟩
  · have := hs.le
    omega
  · rwa [hs.unique hs'']

/-- What the bisection meets, the run matches. -/
theorem Meets.cut {l r m r' : Int} (h : Meets P v x l r m r') :
    ∀ {s : Search}, Ends P v s t → s.l = l → s.r = r → s.addr = x →
      ∃ u, ReflTransGen (Plain P v) s u ∧ MatchesAt P v u m ∧ u.r = r' ∧
        Ends P v (u.matched m) t := by
  induction h with
  | here hlr hm hv =>
      rintro s hends rfl rfl rfl
      have hat : MatchesAt P v s _ := ⟨hlr, hm, hv⟩
      exact ⟨s, .refl, hat, rfl, hends.tail hat.step⟩
  | skip hlr hn _ ih =>
      rintro s hends rfl rfl rfl
      have hs : Step P v s _ := .skip hlr hn
      obtain ⟨u, hu, hrest⟩ := ih (hends.tail hs) rfl rfl rfl
      exact ⟨u, .head ⟨hs, rfl⟩ hu, hrest⟩
  | less hlr hk hv _ ih =>
      rintro s hends rfl rfl rfl
      have hs : Step P v s _ := .less hlr hk hv
      obtain ⟨u, hu, hrest⟩ := ih (hends.tail hs) rfl rfl rfl
      exact ⟨u, .head ⟨hs, rfl⟩ hu, hrest⟩
  | greater hlr hk hv _ ih =>
      rintro s hends rfl rfl rfl
      have hs : Step P v s _ := .greater hlr hk hv
      obtain ⟨u, hu, hrest⟩ := ih (hends.tail hs) rfl rfl rfl
      exact ⟨u, .head ⟨hs, rfl⟩ hu, hrest⟩

/-- What a plain run leads up to, the bisection meets. -/
theorem MatchesAt.meets {m : Int} (hu : ReflTransGen (Plain P v) s u) (hm : MatchesAt P v u m) :
    Meets P v s.addr s.l s.r m u.r := by
  induction hu using ReflTransGen.head_induction_on with
  | refl => exact .here hm.le hm.last hm.value
  | head hp _ ih =>
      obtain ⟨hstep, haddr⟩ := hp
      cases hstep with
      | skip hlr hn => exact .skip hlr hn ih
      | less hlr hk hv => exact .less hlr hk hv ih
      | greater hlr hk hv => exact .greater hlr hk hv ih
      | exact => exact absurd haddr (addr_succ_ne _)

/-! ## Between two matches

As long as the address does not change the search is an ordinary bisection.  It
separates the entries at or below `x` from those above it both before a match at
`x` and, comparing with `x + 1`, after it. -/

/-- Entries of the type come in non-decreasing order of their keys. -/
def Sorted (P : Int → Prop) (v : Int → BitVec 32) (l₀ r₀ : Int) : Prop :=
  ∀ i j, l₀ ≤ i → i ≤ j → j ≤ r₀ → P i → P j → v i ≤ v j

instance [DecidablePred P] : Decidable (Sorted P v l₀ r₀) :=
  decidable_of_iff
    (∀ i, l₀ ≤ i → i ≤ r₀ → ∀ j, i ≤ j → j ≤ r₀ → P i → P j → v i ≤ v j)
    ⟨fun h i j hi hij hj ↦ h i hi (by omega) j hij hj, fun h i hi _ j hij hj ↦ h i j hi hij hj⟩

/-- The bounds separate the entries at or below `x` from those above it. -/
structure Splits (P : Int → Prop) (v : Int → BitVec 32) (l₀ r₀ : Int) (x : BitVec 32)
    (s : Search) : Prop where
  left : ∀ i, l₀ ≤ i → i < s.l → P i → v i ≤ x
  right : ∀ i, s.r < i → i ≤ r₀ → P i → x < v i
  hit : s.regionLeft = l₀ ∧ NoneIn P l₀ (s.l - 1) ∨ v s.regionLeft ≤ x
  addr : s.addr = x ∨ s.addr = x + 1 ∧ x + 1 ≠ 0

theorem Splits.init : Splits P v l₀ r₀ x (.init l₀ r₀ x) where
  left i hi hi' := by dsimp only [Search.init] at hi'; omega
  right i hi hi' := by dsimp only [Search.init] at hi; omega
  hit := .inl ⟨rfl, .of_lt (by dsimp only [Search.init]; omega)⟩
  addr := .inl rfl

theorem Plain.splits (hsort : Sorted P v l₀ r₀) (hp : Plain P v s s') (hshape : Shape P l₀ r₀ s)
    (h : Splits P v l₀ r₀ x s) : Splits P v l₀ r₀ x s' := by
  obtain ⟨hstep, haddr⟩ := hp
  have hmid := mid_mem hstep.le
  have hlo := hshape.lo
  have hhi := hshape.hi
  have ha := h.addr
  cases hstep with
  | skip hlr hn =>
      refine ⟨fun i hi hi' hpi ↦ ?_, h.right, ?_, ha⟩
      · by_cases hil : i < s.l
        · exact h.left i hi hil hpi
        · exact absurd hpi (hn i (by omega) (by dsimp only at hi'; omega))
      · rcases h.hit with ⟨hl, hno⟩ | hv
        · exact .inl ⟨hl, hno.join hn⟩
        · exact .inr hv
  | @less m hlr hm hv =>
      have hvm : v m ≤ x := by bv_omega
      have := hm.ge
      have := hm.le
      refine ⟨fun i hi hi' hpi ↦ ?_, h.right, .inr hvm, ha⟩
      have him := hm.le_of_holds (i := i) (by dsimp only at hi'; omega) hpi
      exact BitVec.le_trans (hsort i m hi him (by omega) hpi hm.holds) hvm
  | @greater m hlr hm hv =>
      have hvm : x < v m := by bv_omega
      have := hm.ge
      have := hm.le
      refine ⟨h.left, fun i hi hi' hpi ↦ ?_, h.hit, ha⟩
      have := hsort m i (by omega) (by dsimp only at hi; omega) hi' hm.holds hpi
      bv_omega
  | exact => exact absurd haddr (addr_succ_ne _)

theorem Plain.splits_run (hsort : Sorted P v l₀ r₀) (hrun : ReflTransGen (Plain P v) s t)
    (hshape : Shape P l₀ r₀ s) (h : Splits P v l₀ r₀ x s) :
    Shape P l₀ r₀ t ∧ Splits P v l₀ r₀ x t := by
  induction hrun with
  | refl => exact ⟨hshape, h⟩
  | tail _ hlast ih => exact ⟨hlast.1.shape ih.1, hlast.splits hsort ih.1 ih.2⟩

/-- A match at `x` keeps the separation, now by comparisons with `x + 1`. -/
theorem MatchesAt.splits {m : Int} (hsort : Sorted P v l₀ r₀) (hm : MatchesAt P v u m)
    (hshape : Shape P l₀ r₀ u) (h : Splits P v l₀ r₀ x u) (hx : u.addr = x) (hx' : x + 1 ≠ 0) :
    Splits P v l₀ r₀ x (u.matched m) := by
  have hmid := mid_mem hm.le
  have hlo := hshape.lo
  have hhi := hshape.hi
  have hge := hm.last.ge
  have hle := hm.last.le
  have hvm : v m = x := by rw [hm.value, hx]
  refine ⟨fun i hi hi' hpi ↦ ?_, h.right, .inr (by rw [← hvm]; exact BitVec.le_refl _),
    .inr ⟨by simp [Search.matched, hx], hx'⟩⟩
  dsimp only [Search.matched] at hi'
  exact hvm ▸ hsort i m hi (by omega) (by omega) hpi hm.last.holds

/-- When bounds that separate the entries have crossed, they bracket the address. -/
theorem Splits.brackets (h : Splits P v l₀ r₀ x t) (hshape : Shape P l₀ r₀ t) (hx : t.r < t.l)
    (hex : ∃ i, l₀ ≤ i ∧ i ≤ r₀ ∧ P i ∧ v i ≤ x) :
    Brackets P v l₀ r₀ x t.result.1 t.result.2 := by
  obtain ⟨i, hi, hi', hpi, hvi⟩ := hex
  have hl := hshape.l_eq hx
  have hhi := hshape.hi
  -- the entry at or below the address is on the left, so a match has been recorded
  have hir : i ≤ t.r := by
    by_contra hlt
    have := h.right i (by omega) hi' hpi
    bv_omega
  have hsome : ¬ NoneIn P l₀ (t.l - 1) := fun hno ↦ hno i hi (by omega) hpi
  have hhit : Hit P l₀ r₀ t := by
    rcases hshape.left with ⟨-, hno⟩ | hhit
    · exact absurd hno hsome
    · exact hhit
  have hv : v t.regionLeft ≤ x := by
    rcases h.hit with ⟨-, hno⟩ | hv
    · exact absurd hno hsome
    · exact hv
  have hany : t.anyMatches = true := by
    by_contra hany
    exact hsome (hshape.fresh (by simpa using hany)).2.2
  have hrl : t.regionLeft ≤ t.r := by
    by_contra hlt
    have := h.right t.regionLeft (by omega) hhit.hi hhit.holds
    bv_omega
  have hafter : NoneIn P (t.regionLeft + 1) t.r := hshape.noneIn hx
  simp only [Search.result, hany, if_true, min_eq_left hrl]
  refine ⟨⟨hhit.lo, hhit.hi, ⟨hhit.holds, hv⟩, fun j hj hj' ⟨hpj, hvj⟩ ↦ ?_⟩, ?_⟩
  · by_cases hjr : j ≤ t.r
    · exact hafter j hj hjr hpj
    · have := h.right j (by omega) hj' hpj
      bv_omega
  · rcases hshape.edge with hr | hp
    · exact .inl ⟨hr, hr ▸ hafter⟩
    · by_cases hr : t.r = r₀
      · exact .inl ⟨hr, hr ▸ hafter⟩
      · exact .inr ⟨hrl, by omega, hp, hafter⟩

/-! ## After a second match

A match at the last address wraps the increment: everything from the matched
entry on is then above the address, and the right bound falls back to just before
it.  A match at any other address keeps the matched entry inside the bounds. -/

/-- The state from a match at the last address on. -/
structure Wrapped (m : Int) (s : Search) : Prop where
  l : s.l = m
  regionLeft : s.regionLeft = m
  addr : s.addr = 0
  any : s.anyMatches = true

theorem Step.wrapped {m : Int} (hp : P m) (hv : ∀ i, m ≤ i → i ≤ r₀ → P i → 0 < v i)
    (hs : Step P v s s') (hr : s.r ≤ r₀) (h : Wrapped m s) : Wrapped m s' := by
  have hmid := mid_mem hs.le
  have hl := h.l
  have haddr := h.addr
  cases hs with
  | skip hlr hn => exact absurd hp (hn m (by omega) (by omega))
  | less hlr hk hlt =>
      rw [haddr] at hlt
      bv_omega
  | greater hlr hk hlt => exact ⟨hl, h.regionLeft, haddr, rfl⟩
  | @exact k hlr hk heq =>
      have := hk.ge
      have := hk.le
      have hpos := hv k (by omega) (by omega) hk.holds
      rw [heq, haddr] at hpos
      exact absurd hpos (BitVec.lt_irrefl _)

/-- A search that matches at `m` at the last address returns `m - 1` twice. -/
theorem MatchesAt.wraps {m : Int} (hsort : Sorted P v l₀ r₀) (hm : MatchesAt P v u m)
    (hshape : Shape P l₀ r₀ u) (haddr : u.addr + 1 = 0) (hends : Ends P v (u.matched m) t) :
    t.result = (m - 1, m - 1) := by
  have hmid := mid_mem hm.le
  have hge := hm.last.ge
  have hlo := hshape.lo
  have hle := hm.last.le
  have hhi := hshape.hi
  have hpos : ∀ i, m ≤ i → i ≤ r₀ → P i → 0 < v i := by
    intro i hi hi' hpi
    have := hsort m i (by omega) hi hi' hm.last.holds hpi
    have := hm.value
    bv_omega
  have hinit : Shape P l₀ r₀ (u.matched m) := hm.step.shape hshape
  obtain ⟨hw, hshape'⟩ : Wrapped m t ∧ Shape P l₀ r₀ t := by
    refine hends.preserves (I := fun s ↦ Wrapped m s ∧ Shape P l₀ r₀ s) ?_
      ⟨⟨rfl, rfl, ?_, rfl⟩, hinit⟩
    · exact fun s s' hs ⟨hw, hsh⟩ ↦ ⟨hs.wrapped hm.last.holds hpos hsh.hi hw, hs.shape hsh⟩
    · exact haddr
  have hl := hshape'.l_eq hends.crossed
  have hr : t.r = m - 1 := by have := hw.l; omega
  simp only [Search.result, hw.any, if_true, hw.regionLeft, hr, Prod.mk.injEq, and_true]
  omega

/-- The bounds and the result stay at or after `m`, an entry the search has passed. -/
structure Keeps (v : Int → BitVec 32) (m : Int) (s : Search) : Prop where
  l : m ≤ s.l
  r : m ≤ s.r
  regionLeft : m ≤ s.regionLeft
  past : m < s.l ∨ v m < s.addr
  any : s.anyMatches = true

/-- An entry that does not start before the address is not `m`. -/
theorem Keeps.ne {m k : Int} (h : Keeps v m s) (hk : s.l ≤ k) (hle : s.addr ≤ v k) : k ≠ m := by
  rintro rfl
  rcases h.past with hpast | hpast
  · omega
  · exact absurd hle (BitVec.not_le.mpr hpast)

theorem Step.keeps {m : Int} (hs : Step P v s s') (h : Keeps v m s) : Keeps v m s' := by
  have hmid := mid_mem hs.le
  have hl := h.l
  have hr := h.r
  have hpast := h.past
  cases hs with
  | skip hlr hn => exact ⟨by dsimp only; omega, hr, h.regionLeft, .inl (by dsimp only; omega),
    h.any⟩
  | @less k hlr hk hlt =>
      have := hk.ge
      exact ⟨by dsimp only; omega, hr, by dsimp only; omega, .inl (by dsimp only; omega), rfl⟩
  | @greater k hlr hk hlt =>
      have hge := hk.ge
      have hkm := h.ne hge (BitVec.le_of_lt hlt)
      exact ⟨hl, by dsimp only; omega, h.regionLeft, hpast, rfl⟩
  | @exact k hlr hk heq =>
      have hge := hk.ge
      have hkm := h.ne hge (BitVec.le_of_eq heq.symm)
      exact ⟨by dsimp only; omega, hr, by dsimp only; omega, .inl (by dsimp only; omega), rfl⟩

theorem MatchesAt.keeps_matched {m : Int} (hm : MatchesAt P v u m) (haddr : u.addr + 1 ≠ 0) :
    Keeps v m (u.matched m) := by
  have hmid := mid_mem hm.le
  have hle := hm.last.le
  have hpast : v m < (u.matched m).addr := by
    have := hm.value
    simp only [Search.matched]
    bv_omega
  exact ⟨le_refl _, by simp only [Search.matched]; omega, le_refl _, .inr hpast, rfl⟩

/-- A search that matches at `m` before the last address returns at least `m`. -/
theorem MatchesAt.keeps {m : Int} (hm : MatchesAt P v u m) (haddr : u.addr + 1 ≠ 0)
    (hends : Ends P v (u.matched m) t) : m ≤ t.result.1 := by
  have hk : Keeps v m t := hends.preserves (fun _ _ ↦ Step.keeps) (hm.keeps_matched haddr)
  have := hk.r
  have := hk.regionLeft
  simp only [Search.result, hk.any, if_true]
  omega

/-! ## The equivalence -/

/-- A first match at `x`, and what the run is like just after it. -/
structure FirstMatch (P : Int → Prop) (v : Int → BitVec 32) (l₀ r₀ : Int) (x : BitVec 32)
    (u : Search) (m : Int) : Prop where
  matchesAt : MatchesAt P v u m
  shape : Shape P l₀ r₀ u
  splits : Splits P v l₀ r₀ x u
  addr : u.addr = x

/-- A second match, at `x + 1`. -/
structure SecondMatch (P : Int → Prop) (v : Int → BitVec 32) (l₀ r₀ : Int) (x : BitVec 32)
    (m : Int) (u' : Search) (m' : Int) : Prop where
  matchesAt : MatchesAt P v u' m'
  shape : Shape P l₀ r₀ u'
  addr : u'.addr = x + 1
  lt : m < m'
  le : m' ≤ r₀

namespace FirstMatch

variable {m : Int}

theorem value (h : FirstMatch P v l₀ r₀ x u m) : v m = x := by rw [h.matchesAt.value, h.addr]

theorem mem (h : FirstMatch P v l₀ r₀ x u m) : l₀ ≤ m ∧ m ≤ r₀ := by
  have := mid_mem h.matchesAt.le
  have := h.matchesAt.last.ge
  have := h.matchesAt.last.le
  have := h.shape.lo
  have := h.shape.hi
  omega

theorem of_run (hsort : Sorted P v l₀ r₀) (hlr : l₀ ≤ r₀ + 1)
    (hu : ReflTransGen (Plain P v) (.init l₀ r₀ x) u) (hm : MatchesAt P v u m) :
    FirstMatch P v l₀ r₀ x u m :=
  have h := Plain.splits_run hsort hu (.init hlr) .init
  ⟨hm, h.1, h.2, plain_addr hu⟩

/-- After the first match the search goes on to separate at `x`. -/
theorem matched (h : FirstMatch P v l₀ r₀ x u m) (hsort : Sorted P v l₀ r₀) (hx : x + 1 ≠ 0) :
    Shape P l₀ r₀ (u.matched m) ∧ Splits P v l₀ r₀ x (u.matched m) :=
  ⟨h.matchesAt.step.shape h.shape, h.matchesAt.splits hsort h.shape h.splits h.addr hx⟩

theorem second (h : FirstMatch P v l₀ r₀ x u m) (hsort : Sorted P v l₀ r₀) (hx : x + 1 ≠ 0)
    {u' : Search} {m' : Int} (hu : ReflTransGen (Plain P v) (u.matched m) u')
    (hm : MatchesAt P v u' m') : SecondMatch P v l₀ r₀ x m u' m' := by
  obtain ⟨hshape, hsplits⟩ := h.matched hsort hx
  obtain ⟨hshape', -⟩ := Plain.splits_run hsort hu hshape hsplits
  have haddr : u'.addr = x + 1 := by rw [plain_addr hu]; simp [Search.matched, h.addr]
  have hmid := mid_mem hm.le
  have hge := hm.last.ge
  have hle := hm.last.le
  have hlo := hshape'.lo
  have hhi := hshape'.hi
  refine ⟨hm, hshape', haddr, ?_, by omega⟩
  -- the keys `x` and `x + 1` keep the two matches apart, in this order
  by_contra hlt
  have := hsort m' m (by omega) (by omega) h.mem.2 hm.last.holds h.matchesAt.last.holds
  have := h.value
  have := hm.value
  bv_omega

end FirstMatch

theorem SecondMatch.value {m m' : Int} (h : SecondMatch P v l₀ r₀ x m u m') : v m' = x + 1 := by
  rw [h.matchesAt.value, h.addr]

/-- A run that brackets the address has not gone wrong at an exact match. -/
theorem Ends.clean (hsort : Sorted P v l₀ r₀) (hlr : l₀ ≤ r₀ + 1) (h : Ends P v (.init l₀ r₀ x) t)
    (hb : Brackets P v l₀ r₀ x t.result.1 t.result.2) : Clean P v l₀ r₀ x := by
  intro m r hmeets
  obtain ⟨u, hu, hm, rfl, hends⟩ := hmeets.cut h rfl rfl rfl
  have hfirst := FirstMatch.of_run hsort hlr hu hm
  have hvm := hfirst.value
  have hx : x + 1 ≠ 0 := by
    intro hx
    rw [hm.wraps hsort hfirst.shape (hfirst.addr.symm ▸ hx) hends] at hb
    exact hb.last.after m (by omega) hfirst.mem.2
      ⟨hm.last.holds, hvm ▸ BitVec.le_refl _⟩
  refine ⟨hx, ?_⟩
  intro m' r' hmeets'
  obtain ⟨u', hu', hm', rfl, hends'⟩ := hmeets'.cut hends rfl rfl
    (by simp [Search.matched, hfirst.addr])
  have hsecond := hfirst.second hsort hx hu' hm'
  have hlt := hsecond.lt
  have hvm' := hsecond.value
  by_cases hx' : x + 2 = 0
  · have haddr : u'.addr + 1 = 0 := by rw [hsecond.addr]; bv_omega
    rw [hm'.wraps hsort hsecond.shape haddr hends'] at hb
    obtain ⟨hp, hv⟩ := hb.last.holds
    have hle := hsort m (m' - 1) hfirst.mem.1 (by omega) hb.last.le hm.last.holds hp
    exact ⟨hx', hp, BitVec.le_antisymm hv (hvm ▸ hle)⟩
  · have haddr : u'.addr + 1 ≠ 0 := by rw [hsecond.addr]; bv_omega
    have hkeep := hm'.keeps haddr hends'
    obtain ⟨hp, hv⟩ := hb.last.holds
    have := hfirst.mem
    have := hsort m' _ (by omega) hkeep hb.last.le hm'.last.holds hp
    bv_omega

/-- A run that has not gone wrong at an exact match brackets the address. -/
theorem Ends.brackets (hsort : Sorted P v l₀ r₀) (hlr : l₀ ≤ r₀ + 1)
    (hex : ∃ i, l₀ ≤ i ∧ i ≤ r₀ ∧ P i ∧ v i ≤ x) (h : Ends P v (.init l₀ r₀ x) t)
    (hc : Clean P v l₀ r₀ x) : Brackets P v l₀ r₀ x t.result.1 t.result.2 := by
  rcases h.cut with hall | ⟨u, m, hu, hm, hends⟩
  · obtain ⟨hshape, hsplits⟩ := Plain.splits_run hsort hall (.init hlr) .init
    exact hsplits.brackets hshape h.crossed hex
  · have hfirst := FirstMatch.of_run hsort hlr hu hm
    obtain ⟨hx, hrest⟩ := hc m u.r (hm.meets hu)
    obtain ⟨hshape, hsplits⟩ := hfirst.matched hsort hx
    rcases hends.cut with hall | ⟨u', m', hu', hm', hends'⟩
    · obtain ⟨hshape', hsplits'⟩ := Plain.splits_run hsort hall hshape hsplits
      exact hsplits'.brackets hshape' h.crossed hex
    · have hsecond := hfirst.second hsort hx hu' hm'
      have haddr : (u.matched m).addr = x + 1 := by simp [Search.matched, hfirst.addr]
      obtain ⟨hx', hp, hv⟩ := hrest m' u'.r (haddr ▸ hm'.meets hu')
      have hlt := hsecond.lt
      have hle := hsecond.le
      have hmem := hfirst.mem
      rw [hm'.wraps hsort hsecond.shape (by rw [hsecond.addr]; bv_omega) hends']
      refine ⟨⟨by omega, by omega, ⟨hp, hv ▸ BitVec.le_refl _⟩, fun j hj hj' ⟨hpj, hvj⟩ ↦ ?_⟩,
        .inr ?_⟩
      · have := hsort m' j (by omega) (by omega) hj' hm'.last.holds hpj
        have := hsecond.value
        bv_omega
      · exact ⟨le_refl _, by omega, by simpa using hm'.last.holds, .of_lt (by omega)⟩

/-- The result of a run brackets the address exactly when the condition holds. -/
theorem Ends.brackets_iff (hsort : Sorted P v l₀ r₀) (hlr : l₀ ≤ r₀ + 1)
    (hex : ∃ i, l₀ ≤ i ∧ i ≤ r₀ ∧ P i ∧ v i ≤ x) (h : Ends P v (.init l₀ r₀ x) t) :
    Brackets P v l₀ r₀ x t.result.1 t.result.2 ↔ Clean P v l₀ r₀ x :=
  ⟨h.clean hsort hlr, h.brackets hsort hlr hex⟩

/-- **`stab_binsearch` on an address that is contained.**  For every range of every
table in which the entries of the type are in order and one of them is at or below
the address, the search returns, and it returns the bracket of its header comment
exactly when the search is clean. -/
theorem stabBinsearch_brackets_iff {stabs : List Stab} {type : Int} (h0 : 0 ≤ l₀)
    (hn : r₀ < stabs.length) (hsort : Sorted (HasType stabs type) (valueAt stabs) l₀ r₀)
    (hex : ∃ i, l₀ ≤ i ∧ i ≤ r₀ ∧ HasType stabs type i ∧ valueAt stabs i ≤ x) :
    (∃ L R, stabBinsearch stabs l₀ r₀ type x = .ok (L, R) ∧
        Brackets (HasType stabs type) (valueAt stabs) l₀ r₀ x L R) ↔
      Clean (HasType stabs type) (valueAt stabs) l₀ r₀ x := by
  have hlr : l₀ ≤ r₀ + 1 := by
    obtain ⟨i, hi, hi', -⟩ := hex
    omega
  obtain ⟨L, R, hs⟩ := stabBinsearch_total x type h0 hlr hn
  obtain ⟨t, hends, -, hresult⟩ := stabBinsearch_ok hlr hs
  rw [← hends.brackets_iff hsort hlr hex, ← hresult]
  constructor
  · rintro ⟨L', R', heq, hb⟩
    obtain ⟨rfl, rfl⟩ := Prod.mk.inj (Except.ok.inj (hs.symm.trans heq))
    exact hb
  · exact fun hb ↦ ⟨L, R, hs, hb⟩

/-- In particular the search returns the bracket when no entry of the type is at the
address, or none at the next one. -/
theorem stabBinsearch_brackets {stabs : List Stab} {type : Int} (h0 : 0 ≤ l₀)
    (hn : r₀ < stabs.length) (hsort : Sorted (HasType stabs type) (valueAt stabs) l₀ r₀)
    (hex : ∃ i, l₀ ≤ i ∧ i ≤ r₀ ∧ HasType stabs type i ∧ valueAt stabs i ≤ x)
    (hapart : (∀ i, l₀ ≤ i → i ≤ r₀ → HasType stabs type i → valueAt stabs i ≠ x) ∨
      x + 1 ≠ 0 ∧ ∀ i, l₀ ≤ i → i ≤ r₀ → HasType stabs type i → valueAt stabs i ≠ x + 1) :
    ∃ L R, stabBinsearch stabs l₀ r₀ type x = .ok (L, R) ∧
      Brackets (HasType stabs type) (valueAt stabs) l₀ r₀ x L R := by
  have hlr : l₀ ≤ r₀ + 1 := by
    obtain ⟨i, hi, hi', -⟩ := hex
    omega
  obtain ⟨L, R, hs⟩ := stabBinsearch_total x type h0 hlr hn
  obtain ⟨t, hends, -, hresult⟩ := stabBinsearch_ok hlr hs
  have hbrackets := hends.brackets hsort hlr hex (.of_forall hapart)
  rw [← hresult] at hbrackets
  exact ⟨L, R, hs, hbrackets⟩

/-- Two functions at `0xf0100000` and `0xf0100040` with a line entry in between. -/
def twoFunctions : List Stab :=
  [⟨1, 0x24, 0, 0xf0100000⟩, ⟨0, 0x44, 7, 0⟩, ⟨9, 0x24, 0, 0xf0100040⟩]

theorem twoFunctions_brackets_iff :
    (∃ L R, stabBinsearch twoFunctions 0 2 nFun 0xf0100010 = .ok (L, R) ∧
        Brackets (HasType twoFunctions nFun) (valueAt twoFunctions) 0 2 0xf0100010 L R) ↔
      Clean (HasType twoFunctions nFun) (valueAt twoFunctions) 0 2 0xf0100010 :=
  stabBinsearch_brackets_iff (by decide) (by decide) (by decide)
    ⟨0, by decide, by decide, by decide, by decide⟩

/-- A one-byte function at `0xf0100000` and the next one at `0xf0100001`. -/
def adjacentFunctions : List Stab := [⟨1, 0x24, 0, 0xf0100000⟩, ⟨9, 0x24, 0, 0xf0100001⟩]

/-- The search for `0xf0100000` runs on to the function at the next address. -/
theorem adjacentFunctions_not_brackets :
    stabBinsearch adjacentFunctions 0 1 nFun 0xf0100000 = .ok (1, 1) ∧
      Sorted (HasType adjacentFunctions nFun) (valueAt adjacentFunctions) 0 1 ∧
      HasType adjacentFunctions nFun 0 ∧ valueAt adjacentFunctions 0 ≤ 0xf0100000 ∧
      ¬ ∃ L R, stabBinsearch adjacentFunctions 0 1 nFun 0xf0100000 = .ok (L, R) ∧
        Brackets (HasType adjacentFunctions nFun)
          (valueAt adjacentFunctions) 0 1 0xf0100000 L R := by
  have hrun : stabBinsearch adjacentFunctions 0 1 nFun 0xf0100000 = .ok (1, 1) := by
    decide +kernel
  refine ⟨hrun, by decide, by decide, by decide, ?_⟩
  rintro ⟨L, R, heq, hb⟩
  rw [hrun] at heq
  cases heq
  exact absurd hb.last.holds.2 (by decide)

end JosKernel.Kdebug
