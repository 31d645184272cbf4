import W16.StringSearch

/-!
# The table of good suffixes
-/
namespace W16.StringSearches

open Borders List

set_option linter.dupNamespace false

variable {pattern : List Nat} {start : Nat} {p : Populating}

/-- The pattern as a sequence. -/
abbrev chars (pattern : List Nat) (i : Nat) : Nat := pattern.getD i 0

/-- An entry of the table of shifts, and one of the table of suffixes. -/
abbrev Populating.shiftAt (p : Populating) (start k : Nat) : Int := p.shiftTable.getD (k - start) 0
abbrev Populating.suffixAt (p : Populating) (start k : Nat) : Nat := p.suffixTable.getD (k - start) 0

/-- The suffixes from `p.i` on have been found. -/
structure Suffixes (pattern : List Nat) (start : Nat) (p : Populating) : Prop where
  start_le : start ≤ p.i
  le_length : p.i ≤ pattern.length
  shift_size : pattern.length - start < p.shiftTable.length
  suffix_size : pattern.length - start < p.suffixTable.length
  table : ∀ k, p.i ≤ k → k ≤ pattern.length → Next (chars pattern) pattern.length k (p.suffixAt start k)
  shift : ∀ k, start < k → k < pattern.length → 1 ≤ p.shiftAt start k ∧
    (p.shiftAt start k = (pattern.length : Int) - start ∨ p.shiftAt start k + p.i ≤ k)
  found : ∀ j m, p.i ≤ j → m + 1 < pattern.length →
    Border (chars pattern) pattern.length (j + 1) (m + 1) → chars pattern j ≠ chars pattern m →
    p.shiftAt start (m + 1) + j ≤ m

/-- The loop has left the suffixes that `c` does not extend. -/
structure Falling (pattern : List Nat) (start c : Nat) (p : Populating) : Prop
    extends Suffixes pattern start p where
  lt : p.i < p.suffix
  le : p.suffix ≤ pattern.length + 1
  border : p.suffix ≤ pattern.length → Border (chars pattern) pattern.length p.i p.suffix
  passed : ∀ m, p.i ≤ m → Border (chars pattern) pattern.length p.i (m + 1) → m + 1 < p.suffix →
    chars pattern m ≠ c ∧ (m + 1 < pattern.length → p.shiftAt start (m + 1) + p.i ≤ m + 1)

theorem Suffixes.falling (h : Suffixes pattern start p)
    (hnext : Next (chars pattern) pattern.length p.i p.suffix) (c : Nat) :
    Falling pattern start c p := by
  refine ⟨h, hnext.lt, hnext.le, hnext.border, fun m hm hb hlt => ?_⟩
  have := hnext.least (m + 1) (Nat.lt_succ_of_le hm) hb
  omega

theorem length_setShift (t : List Int) (k : Nat) (v : Int) :
    (setShift pattern start t k v).length = t.length := by
  rw [setShift]
  split
  · exact length_set
  · rfl

theorem setShift_at (t : List Int) {k m : Nat} (v : Int) (hk : start ≤ k) (hm : start ≤ m)
    (hsize : k - start < t.length) :
    (setShift pattern start t k v).getD (m - start) 0 =
      if m = k ∧ t.getD (m - start) 0 = (pattern.length : Int) - start then v
      else t.getD (m - start) 0 := by
  rw [setShift]
  by_cases hunset : t.getD (k - start) 0 = (pattern.length : Int) - start
  · rw [if_pos hunset, getD_set _ _ _ _ _ hsize]
    grind
  grind

/-- A suffix that `c` does not extend. -/
theorem Falling.mismatch {c : Nat} (h : Falling pattern start c p) (hle : p.suffix ≤ pattern.length)
    (hc : c ≠ chars pattern (p.suffix - 1)) :
    Falling pattern start c { p with
        shiftTable := setShift pattern start p.shiftTable p.suffix ((p.suffix : Int) - p.i)
        suffix := p.suffixAt start p.suffix } := by
  have hlt := h.lt
  have hstart := h.start_le
  have hnext := h.table p.suffix (Nat.le_of_lt hlt) hle
  have hset : ∀ m, start ≤ m → _ := fun m hm =>
    @setShift_at pattern start p.shiftTable p.suffix m ((p.suffix : Int) - p.i) (by omega) hm
      (by have := h.shift_size; omega)
  refine ⟨⟨hstart, h.le_length, ?_, h.suffix_size, h.table, fun k hk hkl => ?_,
    fun j m hj hm hb hne => ?_⟩, Nat.lt_trans hlt hnext.lt, hnext.le,
    fun hf => (h.border hle).trans (hnext.border hf), fun m hm hb hmf => ?_⟩
  · rw [length_setShift]
    exact h.shift_size
  · have := h.shift k hk hkl
    grind
  · have hj : p.i ≤ j := hj
    have := h.found j m hj hm hb hne
    simp only [Populating.shiftAt, hset (m + 1) (by have := hb.le; omega)]
    grind
  · have hm : p.i ≤ m := hm
    show _ ∧ (_ → (setShift _ _ _ _ _).getD _ _ + (p.i : Int) ≤ _)
    rw [hset (m + 1) (by omega)]
    rcases Nat.lt_trichotomy (m + 1) p.suffix with hlt' | heq | hgt
    · rw [if_neg (fun hh => Nat.ne_of_lt hlt' hh.1)]
      exact h.passed m hm hb hlt'
    · refine ⟨fun hmc => hc ?_, fun hml => ?_⟩
      · rw [← heq, Nat.add_sub_cancel, hmc]
      · have := h.shift (m + 1) (by omega) hml
        grind
    · have := hnext.least (m + 1) hgt ((h.border hle).between hb (Nat.le_of_lt hgt))
      exact absurd hmf (Nat.not_lt.2 this)

/-- A suffix that `c` extends, or no suffix. -/
theorem Falling.finish (h : Falling pattern start (chars pattern (p.i - 1)) p) (hi : start < p.i)
    (hc : p.suffix ≤ pattern.length → chars pattern (p.i - 1) = chars pattern (p.suffix - 1)) :
    Suffixes pattern start (stepBack start p) ∧
      Next (chars pattern) pattern.length (stepBack start p).i (stepBack start p).suffix := by
  obtain ⟨i, hi'⟩ : ∃ i, p.i = i + 1 := ⟨p.i - 1, by omega⟩
  obtain ⟨f, hf⟩ : ∃ f, p.suffix = f + 1 := ⟨p.suffix - 1, by have := h.lt; omega⟩
  have hlt := h.lt
  have hle := h.le
  have hlen := h.le_length
  rw [hf] at hle
  simp only [hi', hf, Nat.add_sub_cancel] at hc
  have hnext : Next (chars pattern) pattern.length i f := by
    refine ⟨by omega, by omega, fun hfl => ?_, fun k hk hb => ?_⟩
    · rcases Nat.lt_or_ge f pattern.length with hfl | hfl
      · have := h.border (by omega)
        rw [hi', hf] at this
        exact border_of_succ this (hc hfl).symm
      · rw [Nat.le_antisymm (Nat.le_of_succ_le_succ hle) hfl]
        exact border_len (by omega)
    · rcases Nat.eq_or_lt_of_le hb.le_len with rfl | hkl
      · omega
      · obtain ⟨hb', heq⟩ := hb.succ hkl
        by_contra hkf
        refine (h.passed k (by omega) (by rw [hi']; exact hb') (by omega)).1 ?_
        rw [hi', Nat.add_sub_cancel]
        exact heq
  have hset : ∀ k, (p.suffixTable.set (i - start) f).getD (k - start) 0 = _ := fun k =>
    getD_set p.suffixTable (i - start) (k - start) f 0 (by have := h.suffix_size; omega)
  have hstep : stepBack start p =
      { p with i := i, suffix := f, suffixTable := p.suffixTable.set (i - start) f } := by
    rw [stepBack, hi', hf, Nat.add_sub_cancel, Nat.add_sub_cancel]
  rw [hstep]
  refine ⟨⟨by show start ≤ i; omega, by show i ≤ _; omega, h.shift_size, ?_, fun k hk hkl => ?_, fun k hk hkl => ?_,
    fun j m hj hm hb hne => ?_⟩, hnext⟩
  · rw [length_set]
    exact h.suffix_size
  · have hk : i ≤ k := hk
    simp only [Populating.suffixAt, hset]
    rcases Nat.eq_or_lt_of_le hk with rfl | hk
    · rw [if_pos rfl]
      exact hnext
    · rw [if_neg (by omega)]
      exact h.table k (by omega) hkl
  · have := h.shift k hk hkl
    grind
  · have hj : i ≤ j := hj
    rcases Nat.eq_or_lt_of_le hj with rfl | hj
    · -- the suffixes before which another character than that at `i` stands
      have him : i ≤ m := Nat.le_of_succ_le_succ hb.le
      have hne' : i ≠ m := fun heq => hne (by rw [heq])
      rcases Nat.lt_or_ge m f with hmf | hmf
      · have := (h.passed m (by omega) (by rw [hi']; exact hb) (by omega)).2 hm
        grind
      · have hcf := hc (by omega)
        have hborder := h.border (by omega)
        rw [hi', hf] at hborder
        have := h.found f m (by omega) hm (hborder.between hb (by omega)) (by rw [← hcf]; exact hne)
        grind
    · exact h.found j m (by omega) hm hb hne

/-- All that one iteration of a loop keeps. -/
def Found (pattern : List Nat) (start : Nat) (p : Populating) : Prop :=
  Suffixes pattern start p ∧ Next (chars pattern) pattern.length p.i p.suffix

theorem fallBack_spec {c : Nat} (h : Falling pattern start c p) (fuel : Nat)
    (hfuel : pattern.length + 2 ≤ fuel + p.suffix) :
    ∃ p', fallBack pattern start c fuel p = some p' ∧ Falling pattern start c p' ∧ p'.i = p.i ∧
      (p'.suffix ≤ pattern.length → c = chars pattern (p'.suffix - 1)) := by
  induction fuel generalizing p with
  | zero =>
    have := h.le
    omega
  | succ fuel ih =>
    rw [fallBack]
    split
    · next hgo =>
      have hnext := h.table p.suffix (Nat.le_of_lt h.lt) hgo.1
      obtain ⟨p', hrun, hfall, hi, hc⟩ := ih (h.mismatch hgo.1 hgo.2) (by
        have := hnext.lt
        show _ ≤ fuel + p.suffixAt start p.suffix
        omega)
      exact ⟨p', hrun, hfall, hi, hc⟩
    grind

/-- One iteration of the outer loop up to the test for an empty suffix. -/
theorem fallBack_stepBack (h : Found pattern start p) (hi : start < p.i) (fuel : Nat)
    (hfuel : pattern.length + 1 ≤ fuel) :
    ∃ p', fallBack pattern start (chars pattern (p.i - 1)) fuel p = some p' ∧
      Found pattern start (stepBack start p') ∧ (stepBack start p').i = p.i - 1 := by
  have hlt := h.2.lt
  obtain ⟨p', hrun, hfall, hpi, hc⟩ := fallBack_spec (h.1.falling h.2 (chars pattern (p.i - 1))) fuel (by omega)
  have hi' : start < p'.i := by omega
  rw [← hpi] at hfall hc
  exact ⟨p', hrun, hfall.finish hi' hc, by rw [stepBack, hpi]⟩

theorem skipOthers_spec (h : Found pattern start p) (hempty : p.suffix = pattern.length)
    (fuel : Nat) (hfuel : p.i < fuel + start) :
    ∃ p', skipOthers pattern start (chars pattern (pattern.length - 1)) fuel p = some p' ∧
      Found pattern start p' ∧ p'.suffix = pattern.length ∧ p'.i ≤ p.i ∧
      (start < p'.i → chars pattern (p'.i - 1) = chars pattern (pattern.length - 1)) := by
  induction fuel generalizing p with
  | zero =>
    have := h.1.start_le
    omega
  | succ fuel ih =>
    rw [skipOthers]
    split
    · next hgo =>
      obtain ⟨hi, hne⟩ := hgo
      -- the empty suffix is left, and there is no other one
      have hfall := (h.1.falling h.2 (chars pattern (p.i - 1))).mismatch (Nat.le_of_eq hempty)
        (by rw [hempty]; exact hne)
      have hnext := h.1.table pattern.length h.1.le_length (Nat.le_refl _)
      have hnone : p.suffixAt start p.suffix = pattern.length + 1 := by
        rw [hempty]
        have := hnext.lt
        have := hnext.le
        omega
      have hstep := @Falling.finish pattern start { p with
          shiftTable := setShift pattern start p.shiftTable p.suffix ((p.suffix : Int) - p.i)
          suffix := p.suffixAt start p.suffix } hfall hi (fun hle => by
        have hle : p.suffixAt start p.suffix ≤ pattern.length := hle
        omega)
      have heq : stepBack start { p with
            shiftTable := setShift pattern start p.shiftTable p.suffix ((p.suffix : Int) - p.i)
            suffix := p.suffixAt start p.suffix } =
          { p with
            shiftTable := setShift pattern start p.shiftTable pattern.length ((pattern.length : Int) - p.i)
            i := p.i - 1
            suffixTable := p.suffixTable.set (p.i - 1 - start) pattern.length } := by
        rw [stepBack]
        simp only [hnone, Nat.add_sub_cancel]
        rw [hempty]
      rw [heq] at hstep
      obtain ⟨p', hrun, hfound, hsuffix, hle, hlast⟩ := ih hstep hempty (by
        show p.i - 1 < fuel + start
        omega)
      grind
    grind

theorem findSuffixes_spec (h : Found pattern start p) (fuel : Nat)
    (hfuel : pattern.length + p.i + 1 ≤ fuel + start) :
    ∃ p', findSuffixes pattern start fuel p = some p' ∧ Found pattern start p' ∧ p'.i = start := by
  induction fuel generalizing p with
  | zero =>
    have := h.1.start_le
    omega
  | succ fuel ih =>
    rw [findSuffixes]
    split
    · next hi =>
      obtain ⟨p₁, hfall, hfound, hp₁⟩ := fallBack_stepBack h hi (fuel + 1) (by omega)
      have hfall' := hfall
      rw [hfall', Option.bind_some]
      simp only
      split
      · next hempty =>
        obtain ⟨p₂, hskip, hfound₂, hsuffix, hle₂, hlast⟩ :=
          skipOthers_spec hfound hempty (fuel + 1) (by omega)
        have hskip' := hskip
        rw [hskip', Option.bind_some]
        split
        · next hmore =>
          have hstep := (hfound₂.1.falling hfound₂.2 _).finish hmore fun _ => by
            rw [hsuffix]
            exact hlast hmore
          exact ih hstep (by
            show pattern.length + (p₂.i - 1) + 1 ≤ fuel + start
            omega)
        · exact ih hfound₂ (by omega)
      · exact ih hfound (by omega)
    · next hi => exact ⟨p, rfl, h, Nat.le_antisymm (Nat.le_of_not_lt hi) h.1.start_le⟩

/-! ## Shifts -/

/-- A shift is not more than any that leaves the part of the pattern from `start` on in agreement
with what has been compared. -/
structure GoodShifts (pattern : List Nat) (start : Nat) (shiftTable : List Int) : Prop where
  pos : ∀ k, start < k → k < pattern.length → 1 ≤ shiftTable.getD (k - start) 0
  inside : ∀ j m, start ≤ j → m + 1 < pattern.length →
    Border (chars pattern) pattern.length (j + 1) (m + 1) → chars pattern j ≠ chars pattern m →
    shiftTable.getD (m + 1 - start) 0 + j ≤ m
  whole : ∀ k f, start < k → k < pattern.length → k ≤ f →
    Border (chars pattern) pattern.length start f → shiftTable.getD (k - start) 0 + start ≤ f

/-- The loop that uses the suffixes of the whole pattern, after the places below `k`. -/
structure Using (pattern : List Nat) (start : Nat) (before : Populating) (k : Nat) (p : Populating) : Prop where
  suffixTable : p.suffixTable = before.suffixTable
  size : p.shiftTable.length = before.shiftTable.length
  lt : start < p.suffix
  ge : k ≤ p.suffix
  border : p.suffix ≤ pattern.length → Border (chars pattern) pattern.length start p.suffix
  least : ∀ f, start < f → k ≤ f → Border (chars pattern) pattern.length start f → p.suffix ≤ f
  pos : ∀ m, start < m → m < pattern.length → 1 ≤ p.shiftAt start m
  le : ∀ m, start < m → m < pattern.length → p.shiftAt start m ≤ before.shiftAt start m
  later : ∀ m, start < m → k ≤ m → m < pattern.length → p.shiftAt start m = before.shiftAt start m
  done : ∀ m f, start < m → m < pattern.length → m < k → m ≤ f →
    Border (chars pattern) pattern.length start f → p.shiftAt start m + start ≤ f

theorem Using.next {before : Populating} {k : Nat} (hbefore : Found pattern start before)
    (hi : before.i = start) (hk : start ≤ k) (hkl : k ≤ pattern.length)
    (h : Using pattern start before k p) :
    Using pattern start before (k + 1) { p with
        shiftTable := setShift pattern start p.shiftTable k ((p.suffix : Int) - start)
        suffix := if k = p.suffix then p.suffixTable.getD (p.suffix - start) 0 else p.suffix } := by
  have hset : ∀ m, start ≤ m → _ := fun m hm =>
    @setShift_at pattern start p.shiftTable k m ((p.suffix : Int) - start) hk hm (by
      have := hbefore.1.shift_size
      rw [h.size]
      omega)
  have hlt := h.lt
  have hge := h.ge
  -- the next suffix of the whole pattern
  have hnext : k = p.suffix → Next (chars pattern) pattern.length k
      (p.suffixTable.getD (p.suffix - start) 0) := by
    intro heq
    have := hbefore.1.table p.suffix (by omega) (by omega)
    rw [Populating.suffixAt, ← h.suffixTable] at this
    rw [heq]
    exact this
  -- what the entry at `k` becomes
  have hentry : start < k → k < pattern.length → p.shiftAt start k = (pattern.length : Int) - start →
      1 ≤ (p.suffix : Int) - start ∧ (p.suffix : Int) - start ≤ before.shiftAt start k := by
    intro hsk hkl' hunset
    rw [← h.later k hsk (Nat.le_refl _) hkl', hunset]
    have := h.least pattern.length (by omega) hkl (border_len (by omega))
    omega
  refine ⟨h.suffixTable, by rw [length_setShift]; exact h.size, ?_, ?_, ?_, ?_, ?_, ?_, ?_, ?_⟩
  · show start < if _ then _ else _
    split
    · next heq =>
      have := (hnext heq).lt
      omega
    · exact hlt
  · show k + 1 ≤ if _ then _ else _
    split
    · next heq => exact (hnext heq).lt
    · omega
  · split
    · next heq =>
      intro hle
      have hb := h.border (by omega)
      rw [← heq] at hb
      exact hb.trans ((hnext heq).border hle)
    · exact h.border
  · intro f hf hkf hb
    split
    · next heq =>
      have hb' := h.border (by omega)
      rw [← heq] at hb'
      exact (hnext heq).least f (by omega) (hb'.between hb (by omega))
    · exact h.least f hf (by omega) hb
  · intro m hm hml
    show 1 ≤ (setShift _ _ _ _ _).getD _ _
    rw [hset m (by omega)]
    split
    · omega
    · exact h.pos m hm hml
  · intro m hm hml
    show (setShift _ _ _ _ _).getD _ _ ≤ _
    rw [hset m (by omega)]
    split
    · grind
    · exact h.le m hm hml
  · intro m hm hkm hml
    show (setShift _ _ _ _ _).getD _ _ = _
    rw [hset m (by omega), if_neg (fun heq => by omega)]
    exact h.later m hm (by omega) hml
  · intro m f hm hml hmk hmf hb
    show (setShift _ _ _ _ _).getD _ _ + _ ≤ _
    rw [hset m (by omega)]
    split
    · next heq =>
      have := h.least f (by omega) (by omega) hb
      omega
    · next hother =>
      rcases Nat.lt_or_ge m k with hlt' | hge'
      · exact h.done m f hm hml hlt' hmf hb
      · have hmk' : m = k := by omega
        have hlater := h.later m hm hge' hml
        have hshift := (hbefore.1.shift m hm hml).2
        grind

theorem useSuffixes_spec {before : Populating} (hbefore : Found pattern start before)
    (hi : before.i = start) (n : Nat) (hn : start + n ≤ pattern.length + 1) :
    Using pattern start before (start + n) ((range' start n).foldl (fun p i =>
        { p with
          shiftTable := setShift pattern start p.shiftTable i ((p.suffix : Int) - start)
          suffix := if i = p.suffix then p.suffixTable.getD (p.suffix - start) 0 else p.suffix })
        before) := by
  induction n with
  | zero =>
    have hnext := hbefore.2
    rw [hi] at hnext
    refine ⟨rfl, rfl, hnext.lt, Nat.le_of_lt hnext.lt, hnext.border, fun f hf _ hb => hnext.least f hf hb,
      fun m hm hml => (hbefore.1.shift m hm hml).1, fun _ _ _ => Int.le_refl _, fun _ _ _ _ => rfl,
      fun m f hm _ hmk => by omega⟩
  | succ n ih =>
    rw [range'_concat, Nat.one_mul, foldl_append]
    exact @Using.next pattern start _ before (start + n) hbefore hi (by omega) (by omega) (ih (by omega))

theorem goodShifts_of_found (h : Found pattern start p) (hi : p.i = start) : GoodShifts pattern start
      (if p.suffix < pattern.length then useSuffixes pattern start p else p).shiftTable := by
  have hnext := h.2
  rw [hi] at hnext
  have hstart := h.1.le_length
  have hin : ∀ j m, start ≤ j → m + 1 < pattern.length → _ → _ → _ := fun j m hj =>
    h.1.found j m (by omega)
  split
  · have huse := useSuffixes_spec h hi (pattern.length + 1 - start) (by omega)
    refine ⟨huse.pos, fun j m hj hm hb hne => ?_, fun k f hk hkl hkf hb => ?_⟩
    · have h₁ := hin j m hj hm hb hne
      have h₂ := huse.le (m + 1) (by have := hb.le; omega) hm
      simp only [Populating.shiftAt] at h₁ h₂
      rw [useSuffixes]
      omega
    · exact huse.done k f hk hkl (by omega) hkf hb
  · next hlarge =>
    refine ⟨fun k hk hkl => (h.1.shift k hk hkl).1, hin, fun k f hk hkl hkf hb => ?_⟩
    have h₁ := (h.1.shift k hk hkl).2
    have h₂ := hnext.least f (by omega) hb
    simp only [Populating.shiftAt] at h₁
    omega

theorem getD_replicate {α : Type} (n k : Nat) (v d : α) (rest : List α) (hk : k < n) :
    (replicate n v ++ rest).getD k d = v := by
  grind

/-- The table of good suffixes is right for every pattern. -/
theorem populateBoyerMooreTable_spec {s : StringSearch} (hsized : s.tables.Sized)
    (hstart : s.start = s.pattern.length - kBMMaxShift) (fuel : Nat)
    (hfuel : s.pattern.length + s.pattern.length + 1 ≤ fuel) :
    ∃ s', populateBoyerMooreTable fuel s = some s' ∧ s'.pattern = s.pattern ∧ s'.start = s.start ∧
      s'.tables.badChar = s.tables.badChar ∧
      GoodShifts s.pattern s.start s'.tables.goodSuffixShift := by
  have hcov : s.pattern.length - s.start < kBMMaxShift + 1 := by omega
  have hle : s.start ≤ s.pattern.length := by omega
  have hlen : (replicate (s.pattern.length - s.start) ((s.pattern.length - s.start : Nat) : Int) ++
        s.tables.goodSuffixShift.drop (s.pattern.length - s.start)).length = kBMMaxShift + 1 := by
    rw [length_append, length_replicate, length_drop, hsized.goodSuffixShift]
    omega
  have hinit : Found s.pattern s.start ⟨s.pattern.length, s.pattern.length + 1,
      (replicate (s.pattern.length - s.start) ((s.pattern.length - s.start : Nat) : Int) ++
        s.tables.goodSuffixShift.drop (s.pattern.length - s.start)).set (s.pattern.length - s.start) 1,
      s.tables.suffix.set (s.pattern.length - s.start) (s.pattern.length + 1)⟩ := by
    refine ⟨⟨hle, Nat.le_refl _, ?_, ?_, fun k hk hkl => ?_, fun k hk hkl => ?_,
      fun j m hj hm hb _ => ?_⟩, next_len⟩
    · grind
    · rw [length_set, hsized.suffix]
      exact hcov
    · obtain rfl := Nat.le_antisymm hkl hk
      rw [Populating.suffixAt, getD_set _ _ _ _ _ (by rw [hsized.suffix]; exact hcov), if_pos rfl]
      exact next_len
    · rw [Populating.shiftAt, getD_set _ _ _ _ _ (by rw [hlen]; exact hcov),
        if_neg (by omega), getD_replicate _ _ _ _ _ (by omega)]
      omega
    · have := hb.le
      have hj : s.pattern.length ≤ j := hj
      omega
  obtain ⟨p, hrun, hfound, hi⟩ := findSuffixes_spec hinit fuel (by
    grind)
  have hpopulate : populateBoyerMooreTable fuel s = some { s with tables :=
      { s.tables with
        goodSuffixShift :=
          (if p.suffix < s.pattern.length then useSuffixes s.pattern s.start p else p).shiftTable
        suffix :=
          (if p.suffix < s.pattern.length then useSuffixes s.pattern s.start p else p).suffixTable } } := by
    rw [populateBoyerMooreTable]
    simp only [hrun, Option.map_some]
  exact ⟨_, hpopulate, rfl, rfl, rfl, goodShifts_of_found hfound hi⟩

end W16.StringSearches
