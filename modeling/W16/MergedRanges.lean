import W16.CanonicalRanges

/-!
# Merged sets of characters

`Merge` sweeps over two canonical lists and puts each character in the output for the inputs that
cover it. Outputs may be `NULL` or shared, except that an empty input is copied to its output
without a check for `NULL`.
-/
namespace W16.CharacterRanges

open List

variable {list first second : List CharacterRange} {range : CharacterRange} {c : Nat}
variable {out : Outputs} {sets : Sets}

section AddRange

/-- A range behind the list is added to it, or continues the last range. -/
theorem addRange_spec (hlist : Canonical list) (hrange : range.Valid)
    (hbefore : ∀ r ∈ list, r.to_ < range.from_) :
    Canonical (addRange list range) ∧ (∀ r ∈ addRange list range, r.to_ ≤ range.to_) ∧
      ∀ c, Covered (addRange list range) c ↔ Covered list c ∨ range.from_ ≤ c ∧ c ≤ range.to_ := by
  have hone : Canonical [range] := canonical_cons.2 ⟨hrange, by simp, canonical_nil⟩
  rcases eq_nil_or_concat' list with rfl | ⟨init, last, rfl⟩
  · simp [addRange, hone]
  · have hinit := canonical_append.1 hlist
    have hlast := (canonical_cons.1 hinit.2.1).1
    have hlastBefore := hbefore last (by simp)
    by_cases hadjacent : (last.to_ : Int) = range.from_ - 1
    · have hsame : addRange (init ++ [last]) range = init ++ [⟨last.from_, range.to_⟩] := by
        simp [addRange, hadjacent]
      have hle := hlast.1
      have hrange' := hrange.1
      rw [hsame]
      refine ⟨canonical_append.2 ⟨hinit.1, canonical_cons.2 ⟨⟨by simp; omega, hrange.2⟩, by simp,
        canonical_nil⟩, fun a ha b hb => ?_⟩, fun r hr => ?_, fun c => ?_⟩
      · simp_all
      · grind
      · simp only [covered_append, covered_cons, not_covered_nil, or_false, or_assoc]
        apply or_congr_right
        omega
    · have hsame : addRange (init ++ [last]) range = init ++ [last] ++ [range] := by
        simp [addRange, hadjacent]
      rw [hsame]
      refine ⟨canonical_append.2 ⟨hlist, hone, fun a ha b hb => ?_⟩, fun r hr => ?_, fun c => ?_⟩
      · obtain rfl := mem_singleton.1 hb
        rcases mem_append.1 ha with ha | ha
        · have := hinit.2.2 a ha last (by simp)
          have := hlast.1
          omega
        grind
      · rcases mem_append.1 hr with hr | hr
        · have := hbefore r hr
          have := hrange.1
          omega
        grind
      · simp only [covered_append, covered_cons, not_covered_nil, or_false]

theorem mk'_eq {a b : Int} (ha : 0 ≤ a) (hab : a ≤ b) (hb : b ≤ kMaxUC16CharCode) :
    CharacterRange.mk' a b = ⟨a.toNat, b.toNat⟩ := by
  grind [kMaxUC16CharCode, CharacterRange.mk', uc16]

end AddRange

section Emitted

/-- The inputs that cover a character, as bits. -/
structure Inside (inputs : Nat → List CharacterRange) (c selector : Nat) : Prop where
  first : Covered (inputs kInsideFirst) c ↔ selector = kInsideFirst ∨ selector = kInsideBoth
  second : Covered (inputs kInsideSecond) c ↔ selector = kInsideSecond ∨ selector = kInsideBoth

variable {inputs : Nat → List CharacterRange} {initial : Sets}

theorem Inside.unique {selector selector' : Nat} (h : Inside inputs c selector)
    (h' : Inside inputs c selector') (hle : selector ≤ kInsideBoth) (hle' : selector' ≤ kInsideBoth) :
    selector = selector' := by
  have hfirst := h.first.symm.trans h'.first
  have hsnd := h.second.symm.trans h'.second
  simp only [kInsideFirst, kInsideSecond, kInsideBoth] at *
  omega

theorem select_bounds {selector p : Nat} (h : out.select selector = some p) :
    1 ≤ selector ∧ selector ≤ kInsideBoth := by
  by_contra hout
  simp only [kInsideBoth] at hout
  rw [Outputs.select, kInsideFirst, kInsideSecond, kInsideBoth, if_neg (by omega),
    if_neg (by omega), if_neg (by omega)] at h
  simp at h

/-- The outputs have the characters below the bound, and no other list has changed. -/
structure Emitted (inputs : Nat → List CharacterRange) (out : Outputs) (initial sets : Sets)
    (bound : Nat) : Prop where
  canonical : ∀ selector p, out.select selector = some p → Canonical (sets p)
  below : ∀ selector p, out.select selector = some p → ∀ r ∈ sets p, r.to_ < bound
  covered : ∀ selector p, out.select selector = some p → ∀ c, Covered (sets p) c ↔
    c < bound ∧ ∃ selector', out.select selector' = some p ∧ Inside inputs c selector'
  others : ∀ p, (∀ selector, out.select selector ≠ some p) → sets p = initial p

/-- No input covers a character up to the next bound. -/
theorem Emitted.skip {bound bound' : Nat} (h : Emitted inputs out initial sets bound)
    (hle : bound ≤ bound') (hnone : ∀ c, bound ≤ c → c < bound' → Inside inputs c kInsideNone) :
    Emitted inputs out initial sets bound' := by
  refine ⟨h.canonical, fun σ p hp r hr => ?_, fun σ p hp c => ?_, h.others⟩
  · have := h.below σ p hp r hr
    omega
  · rw [h.covered σ p hp c]
    constructor
    · intro hc
      exact ⟨by omega, hc.2⟩
    · rintro ⟨hc, σ', hσ', hin⟩
      refine ⟨?_, σ', hσ', hin⟩
      by_contra hbound
      have hbds := select_bounds hσ'
      have := hin.unique (hnone c (by omega) hc) hbds.2 (by decide)
      simp only [kInsideNone] at this
      omega

/-- All characters from the bound to the next one come from the same inputs. -/
theorem Emitted.emit {selector from_ to_ : Nat} (h : Emitted inputs out initial sets from_)
    (hrange : from_ ≤ to_) (hto : to_ ≤ kMaxUC16CharCode) (hselector : selector ≤ kInsideBoth)
    (hin : ∀ c, from_ ≤ c → c ≤ to_ → Inside inputs c selector) :
    Emitted inputs out initial (addRangeToSelectedSet out sets selector ⟨from_, to_⟩) (to_ + 1) := by
  have hspec : ∀ σ p, out.select σ = some p → Canonical (addRange (sets p) ⟨from_, to_⟩) ∧
      (∀ r ∈ addRange (sets p) ⟨from_, to_⟩, r.to_ ≤ to_) ∧
      ∀ c, Covered (addRange (sets p) ⟨from_, to_⟩) c ↔ Covered (sets p) c ∨ from_ ≤ c ∧ c ≤ to_ :=
    fun σ p hp => addRange_spec (h.canonical σ p hp) ⟨hrange, hto⟩ (h.below σ p hp)
  have hsets : ∀ p, addRangeToSelectedSet out sets selector ⟨from_, to_⟩ p =
      if out.select selector = some p then addRange (sets p) ⟨from_, to_⟩ else sets p := by
    intro p
    cases hsel : out.select selector with
    | none => simp [addRangeToSelectedSet, addRangeToSet, hsel]
    | some q =>
      by_cases hpq : p = q
      · simp [addRangeToSelectedSet, addRangeToSet, hsel, hpq]
      · simp [addRangeToSelectedSet, addRangeToSet, hsel, hpq, Ne.symm hpq]
  refine ⟨fun σ p hp => ?_, fun σ p hp => ?_, fun σ p hp c => ?_, fun p hp => ?_⟩
  · rw [hsets]
    by_cases hsel : out.select selector = some p
    · simpa [hsel] using (hspec σ p hp).1
    · simpa [hsel] using h.canonical σ p hp
  · rw [hsets]
    intro r hr
    by_cases hsel : out.select selector = some p
    · grind
    · rw [if_neg hsel] at hr
      have := h.below σ p hp r hr
      omega
  · rw [hsets]
    by_cases hsel : out.select selector = some p
    · rw [if_pos hsel, (hspec σ p hp).2.2 c, h.covered σ p hp c]
      grind
    · rw [if_neg hsel, h.covered σ p hp c]
      constructor
      · intro hc
        exact ⟨by omega, hc.2⟩
      · rintro ⟨hc, σ', hσ', hin'⟩
        refine ⟨?_, σ', hσ', hin'⟩
        by_contra hlt
        have hsame := hin'.unique (hin c (by omega) (by omega)) (select_bounds hσ').2 hselector
        rw [hsame] at hσ'
        exact hsel hσ'
  · rw [hsets, if_neg (hp selector), h.others p hp]

end Emitted

section Sweep

/-- What is left of the first or of the second input. -/
def Sweep.rest (s : Sweep) (source : Nat) : List CharacterRange :=
  if source = kInsideFirst then s.first else s.second

/-- The input that a range does not come from. -/
def otherSource (source : Nat) : Nat := if source = kInsideFirst then kInsideSecond else kInsideFirst

def IsSource (source : Nat) : Prop := source = kInsideFirst ∨ source = kInsideSecond

theorem IsSource.other {source : Nat} (h : IsSource source) : IsSource (otherSource source) := by
  grind [IsSource, otherSource]

/-- A range is taken from an input, and begins no later than any range that is left. -/
structure Taken (s s' : Sweep) (range : CharacterRange) (source : Nat) : Prop where
  isSource : IsSource source
  rest : s.rest source = range :: s'.rest source
  other : s.rest (otherSource source) = s'.rest (otherSource source)
  later : ∀ r ∈ s'.rest (otherSource source), range.from_ ≤ r.from_
  from_ : s'.from_ = s.from_
  to_ : s'.to_ = s.to_
  state : s'.state = s.state
  sets : s'.sets = s.sets

variable {s : Sweep}

theorem Sweep.next_spec {s' : Sweep} {source : Nat} (h : s.next = some (range, source, s'))
    (hcanon : ∀ t, IsSource t → Canonical (s.rest t)) : Taken s s' range source := by
  obtain ⟨first, second, from_, to_, state, sets⟩ := s
  have hsnd := hcanon kInsideSecond (Or.inr rfl)
  -- a range of a list that begins no earlier than the range
  have hlater : ∀ {r r' : CharacterRange} {rest : List CharacterRange}, r.from_ ≤ r'.from_ →
      Canonical (r' :: rest) → ∀ x ∈ r' :: rest, r.from_ ≤ x.from_ := by
    intro r r' rest hle hcanon x hx
    rcases mem_cons.1 hx with rfl | hx
    · exact hle
    · have := (canonical_cons.1 hcanon).2.1 x hx
      have := (canonical_cons.1 hcanon).1.1
      omega
  match first, second with
  | [], [] => simp [Sweep.next] at h
  | r :: first, [] =>
    obtain ⟨rfl, rfl, rfl⟩ := h
    constructor <;> simp [Sweep.rest, otherSource, IsSource, kInsideFirst, kInsideSecond]
  | [], r :: second =>
    obtain ⟨rfl, rfl, rfl⟩ := h
    constructor <;> simp [Sweep.rest, otherSource, IsSource, kInsideFirst, kInsideSecond]
  | r :: first, r' :: second =>
    have hfirst := hcanon kInsideFirst (Or.inl rfl)
    by_cases hlt : r.from_ < r'.from_
    · simp only [Sweep.next, hlt, if_true, Option.some.injEq, Prod.mk.injEq] at h
      obtain ⟨rfl, rfl, rfl⟩ := h
      have hlater := hlater (Nat.le_of_lt hlt) hsnd
      constructor <;> try simp [Sweep.rest, otherSource, IsSource, kInsideFirst, kInsideSecond]
      simpa using hlater
    · simp only [Sweep.next, hlt, if_false, Option.some.injEq, Prod.mk.injEq] at h
      obtain ⟨rfl, rfl, rfl⟩ := h
      have hlater := hlater (Nat.le_of_not_lt hlt) hfirst
      constructor <;> try simp [Sweep.rest, otherSource, IsSource, kInsideFirst, kInsideSecond]
      simpa using hlater

theorem Sweep.next_none (h : s.next = none) (t : Nat) : s.rest t = [] := by
  grind [Sweep.rest, Sweep.next]

variable {inputs : Nat → List CharacterRange} {initial : Sets}

theorem inside_none (h : ∀ t, IsSource t → ¬Covered (inputs t) c) : Inside inputs c kInsideNone := by
  have hfirst := h kInsideFirst (Or.inl rfl)
  have hsnd := h kInsideSecond (Or.inr rfl)
  constructor
  · simpa [kInsideNone, kInsideFirst, kInsideBoth] using hfirst
  · simpa [kInsideNone, kInsideSecond, kInsideBoth] using hsnd

theorem inside_one {t : Nat} (ht : IsSource t) (h : Covered (inputs t) c)
    (hother : ¬Covered (inputs (otherSource t)) c) : Inside inputs c t := by
  rcases ht with rfl | rfl
  · constructor
    · simp [h]
    · simpa [otherSource, kInsideFirst, kInsideSecond, kInsideBoth] using hother
  · constructor
    · simpa [otherSource, kInsideFirst, kInsideSecond, kInsideBoth] using hother
    · simp [h]

theorem inside_both (h : ∀ t, IsSource t → Covered (inputs t) c) : Inside inputs c kInsideBoth := by
  have hfirst := h kInsideFirst (Or.inl rfl)
  have hsnd := h kInsideSecond (Or.inr rfl)
  constructor
  · simp [hfirst]
  · simp [hsnd]

/-- The current range is left of one input or of none, all ranges that are left begin behind its
first character, and everything before it is in the outputs. -/
structure SweepInvariant (inputs : Nat → List CharacterRange) (out : Outputs) (initial : Sets)
    (s : Sweep) : Prop where
  canonical : ∀ t, IsSource t → Canonical (s.rest t)
  from_nonneg : 0 ≤ s.from_
  to_le : s.to_ ≤ kMaxUC16CharCode
  state : s.state = kInsideNone ∧ s.from_ = s.to_ + 1 ∨ IsSource s.state ∧ s.from_ ≤ s.to_
  ahead : ∀ t, IsSource t → ∀ r ∈ s.rest t, s.from_ ≤ r.from_
  apart : IsSource s.state → ∀ r ∈ s.rest s.state, s.to_ + 1 < r.from_
  covered : ∀ t, IsSource t → ∀ c : Nat, s.from_ ≤ c →
    (Covered (inputs t) c ↔ s.state = t ∧ (c : Int) ≤ s.to_ ∨ Covered (s.rest t) c)
  emitted : Emitted inputs out initial s.sets s.from_.toNat

/-- The characters of the current range before all ranges that are left. -/
theorem SweepInvariant.inside_state (h : SweepInvariant inputs out initial s)
    (hstate : IsSource s.state) (hc : s.from_ ≤ c) (hto : (c : Int) ≤ s.to_)
    (hbefore : ∀ t, IsSource t → ¬Covered (s.rest t) c) : Inside inputs c s.state := by
  refine inside_one hstate ?_ ?_
  · rw [h.covered _ hstate c hc]
    exact Or.inl ⟨rfl, hto⟩
  · rw [h.covered _ hstate.other c hc]
    rintro (hsame | hrest)
    · grind [otherSource, kInsideFirst, kInsideSecond]
    · exact hbefore _ hstate.other hrest

/-- The current range goes to its output when all ranges that are left begin behind it. -/
theorem SweepInvariant.finish (h : SweepInvariant inputs out initial s)
    (hbehind : ∀ t, IsSource t → ∀ r ∈ s.rest t, s.to_ < r.from_) :
    Emitted inputs out initial (addRangeToSelectedSet out s.sets s.state (.mk' s.from_ s.to_))
      (s.to_ + 1).toNat := by
  have hfrom := h.from_nonneg
  rcases h.state with ⟨hnone, heq⟩ | ⟨hstate, hle⟩
  · have hsets : addRangeToSelectedSet out s.sets s.state (.mk' s.from_ s.to_) = s.sets := by
      simp [hnone, addRangeToSelectedSet, addRangeToSet, Outputs.select, kInsideNone, kInsideFirst,
        kInsideSecond, kInsideBoth]
    rw [hsets, ← heq]
    exact h.emitted
  · have hto := h.to_le
    have hbound : (s.to_ + 1).toNat = s.to_.toNat + 1 := by omega
    rw [mk'_eq hfrom hle h.to_le, hbound]
    refine h.emitted.emit (by omega) (by omega) ?_ fun c hc hc' => ?_
    · rcases hstate with hs | hs <;> simp [hs, kInsideFirst, kInsideSecond, kInsideBoth]
    · refine h.inside_state hstate (by omega) (by omega) ?_
      rintro t ht ⟨r, hr, hrc⟩
      have := hbehind t ht r hr
      omega

@[simp] theorem Sweep.step_first (s : Sweep) (source : Nat) : (s.step out range source).first = s.first := by
  simp only [Sweep.step]
  split_ifs <;> rfl

@[simp] theorem Sweep.step_second (s : Sweep) (source : Nat) : (s.step out range source).second = s.second := by
  simp only [Sweep.step]
  split_ifs <;> rfl

theorem source_cases {source t : Nat} (ht : IsSource t) (hsrc : IsSource source) :
    t = source ∨ t = otherSource source := by
  rcases ht with rfl | rfl <;> rcases hsrc with rfl | rfl <;>
    simp [otherSource, kInsideFirst, kInsideSecond]

section Step

variable {s s' : Sweep} {source : Nat}

/-- What the ranges that are left cover, with the next one told apart. -/
theorem Taken.covered (h : Taken s s' range source) {t : Nat} (ht : IsSource t) (c : Nat) :
    Covered (s.rest t) c ↔ source = t ∧ range.from_ ≤ c ∧ c ≤ range.to_ ∨ Covered (s'.rest t) c := by
  rcases source_cases ht h.isSource with rfl | rfl
  · simp [h.rest]
  · have hne : source ≠ otherSource source := by
      rcases h.isSource with rfl | rfl <;> simp [otherSource, kInsideFirst, kInsideSecond]
    simp [h.other, hne]

theorem Taken.length (h : Taken s s' range source) :
    s.first.length + s.second.length = s'.first.length + s'.second.length + 1 := by
  have hrest := congrArg List.length h.rest
  have hother := congrArg List.length h.other
  grind [Sweep.rest]

/-- What is known before the loop looks at the next range. -/
theorem SweepInvariant.taken (h : SweepInvariant inputs out initial s) (htaken : Taken s s' range source) :
    range.Valid ∧ s.from_ ≤ range.from_ ∧ (∀ t, IsSource t → Canonical (s'.rest t)) ∧
      (∀ r ∈ s'.rest source, range.to_ + 1 < r.from_) ∧
      (∀ t, IsSource t → ∀ r ∈ s'.rest t, range.from_ ≤ r.from_) := by
  have hsrc := h.canonical source htaken.isSource
  rw [htaken.rest] at hsrc
  have hparts := canonical_cons.1 hsrc
  refine ⟨hparts.1, h.ahead source htaken.isSource range (by rw [htaken.rest]; simp), fun t ht => ?_,
    hparts.2.1, fun t ht r hr => ?_⟩
  · rcases source_cases ht htaken.isSource with rfl | rfl
    · exact hparts.2.2
    · rw [← htaken.other]
      exact h.canonical _ ht
  · rcases source_cases ht htaken.isSource with rfl | rfl
    · have := hparts.2.1 r hr
      have := hparts.1.1
      omega
    · exact htaken.later r hr

/-- The current range ends before the next one, which takes its place. -/
theorem SweepInvariant.step_disjoint (h : SweepInvariant inputs out initial s)
    (htaken : Taken s s' range source) (hdisj : s.to_ < range.from_) :
    SweepInvariant inputs out initial (s'.step out range source) := by
  obtain ⟨hrange, hahead, hcanon, hbehind, hbegin⟩ := h.taken htaken
  have hstep : s'.step out range source = { s' with
        sets := addRangeToSelectedSet out s.sets s.state (.mk' s.from_ s.to_)
        from_ := range.from_
        to_ := range.to_
        state := source } := by
    rw [Sweep.step, htaken.to_, if_pos hdisj, htaken.from_, htaken.state, htaken.sets]
  have hle := hrange.1
  have hto := hrange.2
  have hnext : ∀ t, IsSource t → ∀ r ∈ s.rest t, range.from_ ≤ r.from_ := by
    intro t ht r hr
    rcases source_cases ht htaken.isSource with rfl | rfl
    · rw [htaken.rest] at hr
      grind
    · rw [htaken.other] at hr
      exact hbegin _ ht r hr
  have hfin := h.finish fun t ht r hr => by
    have := hnext t ht r hr
    omega
  rw [hstep]
  refine ⟨hcanon, by simp, by simpa using hto, Or.inr ⟨htaken.isSource, by simpa using hle⟩,
    fun t ht r hr => ?_, fun _ r hr => ?_, fun t ht c hc => ?_, ?_⟩
  · exact Int.ofNat_le.2 (hbegin t ht r hr)
  · exact Int.ofNat_lt.2 (hbehind r hr)
  · dsimp only at hc
    rw [h.covered t ht c (by omega), htaken.covered ht c]
    grind [Sweep.rest]
  · refine hfin.skip (by simp; omega) fun c hc hc' => inside_none fun t ht => ?_
    dsimp only at hc'
    have hbds : s.from_ ≤ c := by
      rcases h.state with hs | hs <;> omega
    rw [h.covered t ht c hbds]
    rintro (hstate | ⟨r, hr, hrc⟩)
    · omega
    · have := hnext t ht r hr
      omega

/-- The next range begins in the current one, so it is not of the same input. -/
theorem SweepInvariant.other_state (h : SweepInvariant inputs out initial s)
    (htaken : Taken s s' range source) (hmeet : range.from_ ≤ s.to_) :
    s.state = otherSource source ∧ s.from_ ≤ s.to_ := by
  have hahead := (h.taken htaken).2.1
  rcases h.state with hs | hs
  · omega
  · refine ⟨?_, hs.2⟩
    rcases source_cases hs.1 htaken.isSource with hsame | hother
    · have hapart := h.apart hs.1 range (by rw [hsame, htaken.rest]; simp)
      omega
    · exact hother

/-- What the outputs have when the next range begins in the current one. -/
theorem SweepInvariant.before_next (h : SweepInvariant inputs out initial s)
    (htaken : Taken s s' range source) (hmeet : range.from_ ≤ s.to_) :
    Emitted inputs out initial (if s.from_ < range.from_ then
        addRangeToSelectedSet out s.sets s.state (.mk' s.from_ (range.from_ - 1)) else s.sets)
      range.from_ := by
  obtain ⟨hrange, hahead, hcanon, hbehind, hbegin⟩ := h.taken htaken
  obtain ⟨hstate, hle⟩ := h.other_state htaken hmeet
  have hfrom := h.from_nonneg
  have hto := h.to_le
  by_cases hgap : s.from_ < range.from_
  · have hlast : ((range.from_ : Int) - 1).toNat = range.from_ - 1 := by omega
    have hemit : Emitted inputs out initial
        (addRangeToSelectedSet out s.sets s.state ⟨s.from_.toNat, range.from_ - 1⟩)
        (range.from_ - 1 + 1) := h.emitted.emit (by omega)
      (by omega) (by
        grind [otherSource, kInsideFirst, kInsideSecond, kInsideBoth]) fun c hc hc' => ?_
    · rw [if_pos hgap, mk'_eq hfrom (by omega) (by omega), hlast]
      rwa [Nat.sub_add_cancel (by omega)] at hemit
    · refine h.inside_state (hstate ▸ htaken.isSource.other) (by omega) (by omega) fun t ht => ?_
      rw [htaken.covered ht]
      rintro (hc | ⟨r, hr, hrc⟩)
      · omega
      · have := hbegin t ht r hr
        omega
  · have hsame : s.from_.toNat = range.from_ := by omega
    rw [if_neg hgap, ← hsame]
    exact h.emitted

/-- What is left when the next range begins in the current one, from its first character on. -/
theorem SweepInvariant.from_next (h : SweepInvariant inputs out initial s)
    (htaken : Taken s s' range source) (hmeet : range.from_ ≤ s.to_) {t : Nat} (ht : IsSource t)
    (hc : range.from_ ≤ c) : Covered (inputs t) c ↔
      t ≠ source ∧ (c : Int) ≤ s.to_ ∨ t = source ∧ c ≤ range.to_ ∨ Covered (s'.rest t) c := by
  obtain ⟨hrange, hahead, hcanon, hbehind, hbegin⟩ := h.taken htaken
  obtain ⟨hstate, hle⟩ := h.other_state htaken hmeet
  rw [h.covered t ht c (by omega), htaken.covered ht, hstate]
  have hsame : otherSource source = t ↔ t ≠ source := by
    rcases ht with rfl | rfl <;> rcases htaken.isSource with rfl | rfl <;>
      simp [otherSource, kInsideFirst, kInsideSecond]
  simp [hsame, hc, eq_comm]

theorem SweepInvariant.rest_behind (h : SweepInvariant inputs out initial s)
    (htaken : Taken s s' range source) (hmeet : range.from_ ≤ s.to_) :
    ∀ r ∈ s'.rest (otherSource source), s.to_ + 1 < r.from_ := by
  obtain ⟨hstate, hle⟩ := h.other_state htaken hmeet
  rw [← htaken.other, ← hstate]
  exact h.apart (hstate ▸ htaken.isSource.other)

/-- One turn of the loop when the next range begins in the current one. -/
theorem SweepInvariant.step_meet (h : SweepInvariant inputs out initial s)
    (htaken : Taken s s' range source) (hmeet : range.from_ ≤ s.to_) :
    SweepInvariant inputs out initial (s'.step out range source) := by
  obtain ⟨hrange, hahead, hcanon, hbehind, hbegin⟩ := h.taken htaken
  obtain ⟨hstate, hle⟩ := h.other_state htaken hmeet
  have hbefore := h.before_next htaken hmeet
  have hother := h.rest_behind htaken hmeet
  have hto := h.to_le
  have hvalid := hrange.1
  have hlast := hrange.2
  have hboth : s.state ||| source = kInsideBoth := by
    rcases htaken.isSource with hs | hs <;>
      simp [hstate, hs, otherSource, kInsideFirst, kInsideSecond, kInsideBoth]
  -- both inputs cover the characters up to the smaller end
  have hin : ∀ c, range.from_ ≤ c → (c : Int) ≤ s.to_ → c ≤ range.to_ → Inside inputs c kInsideBoth := by
    intro c hc hc' hc''
    refine inside_both fun t ht => ?_
    rw [h.from_next htaken hmeet ht hc]
    omega
  rw [Sweep.step, htaken.to_, if_neg (by omega), htaken.from_, htaken.state, htaken.sets, hboth]
  generalize (if s.from_ < range.from_ then
    addRangeToSelectedSet out s.sets s.state (.mk' s.from_ (range.from_ - 1)) else s.sets) = sets
    at hbefore ⊢
  by_cases hoverlap : s.to_ < range.to_
  · rw [if_pos hoverlap, mk'_eq (by omega) (by omega) hto, Int.toNat_natCast]
    refine ⟨hcanon, by simp; omega, by simpa using hlast,
      Or.inr ⟨htaken.isSource, by simp; omega⟩, fun t ht r hr => ?_, fun _ r hr => ?_,
      fun t ht c hc => ?_, ?_⟩
    · rcases source_cases ht htaken.isSource with rfl | rfl
      · have := hbehind r hr
        simp only
        omega
      · have := hother r hr
        simp only
        omega
    · exact Int.ofNat_lt.2 (hbehind r hr)
    · dsimp only at hc
      rw [h.from_next htaken hmeet ht (by omega)]
      have hpast : ¬(c : Int) ≤ s.to_ := by omega
      simp [hpast, Sweep.rest, eq_comm]
    · have hbound : (s.to_ + 1).toNat = s.to_.toNat + 1 := by omega
      simp only [hbound]
      exact hbefore.emit (by omega) (by omega) (Nat.le_refl _) fun c hc hc' =>
        hin c hc (by omega) (by omega)
  · rw [if_neg hoverlap, mk'_eq (by omega) (by omega) (by omega), Int.toNat_natCast, Int.toNat_natCast]
    have hends : otherSource source ≠ source ∧ otherSource source ≠ kInsideNone := by
      rcases htaken.isSource with hs | hs <;>
        simp [hs, otherSource, kInsideNone, kInsideFirst, kInsideSecond]
    refine ⟨hcanon, by simp; omega, by simpa using hto, ?_, fun t ht r hr => ?_,
      fun hs r hr => ?_, fun t ht c hc => ?_, ?_⟩
    · by_cases hsame : (range.to_ : Int) = s.to_
      · exact Or.inl (by simp [hsame])
      · refine Or.inr ?_
        simp only [hsame, if_false, hstate]
        exact ⟨htaken.isSource.other, by omega⟩
    · rcases source_cases ht htaken.isSource with rfl | rfl
      · have := hbehind r hr
        simp only
        omega
      · have := hother r hr
        simp only
        omega
    · by_cases hsame : (range.to_ : Int) = s.to_
      · simp [hsame, IsSource, kInsideNone, kInsideFirst, kInsideSecond] at hs
      · simp only [hsame, if_false, hstate] at hr
        exact hother r hr
    · dsimp only at hc
      rw [h.from_next htaken hmeet ht (by omega)]
      have hpast : ¬c ≤ range.to_ := by omega
      by_cases hsame : (range.to_ : Int) = s.to_
      · grind [Sweep.rest]
      · have hsrc : otherSource source = t ↔ t ≠ source := by
          rcases source_cases ht htaken.isSource with rfl | rfl
          · simpa using hends.1
          · simpa using hends.1
        simp [hpast, hsame, hstate, hsrc, Sweep.rest]
    · exact hbefore.emit hvalid hlast (Nat.le_refl _) fun c hc hc' =>
        hin c hc (by omega) (by omega)

end Step

theorem SweepInvariant.step (h : SweepInvariant inputs out initial s) (htaken : Taken s s' range source) :
    SweepInvariant inputs out initial (s'.step out range source) := by
  by_cases hdisj : s.to_ < range.from_
  · exact h.step_disjoint htaken hdisj
  · exact h.step_meet htaken (by omega)

theorem run_invariant (fuel : Nat) (h : SweepInvariant inputs out initial s)
    (hfuel : s.first.length + s.second.length ≤ fuel) :
    SweepInvariant inputs out initial (s.run out fuel) ∧ ∀ t, (s.run out fuel).rest t = [] := by
  induction fuel generalizing s with
  | zero =>
    simp_all [Sweep.run, Sweep.rest]
  | succ fuel ih =>
    cases hnext : s.next with
    | none =>
      simp only [Sweep.run, hnext]
      exact ⟨h, Sweep.next_none hnext⟩
    | some next =>
      have htaken := Sweep.next_spec hnext h.canonical
      simp only [Sweep.run, hnext]
      refine ih (h.step htaken) ?_
      have hlen := htaken.length
      simp only [Sweep.step_first, Sweep.step_second]
      omega

end Sweep

section Merge

/-- Each output has the characters that its inputs cover and is canonical, and nothing else is
changed. -/
structure Merged (first second : List CharacterRange) (out : Outputs) (initial sets : Sets) : Prop where
  canonical : ∀ p, out.firstSetOnlyOut = some p ∨ out.secondSetOnlyOut = some p ∨
    out.bothSetsOut = some p → Canonical (sets p)
  covered : ∀ p, out.firstSetOnlyOut = some p ∨ out.secondSetOnlyOut = some p ∨
    out.bothSetsOut = some p → ∀ c, Covered (sets p) c ↔
      out.firstSetOnlyOut = some p ∧ Covered first c ∧ ¬Covered second c ∨
      out.secondSetOnlyOut = some p ∧ Covered second c ∧ ¬Covered first c ∨
      out.bothSetsOut = some p ∧ Covered first c ∧ Covered second c
  others : ∀ p, out.firstSetOnlyOut ≠ some p → out.secondSetOnlyOut ≠ some p →
    out.bothSetsOut ≠ some p → sets p = initial p

variable {initial : Sets}

/-- The two inputs by their sources. -/
def inputs (first second : List CharacterRange) (source : Nat) : List CharacterRange :=
  if source = kInsideFirst then first else second

theorem exists_inside (p c : Nat) :
    (∃ selector, out.select selector = some p ∧ Inside (inputs first second) c selector) ↔
      out.firstSetOnlyOut = some p ∧ Covered first c ∧ ¬Covered second c ∨
      out.secondSetOnlyOut = some p ∧ Covered second c ∧ ¬Covered first c ∨
      out.bothSetsOut = some p ∧ Covered first c ∧ Covered second c := by
  constructor
  · rintro ⟨selector, hsel, hfirst, hsnd⟩
    obtain ⟨hlow, hhigh⟩ := select_bounds hsel
    grind [kInsideBoth, inputs, Outputs.select, kInsideFirst, kInsideSecond]
  · rintro (⟨hp, hfirst, hsnd⟩ | ⟨hp, hsnd, hfirst⟩ | ⟨hp, hfirst, hsnd⟩)
    · exact ⟨kInsideFirst, by simpa [Outputs.select] using hp, by
        constructor <;> simp [inputs, hfirst, hsnd, kInsideFirst, kInsideSecond, kInsideBoth]⟩
    · exact ⟨kInsideSecond, by simpa [Outputs.select, kInsideFirst, kInsideSecond] using hp, by
        constructor <;> simp [inputs, hfirst, hsnd, kInsideFirst, kInsideSecond, kInsideBoth]⟩
    · exact ⟨kInsideBoth, by
        simpa [Outputs.select, kInsideFirst, kInsideSecond, kInsideBoth] using hp, by
        constructor <;> simp [inputs, hfirst, hsnd, kInsideFirst, kInsideSecond, kInsideBoth]⟩

/-- The outputs that a selector stands for. -/
theorem exists_select (p : Nat) : (∃ selector, out.select selector = some p) ↔
    out.firstSetOnlyOut = some p ∨ out.secondSetOnlyOut = some p ∨ out.bothSetsOut = some p := by
  constructor
  · grind [Outputs.select]
  · rintro (hp | hp | hp)
    · exact ⟨kInsideFirst, by simpa [Outputs.select] using hp⟩
    · exact ⟨kInsideSecond, by simpa [Outputs.select, kInsideFirst, kInsideSecond] using hp⟩
    · exact ⟨kInsideBoth, by
        simpa [Outputs.select, kInsideFirst, kInsideSecond, kInsideBoth] using hp⟩

theorem Emitted.merged {bound : Nat} (h : Emitted (inputs first second) out initial sets bound)
    (hbound : ∀ c, bound ≤ c → ¬Covered first c ∧ ¬Covered second c) :
    Merged first second out initial sets := by
  refine ⟨fun p hp => ?_, fun p hp c => ?_, fun p hp hp' hp'' => ?_⟩
  · obtain ⟨selector, hsel⟩ := (exists_select p).2 hp
    exact h.canonical selector p hsel
  · obtain ⟨selector, hsel⟩ := (exists_select p).2 hp
    rw [h.covered selector p hsel c, exists_inside]
    grind
  · refine h.others p fun selector hsel => ?_
    grind [exists_select]

theorem initial_invariant (hfirst : Canonical first) (hsnd : Canonical second)
    (hempty : ∀ selector p, out.select selector = some p → sets p = []) :
    SweepInvariant (inputs first second) out sets ⟨first, second, 0, -1, kInsideNone, sets⟩ := by
  have hrest : ∀ t, (Sweep.mk first second 0 (-1) kInsideNone sets).rest t = inputs first second t :=
    fun t => rfl
  refine ⟨fun t ht => ?_, by simp, by simp [kMaxUC16CharCode], Or.inl ⟨rfl, rfl⟩, fun t ht r hr => by simp, ?_,
    fun t ht c hc => ?_, ⟨fun σ p hp => ?_, fun σ p hp => ?_, fun σ p hp c => ?_, fun p hp => rfl⟩⟩
  · grind [inputs]
  · intro hs
    simp [IsSource, kInsideNone, kInsideFirst, kInsideSecond] at hs
  · grind
  · simp [hempty σ p hp, canonical_nil]
  · simp [hempty σ p hp]
  · simp [hempty σ p hp]

/-- The loop and what follows it put every character where it belongs. -/
theorem sweep_merged (hfirst : Canonical first) (hsnd : Canonical second)
    (hempty : ∀ selector p, out.select selector = some p → sets p = []) :
    let s := Sweep.run out (first.length + second.length) ⟨first, second, 0, -1, kInsideNone, sets⟩
    Merged first second out sets (addRangeToSelectedSet out s.sets s.state (.mk' s.from_ s.to_)) := by
  intro s
  have hrun := run_invariant (first.length + second.length)
    (initial_invariant hfirst hsnd hempty) (Nat.le_refl _)
  have hs : SweepInvariant (inputs first second) out sets s := hrun.1
  have hrest : ∀ t, s.rest t = [] := hrun.2
  refine (hs.finish fun t ht r hr => ?_).merged fun c hc => ?_
  · simp [hrest t] at hr
  · have hpast : s.from_ ≤ c ∧ ¬(c : Int) ≤ s.to_ := by
      rcases hs.state with h | h <;> omega
    have hnone : ∀ t, IsSource t → ¬Covered (inputs first second t) c := by
      intro t ht
      rw [hs.covered t ht c hpast.1, hrest t]
      simp [hpast.2]
    exact ⟨hnone kInsideFirst (Or.inl rfl), hnone kInsideSecond (Or.inr rfl)⟩

/-- What a list that is added to an empty output leaves. -/
theorem addAll_merged {p : Nat} (hlist : Canonical list) (hp : sets p = [])
    (hempty : ∀ selector q, out.select selector = some q → sets q = [])
    (hcov : ∀ c q, Covered (if q = p then list else []) c ↔
      out.firstSetOnlyOut = some q ∧ Covered first c ∧ ¬Covered second c ∨
      out.secondSetOnlyOut = some q ∧ Covered second c ∧ ¬Covered first c ∨
      out.bothSetsOut = some q ∧ Covered first c ∧ Covered second c)
    (hout : out.firstSetOnlyOut = some p ∨ out.secondSetOnlyOut = some p) :
    Merged first second out sets fun q => if q = p then sets p ++ list else sets q := by
  have hsets : ∀ q, (∃ selector, out.select selector = some q) →
      (if q = p then sets p ++ list else sets q) = if q = p then list else [] := by
    grind
  refine ⟨fun q hq => ?_, fun q hq c => ?_, fun q hq hq' hq'' => ?_⟩
  · grind [exists_select, canonical_nil]
  · rw [hsets q ((exists_select q).2 hq), hcov c q]
  grind

/-- `Merge` puts every character in its output exactly when it does not have to copy a list to
`NULL`. -/
theorem merge_spec (hfirst : Canonical first) (hsnd : Canonical second)
    (hempty : ∀ p, out.firstSetOnlyOut = some p ∨ out.secondSetOnlyOut = some p ∨
      out.bothSetsOut = some p → sets p = []) :
    (∃ sets', merge first second out sets = some sets' ∧ Merged first second out sets sets') ↔
      ¬(first = [] ∧ out.secondSetOnlyOut = none) ∧
      ¬(first ≠ [] ∧ second = [] ∧ out.firstSetOnlyOut = none) := by
  have hempty' : ∀ selector p, out.select selector = some p → sets p = [] :=
    fun selector p hsel => hempty p ((exists_select p).1 ⟨selector, hsel⟩)
  by_cases hnil : first = []
  · subst hnil
    cases hout : out.secondSetOnlyOut with
    | none => simp [merge, addAll, hout]
    | some p =>
      simp only [merge, if_true, addAll, hout, Option.map_some, Option.some.injEq]
      simp only [exists_eq_left', ne_eq, reduceCtorEq, and_false, not_false_eq_true, not_true,
        false_and, and_self, iff_true]
      refine addAll_merged hsnd (hempty p (by simp [hout])) hempty' (fun c q => ?_) (Or.inr hout)
      by_cases hq : q = p
      · simp [hout, hq]
      · simp [hout, hq, Ne.symm hq]
  · by_cases hnil' : second = []
    · subst hnil'
      cases hout : out.firstSetOnlyOut with
      | none => simp [merge, addAll, hout, hnil]
      | some p =>
        simp only [merge, hnil, if_true, if_false, addAll, hout, Option.map_some, Option.some.injEq]
        simp only [exists_eq_left', ne_eq, reduceCtorEq, and_false, not_false_eq_true,
          false_and, and_self, iff_true]
        refine addAll_merged hfirst (hempty p (by simp [hout])) hempty' (fun c q => ?_) (Or.inl hout)
        by_cases hq : q = p
        · simp [hout, hq]
        · simp [hout, hq, Ne.symm hq]
    · have hmerged := sweep_merged hfirst hsnd hempty'
      simp only [hnil, hnil', merge, if_false, Option.some.injEq, exists_eq_left', false_and,
        and_false, not_false_eq_true, and_self, iff_true]
      exact hmerged

/-- `Canonicalize` keeps the characters of every list; `Merge` computes its three sets exactly when
an empty input does not make it copy the other one to `NULL`. -/
theorem canonicalize_merge_exact (first second : List CharacterRange) (out : Outputs) (sets : Sets)
    (hfirst : Canonical first) (hsecond : Canonical second)
    (hempty : ∀ p, out.firstSetOnlyOut = some p ∨ out.secondSetOnlyOut = some p ∨
      out.bothSetsOut = some p → sets p = []) :
    (∀ ranges : List CharacterRange, (∀ r ∈ ranges, r.Valid) →
      Canonical (canonicalize ranges) ∧ (canonicalize ranges).length ≤ ranges.length ∧
        ∀ c, Covered (canonicalize ranges) c ↔ Covered ranges c) ∧
      ((∃ sets', merge first second out sets = some sets' ∧ Merged first second out sets sets') ↔
        ¬(first = [] ∧ out.secondSetOnlyOut = none) ∧
        ¬(first ≠ [] ∧ second = [] ∧ out.firstSetOnlyOut = none)) :=
  ⟨canonicalize_spec, merge_spec hfirst hsecond hempty⟩

theorem canonicalize_merge_exact_letters : Canonical (canonicalize [⟨102, 106⟩, ⟨97, 101⟩]) ∧
      ∃ sets', merge [⟨97, 122⟩] [⟨101, 101⟩] ⟨some 0, none, some 1⟩ (fun _ => []) = some sets' ∧
        Merged [⟨97, 122⟩] [⟨101, 101⟩] ⟨some 0, none, some 1⟩ (fun _ => []) sets' := by
  have hletters : ∀ r : CharacterRange, r.from_ ≤ r.to_ → r.to_ ≤ 1000 → Canonical [r] := by
    intro r hle hto
    exact canonical_cons.2 ⟨⟨hle, by simp [kMaxUC16CharCode]; omega⟩, by simp, canonical_nil⟩
  obtain ⟨hcanonicalize, hmerge⟩ := canonicalize_merge_exact [⟨97, 122⟩] [⟨101, 101⟩]
    ⟨some 0, none, some 1⟩ (fun _ => []) (hletters _ (by simp) (by simp)) (hletters _ (by simp) (by simp)) (by simp)
  exact ⟨(hcanonicalize [⟨102, 106⟩, ⟨97, 101⟩] (by simp [CharacterRange.Valid, kMaxUC16CharCode])).1,
    hmerge.2 (by simp)⟩

/-- The intersection with no characters at all reads through `NULL`. -/
theorem merge_reads_null : ¬∀ (first second : List CharacterRange) (out : Outputs) (sets : Sets),
    Canonical first → Canonical second →
    (∀ p, out.firstSetOnlyOut = some p ∨ out.secondSetOnlyOut = some p ∨
      out.bothSetsOut = some p → sets p = []) →
    ∃ sets', merge first second out sets = some sets' ∧ Merged first second out sets sets' := by
  intro h
  have hletter : Canonical [⟨97, 97⟩] :=
    canonical_cons.2 ⟨by simp [CharacterRange.Valid, kMaxUC16CharCode], by simp, canonical_nil⟩
  obtain ⟨sets', hmerge, -⟩ := h [] [⟨97, 97⟩] ⟨none, none, some 0⟩ (fun _ => []) canonical_nil
    hletter (by simp)
  simp [merge, addAll] at hmerge

end Merge

end W16.CharacterRanges
