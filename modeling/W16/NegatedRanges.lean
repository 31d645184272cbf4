import W16.CanonicalRanges

/-!
# Negated character ranges

`Negate` keeps the last character it has seen, and begins as if it had seen character 0. The
result is the complement only of lists that begin at 0.
-/
namespace W16.CharacterRanges

variable {list ranges : List CharacterRange} {range : CharacterRange} {from_ c : Nat}

/-- The ranges that are added behind a character. -/
def negateBehind (from_ : Nat) (list : List CharacterRange) : List CharacterRange :=
  if (negateFrom from_ list).2 < kMaxUC16CharCode then
    (negateFrom from_ list).1 ++ [CharacterRange.mk' ((negateFrom from_ list).2 + 1) kMaxUC16CharCode]
  else (negateFrom from_ list).1

theorem negateBehind_nil : negateBehind from_ [] =
    if from_ < kMaxUC16CharCode then [.mk' (from_ + 1) kMaxUC16CharCode] else [] := rfl

theorem negateBehind_cons : negateBehind from_ (range :: list) =
    .mk' (from_ + 1) (range.from_ - 1) :: negateBehind range.to_ list := by
  grind [negateFrom, negateBehind]

theorem negate_nil : negate [] = [⟨1, kMaxUC16CharCode⟩] := by decide

theorem negate_cons : negate (range :: list) =
    if range.from_ = 0 then negateBehind range.to_ list else negateBehind 0 (range :: list) := by
  by_cases hzero : range.from_ = 0 <;> simp [negate, negateBehind, hzero]

theorem mk'_valid {a b : Nat} (hab : a < b) (hb : b ≤ kMaxUC16CharCode) :
    CharacterRange.mk' (a + 1) b = ⟨a + 1, b⟩ := by
  grind [kMaxUC16CharCode, CharacterRange.mk', uc16]

theorem mk'_gap {a b : Nat} (hab : a + 1 < b) (hb : b ≤ kMaxUC16CharCode) :
    CharacterRange.mk' (a + 1) (b - 1) = ⟨a + 1, b - 1⟩ := by
  grind [mk'_valid]

/-- Behind a character before all ranges, the result is canonical and is the complement. -/
theorem negateBehind_spec (hlist : Canonical list) (hfrom : from_ ≤ kMaxUC16CharCode)
    (hbehind : ∀ r ∈ list, from_ + 1 < r.from_) :
    Canonical (negateBehind from_ list) ∧ (∀ r ∈ negateBehind from_ list, from_ < r.from_) ∧
      ∀ c, Covered (negateBehind from_ list) c ↔ from_ < c ∧ c ≤ kMaxUC16CharCode ∧ ¬Covered list c := by
  induction list generalizing from_ with
  | nil =>
    by_cases hlast : from_ < kMaxUC16CharCode
    · rw [negateBehind_nil, if_pos hlast, mk'_valid hlast (Nat.le_refl _)]
      refine ⟨canonical_cons.2 ⟨⟨hlast, Nat.le_refl _⟩, by simp, canonical_nil⟩, by simp, fun c => ?_⟩
      simp [Nat.succ_le_iff]
    · rw [negateBehind_nil, if_neg hlast]
      refine ⟨canonical_nil, by simp, fun c => ?_⟩
      simp only [not_covered_nil, not_false_eq_true, and_true, false_iff]
      omega
  | cons range rest ih =>
    have hparts := canonical_cons.1 hlist
    have hvalid := hparts.1
    have hgap := hbehind range (by simp)
    obtain ⟨hcanon, hafter, hcov⟩ := ih hparts.2.2 hvalid.2 hparts.2.1
    have hle := hvalid.1
    have hmax := hvalid.2
    rw [negateBehind_cons, mk'_gap hgap (by omega)]
    refine ⟨canonical_cons.2 ⟨⟨by simp; omega, by simp; omega⟩, fun r hr => ?_, hcanon⟩,
      fun r hr => ?_, fun c => ?_⟩
    · have := hafter r hr
      simp only
      omega
    · grind
    · rw [covered_cons, covered_cons, hcov c]
      dsimp only
      have hrest : Covered rest c → range.to_ + 1 < c := by
        rintro ⟨r, hr, hc⟩
        have := hparts.2.1 r hr
        omega
      grind

/-- The result begins with a range from 1 on, where the list does not begin at 0. -/
theorem negate_head (ranges : List CharacterRange) (h : ∀ r rest, ranges = r :: rest → r.from_ ≠ 0) :
    ∃ to_ rest, negate ranges = ⟨1, to_⟩ :: rest := by
  cases ranges with
  | nil => exact ⟨_, _, negate_nil⟩
  | cons range rest =>
    rw [negate_cons, if_neg (h range rest rfl), negateBehind_cons]
    exact ⟨uc16 (range.from_ - 1), _, rfl⟩

/-- `Negate` gives the complement of a canonical list exactly when the list begins at character 0,
and negating twice never gives the list back. -/
theorem negate_complement (ranges : List CharacterRange) (hranges : Canonical ranges) :
    ((Canonical (negate ranges) ∧ ∀ c ≤ kMaxUC16CharCode, (Covered (negate ranges) c ↔ ¬Covered ranges c)) ↔
      ∃ range rest, ranges = range :: rest ∧ range.from_ = 0) ∧
    negate (negate ranges) ≠ ranges := by
  cases ranges with
  | nil =>
    refine ⟨⟨fun h => ?_, by simp⟩, by decide⟩
    have hnot := (h.2 0 (Nat.zero_le _)).2 not_covered_nil
    simp [negate_nil] at hnot
  | cons range rest =>
    have hparts := canonical_cons.1 hranges
    have hle := hparts.1.1
    obtain ⟨hcanonical, hafter, hcovered⟩ := negateBehind_spec hparts.2.2 hparts.1.2 hparts.2.1
    by_cases hzero : range.from_ = 0
    · rw [negate_cons, if_pos hzero]
      refine ⟨⟨fun _ => ⟨range, rest, rfl, hzero⟩, fun _ => ⟨hcanonical, fun c hc => ?_⟩⟩, ?_⟩
      · rw [hcovered c, covered_cons]
        grind
      · intro hsame
        obtain ⟨to_, rest', hhead⟩ := negate_head (negateBehind range.to_ rest) (by
          grind)
        grind
    · rw [negate_cons, if_neg hzero, negateBehind_cons]
      refine ⟨⟨fun h => ?_, ?_⟩, ?_⟩
      · have hnot := (h.2 0 (Nat.zero_le _)).2 (by
          rw [covered_cons]
          rintro (hin | ⟨r, hr, hin⟩)
          · omega
          · have := hparts.2.1 r hr
            omega)
        rcases covered_cons.1 hnot with hin | hin
        · simp [CharacterRange.mk', uc16] at hin
        · have := (hcovered 0).1 hin
          omega
      · grind
      · -- the range before the first one begins at 1, and what is before it ends at 0
        rw [negate_cons, if_neg (by simp [CharacterRange.mk', uc16]), negateBehind_cons]
        intro hsame
        injection hsame with hsame
        rw [← hsame] at hle
        simp [CharacterRange.mk', uc16] at hle

theorem negate_complement_above_letters : ((Canonical (negate [⟨0, 96⟩]) ∧
        ∀ c ≤ kMaxUC16CharCode, (Covered (negate [⟨0, 96⟩]) c ↔ ¬Covered [⟨0, 96⟩] c)) ↔
      ∃ range rest, [(⟨0, 96⟩ : CharacterRange)] = range :: rest ∧ range.from_ = 0) ∧
    negate (negate [⟨0, 96⟩]) ≠ [⟨0, 96⟩] :=
  negate_complement [⟨0, 96⟩] (canonical_cons.2
    ⟨by simp [CharacterRange.Valid, kMaxUC16CharCode], by simp, canonical_nil⟩)

/-- The complement of no characters lacks character 0. -/
theorem negate_misses_zero : ¬∀ ranges, Canonical ranges → (Canonical (negate ranges) ∧
      ∀ c ≤ kMaxUC16CharCode, (Covered (negate ranges) c ↔ ¬Covered ranges c)) ∧
    negate (negate ranges) = ranges := by
  intro h
  have hzero := ((h [] canonical_nil).1.2 0 (Nat.zero_le _)).2 not_covered_nil
  simp [negate_nil] at hzero

end W16.CharacterRanges
