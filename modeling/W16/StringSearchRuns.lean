import W16.StringSearchSuffixes
import Mathlib.Tactic.Basic

/-!
# Searches find the first occurrence
-/
namespace W16.StringSearches

open Borders List

set_option linter.dupNamespace false

/-! ## Occurrences -/

/-- The pattern stands in the subject at `i`. -/
def Occurs (pattern subject : List Nat) (i : Nat) : Prop := pattern <+: subject.drop i

/-- `r` is the first place from `index` on where the pattern stands, or `-1` if there is none. -/
def IsFirst (pattern subject : List Nat) (index : Nat) (r : Int) : Prop :=
  (r = -1 ∧ ∀ i, index ≤ i → ¬Occurs pattern subject i) ∨
    ∃ i : Nat, r = i ∧ index ≤ i ∧ Occurs pattern subject i ∧ ∀ k, index ≤ k → k < i → ¬Occurs pattern subject k

variable {pattern subject : List Nat} {index i k : Nat} {r : Int}

theorem occurs_iff (hne : pattern ≠ []) : Occurs pattern subject i ↔ i + pattern.length ≤ subject.length ∧
      ∀ q < pattern.length, subject.getD (i + q) 0 = pattern.getD q 0 := by
  have hpos := length_pos_of_ne_nil hne
  rw [Occurs, prefix_iff_eq_take]
  constructor
  · intro h
    have hlen : i + pattern.length ≤ subject.length := by
      have := congrArg List.length h
      grind
    grind
  · rintro ⟨hlen, hall⟩
    apply ext_getElem?
    intro q
    rw [getElem?_take, getElem?_drop]
    by_cases hq : q < pattern.length
    · have := hall q hq
      rw [getD_eq_getElem?_getD, getD_eq_getElem?_getD, getElem?_eq_getElem hq,
        getElem?_eq_getElem (show i + q < subject.length by omega)] at this
      rw [if_pos hq, getElem?_eq_getElem hq,
        getElem?_eq_getElem (show i + q < subject.length by omega)]
      exact congrArg some this.symm
    grind

theorem IsFirst.skip (hle : index ≤ i) (hskip : ∀ k, index ≤ k → k < i → ¬Occurs pattern subject k)
    (h : IsFirst pattern subject i r) : IsFirst pattern subject index r := by
  have hall : ∀ k, index ≤ k → (i ≤ k → ¬Occurs pattern subject k) → ¬Occurs pattern subject k := by
    grind
  rcases h with ⟨hr, hnone⟩ | ⟨j, hr, hij, hocc, hbefore⟩
  · exact .inl ⟨hr, fun k hk => hall k hk (hnone k)⟩
  · exact .inr ⟨j, hr, Nat.le_trans hle hij, hocc, fun k hk hkj => hall k hk fun hik => hbefore k hik hkj⟩

theorem IsFirst.here (h : Occurs pattern subject i) : IsFirst pattern subject i i :=
  .inr ⟨i, rfl, Nat.le_refl _, h, fun _ _ _ => by omega⟩

theorem IsFirst.beyond (hne : pattern ≠ []) (h : subject.length < i + pattern.length) :
    IsFirst pattern subject i (-1) := by
  refine .inl ⟨rfl, fun k hk hocc => ?_⟩
  have := ((occurs_iff hne).1 hocc).1
  omega

/-- One place without an occurrence. -/
theorem IsFirst.next (hnot : ¬Occurs pattern subject i) (h : IsFirst pattern subject (i + 1) r) :
    IsFirst pattern subject i r := by
  refine h.skip (Nat.le_succ _) fun k hk hki => ?_
  obtain rfl : k = i := by omega
  exact hnot

theorem not_occurs_of_first (hne : pattern ≠ []) (h : subject.getD i 0 ≠ pattern.getD 0 0) :
    ¬Occurs pattern subject i := by
  grind [occurs_iff]

/-! ## Short patterns -/

theorem memchr_spec (subject : List Nat) (c n i : Nat) : match memchr subject i c n with
    | none => ∀ k, i ≤ k → k < i + n → subject.getD k 0 ≠ c
    | some p => i ≤ p ∧ p < i + n ∧ subject.getD p 0 = c ∧ ∀ k, i ≤ k → k < p → subject.getD k 0 ≠ c := by
  induction n generalizing i with
  | zero => exact fun k hk hlt => by omega
  | succ n ih =>
    rw [memchr]
    by_cases hc : subject.getD i 0 = c
    · grind
    · rw [if_neg hc]
      grind

theorem charCompare_iff (rest : List Nat) (i : Nat) : charCompare subject rest i = true ↔
      ∀ q < rest.length, subject.getD (i + q) 0 = rest.getD q 0 := by
  induction rest generalizing i with
  | nil => simp [charCompare]
  | cons c rest ih =>
    rw [charCompare]
    by_cases hc : c ≠ subject.getD i 0
    · rw [if_pos hc]
      exact ⟨fun h => (nomatch h), fun h => absurd (h 0 (Nat.succ_pos _)).symm hc⟩
    · rw [if_neg hc, ih]
      have hc := Decidable.not_not.1 hc
      constructor
      · grind
      · intro h q hq
        have := h (q + 1) (Nat.succ_lt_succ hq)
        grind

/-- The rest of the pattern is compared after its first character has been found. -/
theorem charCompare_occurs (hne : pattern ≠ []) (hfirst : subject.getD i 0 = pattern.getD 0 0)
    (hfits : i + pattern.length ≤ subject.length) :
    charCompare subject pattern.tail (i + 1) = true ↔ Occurs pattern subject i := by
  rw [charCompare_iff, occurs_iff hne]
  cases pattern with
  | nil => exact absurd rfl hne
  | cons c rest =>
    constructor
    · grind
    · grind

/-- Characters that can be compared after a cast. -/
theorem cast_of_fits {w : Width} {c : Nat} (h : w.Fits c) : w.cast c = c := by
  cases w with
  | one => exact Nat.mod_eq_of_lt (Nat.lt_of_le_of_lt h (by decide))
  | two => exact Nat.mod_eq_of_lt h

variable {patternChar subjectChar : Width} {s : StringSearch}

theorem singleCharSearch_isFirst (hlen : s.pattern.length = 1) (hfits : ∀ c ∈ s.pattern, subjectChar.Fits c) :
    IsFirst s.pattern subject index (singleCharSearch patternChar subjectChar s subject index) := by
  obtain ⟨c, hc⟩ := length_eq_one_iff.1 hlen
  have hcfits := hfits c (by rw [hc]; exact mem_singleton.2 rfl)
  have hoccurs : ∀ i, Occurs s.pattern subject i ↔ i < subject.length ∧ subject.getD i 0 = c := by
    intro i
    rw [hc, occurs_iff (by simp)]
    grind
  have hfound : ∀ c', c' = c → IsFirst s.pattern subject index
      (match memchr subject index c' (subject.length - index) with
        | none => -1
        | some i => (i : Int)) := by
    intro c' hc'
    rw [hc']
    have hspec := memchr_spec subject c (subject.length - index) index
    revert hspec
    cases memchr subject index c (subject.length - index) with
    | none =>
      refine fun h => .inl ⟨rfl, fun i hi hocc => ?_⟩
      grind
    | some p =>
      rintro ⟨hle, hlt, heq, hbefore⟩
      exact .inr ⟨p, rfl, hle, (hoccurs p).2 ⟨by omega, heq⟩,
        fun k hk hkp hocc => hbefore k hk hkp ((hoccurs k).1 hocc).2⟩
  have hfirst : s.pattern.getD 0 0 = c := by
    rw [hc]
    rfl
  rw [singleCharSearch]
  simp only [hfirst]
  split
  · exact hfound c rfl
  · split
    · next hlarge =>
      rw [hlarge.2.1] at hcfits
      exact absurd hlarge.2.2 (Nat.not_lt.2 hcfits)
    · exact hfound _ (cast_of_fits hcfits)

theorem linearLoop_isFirst (hne : s.pattern ≠ []) (fuel : Nat) (hpos : 0 < fuel)
    (hfuel : subject.length < fuel + i) :
    ∃ r, linearLoop patternChar subjectChar s subject fuel i = some r ∧ IsFirst s.pattern subject i r := by
  have hlen := length_pos_of_ne_nil hne
  induction fuel generalizing i with
  | zero => exact absurd hpos (Nat.lt_irrefl _)
  | succ fuel ih =>
    rw [linearLoop]
    split
    · next hin =>
      have hin : i + s.pattern.length ≤ subject.length := by omega
      -- what is done at a place with the first character
      have hat : ∀ p, i ≤ p → p + s.pattern.length ≤ subject.length → subject.getD p 0 = s.pattern.getD 0 0 →
          (∀ k, i ≤ k → k < p → subject.getD k 0 ≠ s.pattern.getD 0 0) →
          ∃ r, (if charCompare subject s.pattern.tail (p + 1) = true then some (p : Int)
            else linearLoop patternChar subjectChar s subject fuel (p + 1)) = some r ∧
            IsFirst s.pattern subject i r := by
        intro p hip hfits hfirst hbefore
        have hskip : ∀ k, i ≤ k → k < p → ¬Occurs s.pattern subject k := fun k hk hkp =>
          not_occurs_of_first hne (hbefore k hk hkp)
        split
        · next hcompare =>
          exact ⟨p, rfl, .skip hip hskip (.here ((charCompare_occurs hne hfirst hfits).1 hcompare))⟩
        · next hcompare =>
          obtain ⟨r, hrun, hr⟩ := ih (i := p + 1) (by omega) (by omega)
          refine ⟨r, hrun, .skip hip hskip (.next (fun hocc => hcompare ?_) hr)⟩
          exact (charCompare_occurs hne hfirst hfits).2 hocc
      split
      · have hspec := memchr_spec subject (s.pattern.getD 0 0)
          ((subject.length : Int) - s.pattern.length - i + 1).toNat i
        revert hspec
        cases memchr subject i (s.pattern.getD 0 0)
            ((subject.length : Int) - s.pattern.length - i + 1).toNat with
        | none =>
          refine fun h => ⟨-1, rfl, .inl ⟨rfl, fun k hk hocc => ?_⟩⟩
          have hkin := ((occurs_iff hne).1 hocc).1
          exact not_occurs_of_first hne (h k hk (by omega)) hocc
        | some p =>
          grind
      · split
        · next hfirst =>
          obtain ⟨r, hrun, hr⟩ := ih (i := i + 1) (by omega) (by omega)
          exact ⟨r, hrun, .next (not_occurs_of_first hne hfirst) hr⟩
        grind
    · exact ⟨-1, rfl, .beyond hne (by omega)⟩

/-! ## Boyer-Moore -/

/-- What the Boyer-Moore searches know of a subject. -/
structure Subject (patternChar subjectChar : Width) (s : StringSearch) (subject : List Nat) : Prop where
  two_le : 2 ≤ s.pattern.length
  fits : ∀ c ∈ subject, subjectChar.Fits c
  pattern_fits : ∀ c ∈ s.pattern, subjectChar.Fits c
  badChars : BadChars patternChar subjectChar s.pattern s.tables.badChar

theorem Subject.ne_nil (h : Subject patternChar subjectChar s subject) : s.pattern ≠ [] :=
  ne_nil_of_length_pos (Nat.lt_of_lt_of_le (by decide) h.two_le)

theorem get_natCast (subject : List Nat) (i : Nat) : get subject (i : Int) = subject.getD i 0 := rfl

/-- A shift by the character at some place of the pattern leaves no occurrence out. -/
theorem Subject.shift_safe (h : Subject patternChar subjectChar s subject) {j : Nat}
    (hj : j < s.pattern.length) (hin : i + s.pattern.length ≤ subject.length) (hik : i < k)
    (hk : (k : Int) < i + (j - charOccurrence patternChar subjectChar s.tables.badChar
      (subject.getD (i + j) 0))) : ¬Occurs s.pattern subject k := by
  intro hocc
  have hc : subjectChar.Fits (subject.getD (i + j) 0) := h.fits _ (getD_mem (by omega) 0)
  have hlower := h.badChars.lower _ hc
  obtain ⟨q, hq⟩ : ∃ q, k + q = i + j := ⟨i + j - k, by omega⟩
  have hsame := ((occurs_iff h.ne_nil).1 hocc).2 q (by omega)
  rw [hq] at hsame
  have hlast := h.badChars.last _ hc q (by omega) hsame.symm
  omega

/-- The loop over the last character ends at a place that has it, and passes no occurrence. -/
theorem skipToLastChar_spec (h : Subject patternChar subjectChar s subject) (badness : Int)
    (fuel : Nat) (hin : i + s.pattern.length ≤ subject.length)
    (hfuel : subject.length < fuel + i) :
    ∃ r, skipToLastChar patternChar subjectChar s subject fuel i badness = some r ∧ match r with
      | none => ∀ k, i ≤ k → ¬Occurs s.pattern subject k
      | some (index, _) => ∃ i' : Nat, index = i' ∧ i ≤ i' ∧ i' + s.pattern.length ≤ subject.length ∧
          subject.getD (i' + (s.pattern.length - 1)) 0 = s.pattern.getD (s.pattern.length - 1) 0 ∧
          ∀ k, i ≤ k → k < i' → ¬Occurs s.pattern subject k := by
  have htwo := h.two_le
  have hlast : (s.pattern.length : Int) - 1 = ((s.pattern.length - 1 : Nat) : Int) := by omega
  induction fuel generalizing i badness with
  | zero => omega
  | succ fuel ih =>
    rw [skipToLastChar]
    simp only [hlast, ← Int.natCast_add, get_natCast]
    split
    · next hne =>
      have hc := h.fits _ (getD_mem (show i + (s.pattern.length - 1) < subject.length by omega) 0)
      have hupper := h.badChars.upper _ hc
      have hlower := h.badChars.lower _ hc
      have hnot : ∀ k, i ≤ k → (k : Int) < i + (((s.pattern.length - 1 : Nat) : Int) -
          charOccurrence patternChar subjectChar s.tables.badChar
            (subject.getD (i + (s.pattern.length - 1)) 0)) → ¬Occurs s.pattern subject k := by
        intro k hk hlt
        rcases Nat.eq_or_lt_of_le hk with rfl | hk
        · intro hocc
          exact hne (((occurs_iff h.ne_nil).1 hocc).2 _ (by omega)).symm
        · exact h.shift_safe (by omega) hin hk hlt
      revert hupper hlower hnot
      generalize charOccurrence patternChar subjectChar s.tables.badChar
        (subject.getD (i + (s.pattern.length - 1)) 0) = occ
      intro hupper hlower hnot
      split
      · next hout =>
        refine ⟨none, rfl, fun k hk hocc => ?_⟩
        have hkin := ((occurs_iff h.ne_nil).1 hocc).1
        exact hnot k hk (by omega) hocc
      · next hgo =>
        obtain ⟨i', hi'⟩ : ∃ i' : Nat, (i : Int) + (((s.pattern.length - 1 : Nat) : Int) - occ) = i' :=
          ⟨(i + (((s.pattern.length - 1 : Nat) : Int) - occ)).toNat, by omega⟩
        rw [hi'] at hgo hnot ⊢
        obtain ⟨r, hrun, hr⟩ := ih (i := i') _ (by omega) (by omega)
        refine ⟨r, hrun, ?_⟩
        have hall : ∀ k, i ≤ k → (i' ≤ k → ¬Occurs s.pattern subject k) → ¬Occurs s.pattern subject k := by
          grind
        revert hr
        cases r with
        | none => exact fun hr k hk => hall k hk (hr k)
        | some p =>
          rintro ⟨i'', hindex, hle, hin'', hsame, hbefore⟩
          exact ⟨i'', hindex, by omega, hin'', hsame, fun k hk hlt => hall k hk fun hik => hbefore k hik hlt⟩
    grind

/-- Comparison from the end stops at the last difference. -/
theorem matchBack_spec (pattern subject : List Nat) (i n : Nat) :
    (matchBack pattern subject i n = -1 ∧ ∀ q < n, pattern.getD q 0 = subject.getD (i + q) 0) ∨
      ∃ j : Nat, matchBack pattern subject i n = j ∧ j < n ∧ pattern.getD j 0 ≠ subject.getD (i + j) 0 ∧
        ∀ q, j < q → q < n → pattern.getD q 0 = subject.getD (i + q) 0 := by
  induction n with
  | zero => exact .inl ⟨rfl, fun q hq => nomatch hq⟩
  | succ n ih =>
    rw [matchBack]
    by_cases hn : pattern.getD n 0 = get subject ((i : Int) + n)
    · rw [if_pos hn]
      have hall : ∀ q, q < n + 1 → (q < n → pattern.getD q 0 = subject.getD (i + q) 0) →
          pattern.getD q 0 = subject.getD (i + q) 0 := by
        intro q hq hbelow
        rcases Nat.lt_succ_iff_lt_or_eq.1 hq with hlt | rfl
        · exact hbelow hlt
        · exact hn
      rcases ih with ⟨hr, hsame⟩ | ⟨j, hr, hj, hne, hsame⟩
      · grind
      grind
    · rw [if_neg hn]
      exact .inr ⟨n, rfl, Nat.lt_succ_self _, hn, fun q hnq hq => by omega⟩

/-- A shift by the table of good suffixes leaves no occurrence out. -/
theorem goodShift_safe {start : Nat} {shiftTable : List Int} (hne : pattern ≠ [])
    (hgood : GoodShifts pattern start shiftTable) {j : Nat} (hstart : start ≤ j)
    (hj : j + 1 < pattern.length) (hmismatch : pattern.getD j 0 ≠ subject.getD (i + j) 0)
    (hmatch : ∀ q, j < q → q < pattern.length → pattern.getD q 0 = subject.getD (i + q) 0)
    (hik : i < k) (hk : (k : Int) < i + shiftTable.getD (j + 1 - start) 0) :
    ¬Occurs pattern subject k := by
  intro hocc
  obtain ⟨d, rfl⟩ : ∃ d, k = i + d := ⟨k - i, by omega⟩
  have hall := ((occurs_iff hne).1 hocc).2
  rcases shift_cases (t := fun q => subject.getD (i + q) 0) (s := chars pattern) (d := d) hstart
    (Nat.le_of_lt hj) (fun q hjq hq => (hmatch q hjq hq).symm) (Ne.symm hmismatch)
    (fun q _ hq => by
      grind) with
    ⟨m, hsm, hmd, hborder, hdiff⟩ | ⟨hjd, hborder⟩
  · have := hgood.inside m j hsm hj hborder hdiff
    omega
  · rcases hborder with hlen | hborder
    · have := hgood.whole (j + 1) pattern.length (by omega) hj (by omega) (border_len (by omega))
      omega
    · have := hgood.whole (j + 1) (start + d) (by omega) hj (by omega) hborder
      omega

/-- The search goes on at a later place, before which there is no occurrence. -/
theorem continue_isFirst (step : Int) (hstep : 1 ≤ step) (hle : index ≤ i)
    (hbefore : ∀ k, index ≤ k → k < i → ¬Occurs pattern subject k)
    (hhere : ¬Occurs pattern subject i)
    (hsafe : ∀ k, i < k → (k : Int) < i + step → ¬Occurs pattern subject k) :
    ∃ i' : Nat, (i : Int) + step = i' ∧ i < i' ∧
      ∀ r, IsFirst pattern subject i' r → IsFirst pattern subject index r := by
  refine ⟨(i + step).toNat, by omega, by omega, fun r hr => ?_⟩
  refine hr.skip (by omega) fun k hk hlt => ?_
  grind

/-- The shift by the last character of the pattern. -/
theorem Subject.last_shift (h : Subject patternChar subjectChar s subject)
    (hin : i + s.pattern.length ≤ subject.length)
    (hlast : subject.getD (i + (s.pattern.length - 1)) 0 = s.pattern.getD (s.pattern.length - 1) 0) {step : Int}
    (hstep : (s.pattern.length : Int) - 1 - charOccurrence patternChar subjectChar s.tables.badChar
      (subjectChar.cast (get s.pattern ((s.pattern.length : Int) - 1))) = step) :
    1 ≤ step ∧ ∀ k, i < k → (k : Int) < i + step → ¬Occurs s.pattern subject k := by
  have htwo := h.two_le
  have hnat : (s.pattern.length : Int) - 1 = ((s.pattern.length - 1 : Nat) : Int) := by omega
  have hc := h.fits _ (getD_mem (show i + (s.pattern.length - 1) < subject.length by omega) 0)
  have hupper := h.badChars.upper _ hc
  rw [hnat, get_natCast, ← hlast, cast_of_fits hc] at hstep
  have hj : s.pattern.length - 1 < s.pattern.length := by omega
  exact ⟨by omega, fun k hik hk => h.shift_safe hj hin hik (by omega)⟩

theorem boyerMooreSearch_isFirst (h : Subject patternChar subjectChar s subject)
    (hgood : GoodShifts s.pattern s.start s.tables.goodSuffixShift) (fuel : Nat) (hpos : 0 < fuel)
    (hfuel : subject.length < fuel + i) :
    ∃ r, boyerMooreSearch patternChar subjectChar s subject fuel i = some r ∧
      IsFirst s.pattern subject i r := by
  induction fuel generalizing i with
  | zero => exact absurd hpos (Nat.lt_irrefl _)
  | succ fuel ih =>
    rw [boyerMooreSearch]
    split
    · next hin =>
      obtain ⟨r, hskip, hr⟩ := skipToLastChar_spec h 0 (fuel + 1) (i := i) (by omega) hfuel
      rw [hskip]
      revert hr
      cases r with
      | none => exact fun hr => ⟨-1, rfl, .inl ⟨rfl, hr⟩⟩
      | some p =>
        rintro ⟨i', hindex, hle, hin', hlast, hbefore⟩
        obtain ⟨_, badness⟩ := p
        obtain rfl := hindex
        simp only
        rcases matchBack_spec s.pattern subject i' s.pattern.length with
          ⟨hj, hsame⟩ | ⟨j, hj, hjlen, hmismatch, hmatch⟩
        · rw [hj, if_pos (by decide)]
          refine ⟨i', rfl, .skip hle hbefore (.here ((occurs_iff h.ne_nil).2 ⟨hin', ?_⟩))⟩
          exact fun q hq => (hsame q hq).symm
        · rw [hj, if_neg (by omega)]
          have hhere : ¬Occurs s.pattern subject i' := fun hocc =>
            hmismatch (((occurs_iff h.ne_nil).1 hocc).2 j hjlen).symm
          split
          · obtain ⟨hstep, hsafe⟩ := h.last_shift hin' hlast rfl
            obtain ⟨i'', hi'', hlt, hnext⟩ := continue_isFirst _ hstep hle hbefore hhere hsafe
            rw [hi'']
            obtain ⟨r, hrun, hr⟩ := ih (i := i'') (by omega) (by omega)
            exact ⟨r, hrun, hnext r hr⟩
          · next hstart =>
            have hne : j ≠ s.pattern.length - 1 := by
              grind
            have hpos' := hgood.pos (j + 1) (by omega) (by omega)
            have hgood' := fun k => @goodShift_safe s.pattern subject i' k s.start
              s.tables.goodSuffixShift h.ne_nil hgood j (by omega) (by omega) hmismatch hmatch
            have hbad : ∀ k, i' < k → (k : Int) < i' + (j - charOccurrence patternChar subjectChar
                s.tables.badChar (get subject ((i' : Int) + j))) → ¬Occurs s.pattern subject k :=
              fun k => h.shift_safe hjlen hin'
            rw [show ((j : Int) + 1).toNat - s.start = j + 1 - s.start by omega]
            revert hbad
            generalize charOccurrence patternChar subjectChar s.tables.badChar
              (get subject ((i' : Int) + j)) = occ
            intro hbad
            obtain ⟨i'', hi'', hlt, hnext⟩ := continue_isFirst
              (if s.tables.goodSuffixShift.getD (j + 1 - s.start) 0 > (j : Int) - occ then
                s.tables.goodSuffixShift.getD (j + 1 - s.start) 0 else (j : Int) - occ)
              (by split <;> omega) hle hbefore hhere
              (fun k hik hk => by
                split at hk
                · exact hgood' k hik hk
                · exact hbad k hik hk)
            rw [hi'']
            obtain ⟨r, hrun, hr⟩ := ih (i := i'') (by omega) (by omega)
            exact ⟨r, hrun, hnext r hr⟩
    · exact ⟨-1, rfl, .beyond h.ne_nil (by omega)⟩

/-! ## Changing the strategy -/

/-- What the strategy of a search object stands for. -/
structure Ready (patternChar subjectChar : Width) (pattern : List Nat) (s : StringSearch) : Prop where
  pattern_eq : s.pattern = pattern
  ne_nil : pattern ≠ []
  fits : ∀ c ∈ pattern, patternChar.Fits c
  start : s.start = pattern.length - kBMMaxShift
  strategy : match s.strategy with
    | .failSearch => ∃ c ∈ pattern, ¬subjectChar.Fits c
    | .singleCharSearch => pattern.length = 1 ∧ ∀ c ∈ pattern, subjectChar.Fits c
    | .linearSearch => True
    | .initialSearch =>
      2 ≤ pattern.length ∧ (∀ c ∈ pattern, subjectChar.Fits c) ∧ s.tables.Sized
    | .boyerMooreHorspoolSearch =>
      2 ≤ pattern.length ∧ (∀ c ∈ pattern, subjectChar.Fits c) ∧ s.tables.Sized ∧
        BadChars patternChar subjectChar pattern s.tables.badChar
    | .boyerMooreSearch =>
      2 ≤ pattern.length ∧ (∀ c ∈ pattern, subjectChar.Fits c) ∧
        BadChars patternChar subjectChar pattern s.tables.badChar ∧
        GoodShifts pattern s.start s.tables.goodSuffixShift

/-- The result of a search, with the object afterwards. -/
def Finds (patternChar subjectChar : Width) (pattern subject : List Nat) (index : Nat)
    (r : Option (Int × StringSearch)) : Prop :=
  ∃ i s, r = some (i, s) ∧ IsFirst pattern subject index i ∧ Ready patternChar subjectChar pattern s

theorem boyerMooreHorspoolSearch_finds (hready : Ready patternChar subjectChar pattern s)
    (hstrategy : s.strategy = .boyerMooreHorspoolSearch) (hsubject : ∀ c ∈ subject, subjectChar.Fits c)
    (fuel : Nat) (hfuel : 2 * pattern.length + 2 + subject.length < fuel + i) (hpos : 0 < fuel)
    (badness : Int) :
    Finds patternChar subjectChar pattern subject i
      (boyerMooreHorspoolSearch patternChar subjectChar s subject fuel i badness) := by
  have hkeep := hready
  obtain ⟨hpat, hne, hfits, hstart, hmatch⟩ := hready
  rw [hstrategy] at hmatch
  obtain ⟨htwo, hsfits, hsized, hbadChars⟩ := hmatch
  have h : Subject patternChar subjectChar s subject :=
    ⟨hpat ▸ htwo, hsubject, hpat ▸ hsfits, hpat ▸ hbadChars⟩
  induction fuel generalizing i badness with
  | zero => exact absurd hpos (Nat.lt_irrefl _)
  | succ fuel ih =>
    rw [boyerMooreHorspoolSearch]
    split
    · next hin =>
      rw [hpat] at hin
      obtain ⟨r, hskip, hr⟩ := skipToLastChar_spec h badness (fuel + 1) (i := i)
        (by rw [hpat]; omega) (by omega)
      rw [hskip]
      revert hr
      cases r with
      | none => exact fun hr => ⟨-1, s, rfl, .inl ⟨rfl, hpat ▸ hr⟩, hkeep⟩
      | some p =>
        rintro ⟨i', hindex, hle, hin', hlast, hbefore⟩
        obtain ⟨_, badness'⟩ := p
        obtain rfl := hindex
        simp only
        rcases matchBack_spec s.pattern subject i' (s.pattern.length - 1) with
          ⟨hj, hsame⟩ | ⟨j, hj, hjlen, hmismatch, hmatch⟩
        · rw [hj, if_pos (by decide)]
          refine ⟨i', s, rfl, ?_, hkeep⟩
          rw [← hpat]
          refine .skip hle hbefore (.here ((occurs_iff h.ne_nil).2 ⟨hin', fun q hq => ?_⟩))
          by_cases hqlast : q = s.pattern.length - 1
          · rw [hqlast, hlast]
          · exact (hsame q (by omega)).symm
        · rw [hj, if_neg (by omega)]
          have hhere : ¬Occurs s.pattern subject i' := fun hocc =>
            hmismatch (((occurs_iff h.ne_nil).1 hocc).2 j (by omega)).symm
          obtain ⟨hstep, hsafe⟩ := h.last_shift hin' hlast rfl
          obtain ⟨i'', hi'', hlt, hnext⟩ := continue_isFirst _ hstep hle hbefore hhere hsafe
          rw [hi'']
          rw [hpat] at hnext hin'
          split
          · obtain ⟨s', hpopulate, hpat', hstart', hbadChar', hgood⟩ :=
              populateBoyerMooreTable_spec hsized (by rw [hpat]; exact hstart)
                (fuel + 1) (by rw [hpat]; omega)
            rw [hpat] at hpat' hgood
            have h' : Subject patternChar subjectChar { s' with strategy := .boyerMooreSearch } subject := by
              refine ⟨?_, hsubject, ?_, ?_⟩
              · rw [hpat']
                exact htwo
              · rw [hpat']
                exact hsfits
              grind
            have hgood' : GoodShifts s'.pattern s'.start s'.tables.goodSuffixShift := by
              rw [hpat', hstart']
              exact hgood
            obtain ⟨r, hrun, hr⟩ := boyerMooreSearch_isFirst h' hgood' (fuel + 1) (i := i'')
              (Nat.succ_pos _) (by omega)
            rw [hpat'] at hr
            refine ⟨r, { s' with strategy := .boyerMooreSearch }, ?_, hnext r hr,
              hpat', hne, hfits, hstart'.trans hstart, htwo, hsfits, ?_, ?_⟩
            · grind
            · rw [hbadChar']
              exact hbadChars
            · rw [hstart']
              exact hgood
          · obtain ⟨r, s', hrun, hr, hready'⟩ := ih (i := i'') (by omega) (by omega) _
            exact ⟨r, s', hrun, hnext r hr, hready'⟩
    · next hout =>
      rw [hpat] at hout
      exact ⟨-1, s, rfl, .beyond hne (by omega), hkeep⟩

theorem matchForward_spec (pattern subject : List Nat) (i n j : Nat) :
    (matchForward pattern subject i n j = j + n ∧
      ∀ q, j ≤ q → q < j + n → pattern.getD q 0 = subject.getD (i + q) 0) ∨
    ∃ q, matchForward pattern subject i n j = q ∧ j ≤ q ∧ q < j + n ∧
      pattern.getD q 0 ≠ subject.getD (i + q) 0 := by
  induction n generalizing j with
  | zero => exact .inl ⟨rfl, fun q hq hlt => by omega⟩
  | succ n ih =>
    rw [matchForward]
    by_cases hj : pattern.getD j 0 ≠ subject.getD (i + j) 0
    · grind
    · rw [if_neg hj]
      rcases ih (j + 1) with ⟨hr, hsame⟩ | ⟨q, hr, hle, hlt, hne⟩
      · grind
      grind

/-- The comparison at a place with the first character. -/
theorem matchForward_occurs (htwo : 2 ≤ pattern.length)
    (hfirst : subject.getD i 0 = pattern.getD 0 0) (hin : i + pattern.length ≤ subject.length) :
    matchForward pattern subject i (pattern.length - 1) 1 = pattern.length ↔ Occurs pattern subject i := by
  have hne : pattern ≠ [] := ne_nil_of_length_pos (by omega)
  rw [occurs_iff hne]
  rcases matchForward_spec pattern subject i (pattern.length - 1) 1 with
    ⟨hr, hsame⟩ | ⟨q, hr, hle, hlt, hdiff⟩
  · refine ⟨fun _ => ⟨hin, fun q hq => ?_⟩, fun _ => by omega⟩
    cases q with
    | zero => exact hfirst
    | succ q => exact (hsame (q + 1) (by omega) (by omega)).symm
  grind

theorem initialSearch_finds (hready : Ready patternChar subjectChar pattern s)
    (hstrategy : s.strategy = .initialSearch) (hsubject : ∀ c ∈ subject, subjectChar.Fits c)
    (fuel : Nat) (hfuel : 2 * pattern.length + 2 + subject.length < fuel + i) (hpos : 0 < fuel)
    (badness : Int) :
    Finds patternChar subjectChar pattern subject i
      (initialSearch patternChar subjectChar s subject fuel i badness) := by
  have hkeep := hready
  obtain ⟨hpat, hne, hfits, hstart, hmatch⟩ := hready
  rw [hstrategy] at hmatch
  obtain ⟨htwo, hsfits, hsized⟩ := hmatch
  induction fuel generalizing i badness with
  | zero => exact absurd hpos (Nat.lt_irrefl _)
  | succ fuel ih =>
    rw [initialSearch]
    simp only [hpat]
    split
    · next hin =>
      split
      · -- what is done at a place with the first character
        have hat : ∀ p, i ≤ p → p + pattern.length ≤ subject.length → subject.getD p 0 = pattern.getD 0 0 →
            (∀ k, i ≤ k → k < p → subject.getD k 0 ≠ pattern.getD 0 0) →
            ∀ b, Finds patternChar subjectChar pattern subject i
              (if matchForward pattern subject p (pattern.length - 1) 1 = pattern.length then
                some ((p : Int), s)
              else initialSearch patternChar subjectChar s subject fuel (p + 1) b) := by
          intro p hip hpin hfirst hbefore b
          have hskip : ∀ k, i ≤ k → k < p → ¬Occurs pattern subject k := fun k hk hkp =>
            not_occurs_of_first hne (hbefore k hk hkp)
          have hiff := matchForward_occurs htwo hfirst hpin
          split
          · next hfull =>
            exact ⟨p, s, rfl, .skip hip hskip (.here (hiff.1 hfull)), hkeep⟩
          · next hpart =>
            obtain ⟨r, s', hrun, hr, hready'⟩ := ih (i := p + 1) (by omega) (by omega) b
            exact ⟨r, s', hrun, .skip hip hskip (.next (fun hocc => hpart (hiff.2 hocc)) hr), hready'⟩
        split
        · have hspec := memchr_spec subject (pattern.getD 0 0)
            ((subject.length : Int) - pattern.length - i + 1).toNat i
          revert hspec
          cases memchr subject i (pattern.getD 0 0) ((subject.length : Int) - pattern.length - i + 1).toNat with
          | none =>
            refine fun h => ⟨-1, s, rfl, .inl ⟨rfl, fun k hk hocc => ?_⟩, hkeep⟩
            have hkin := ((occurs_iff hne).1 hocc).1
            exact not_occurs_of_first hne (h k hk (by omega)) hocc
          | some p =>
            rintro ⟨hle, hlt, heq, hbefore⟩
            exact hat p hle (by omega) heq hbefore _
        · split
          · next hfirst =>
            obtain ⟨r, s', hrun, hr, hready'⟩ := ih (i := i + 1) (by omega) (by omega) (badness + 1)
            exact ⟨r, s', hrun, .next (not_occurs_of_first hne hfirst) hr, hready'⟩
          · next hfirst =>
            exact hat i (Nat.le_refl _) (by omega) (Decidable.not_not.1 hfirst) (fun k hk hlt => by omega) _
      · have hbad := @badChars_populate patternChar subjectChar s (by rw [hpat]; exact hfits)
          hsized (by rw [hpat, hstart]; simp only [kBMMaxShift]; omega)
        have hsized' := (@occurrences_populate patternChar s (by rw [hpat]; exact hfits)
          hsized (by rw [hpat, hstart]; simp only [kBMMaxShift]; omega)).2
        rw [hpat] at hbad
        refine boyerMooreHorspoolSearch_finds ?_ rfl hsubject (fuel + 1) hfuel (Nat.succ_pos _) _
        exact ⟨hpat, hne, hfits, hstart, htwo, hsfits, hsized', hbad⟩
    · exact ⟨-1, s, rfl, .beyond hne (by omega), hkeep⟩

/-! ## Any sequence of searches -/

theorem search_finds (hready : Ready patternChar subjectChar pattern s)
    (hsubject : ∀ c ∈ subject, subjectChar.Fits c) (fuel : Nat)
    (hfuel : 2 * pattern.length + 2 + subject.length < fuel) (index : Nat) :
    Finds patternChar subjectChar pattern subject index
      (search patternChar subjectChar fuel s subject index) := by
  have hkeep := hready
  obtain ⟨hpat, hne, hfits, hstart, hmatch⟩ := hready
  rw [search]
  cases hstrategy : s.strategy with
  | failSearch =>
    rw [hstrategy] at hmatch
    obtain ⟨c, hc, hnot⟩ := hmatch
    refine ⟨-1, s, rfl, .inl ⟨rfl, fun i _ hocc => hnot ?_⟩, hkeep⟩
    obtain ⟨hin, hall⟩ := (occurs_iff hne).1 hocc
    obtain ⟨q, hq, rfl⟩ := getElem_of_mem hc
    have hsame := hall q hq
    have hpatAt : pattern.getD q 0 = pattern[q] := by
      grind
    rw [hpatAt] at hsame
    rw [← hsame]
    exact hsubject _ (getD_mem (by omega) 0)
  | singleCharSearch =>
    rw [hstrategy] at hmatch
    refine ⟨_, s, rfl, ?_, hkeep⟩
    grind [singleCharSearch_isFirst]
  | linearSearch =>
    obtain ⟨r, hrun, hr⟩ := @linearLoop_isFirst subject index patternChar subjectChar s
      (hpat ▸ hne) fuel (by omega) (by omega)
    refine ⟨r, s, ?_, hpat ▸ hr, hkeep⟩
    simp only [hrun, Option.map_some]
  | initialSearch => grind [initialSearch_finds]
  | boyerMooreHorspoolSearch =>
    grind [boyerMooreHorspoolSearch_finds]
  | boyerMooreSearch =>
    rw [hstrategy] at hmatch
    obtain ⟨htwo, hsfits, hbadChars, hgood⟩ := hmatch
    rw [← hpat] at htwo hsfits hbadChars hgood
    obtain ⟨r, hrun, hr⟩ := boyerMooreSearch_isFirst ⟨htwo, hsubject, hsfits, hbadChars⟩ hgood fuel
      (i := index) (by omega) (by omega)
    refine ⟨r, s, ?_, hpat ▸ hr, hkeep⟩
    simp only [hrun, Option.map_some]

theorem ready_new (hne : pattern ≠ []) (hfits : ∀ c ∈ pattern, patternChar.Fits c) {tables : Tables}
    (hsized : tables.Sized) :
    Ready patternChar subjectChar pattern (newStringSearch patternChar subjectChar pattern tables) := by
  refine ⟨rfl, hne, hfits, rfl, ?_⟩
  simp only [newStringSearch]
  by_cases hfail : patternChar = .two ∧ subjectChar = .one ∧
      ¬pattern.all (fun c => decide (c ≤ kMaxAsciiCharCodeU)) = true
  · rw [if_pos hfail]
    obtain ⟨-, rfl, hall⟩ := hfail
    simp only [all_eq_true, decide_eq_true_iff] at hall
    obtain ⟨c, hc⟩ := Classical.not_forall.1 hall
    obtain ⟨hmem, hlarge⟩ := Classical.not_imp.1 hc
    exact ⟨c, hmem, hlarge⟩
  · rw [if_neg hfail]
    have hsfits : ∀ c ∈ pattern, subjectChar.Fits c := by
      intro c hc
      have hcfits := hfits c hc
      cases subjectChar with
      | two =>
        cases patternChar with
        | one => exact Nat.lt_of_le_of_lt hcfits (by decide)
        | two => exact hcfits
      | one =>
        cases patternChar with
        | one => exact hcfits
        | two =>
          by_contra hlarge
          refine hfail ⟨rfl, rfl, fun hall => hlarge ?_⟩
          simp only [all_eq_true, decide_eq_true_iff] at hall
          exact hall c hc
    by_cases hshort : pattern.length < kBMMinPatternLength
    · rw [if_pos hshort]
      by_cases hone : pattern.length = 1
      · rw [if_pos hone]
        exact ⟨hone, hsfits⟩
      · rw [if_neg hone]
        trivial
    · rw [if_neg hshort]
      have hlong : 7 ≤ pattern.length := Nat.le_of_not_lt hshort
      exact ⟨by omega, hsfits, hsized⟩

/-- Each of any number of searches with one object ends and finds the first occurrence. -/
theorem searches_first (hne : pattern ≠ []) (hfits : ∀ c ∈ pattern, patternChar.Fits c)
    {tables : Tables} (hsized : tables.Sized) (calls : List (List Nat × Nat))
    (hcalls : ∀ call ∈ calls, ∀ c ∈ call.1, subjectChar.Fits c) (fuel : Nat)
    (hfuel : ∀ call ∈ calls, 2 * pattern.length + 2 + call.1.length < fuel) :
    ∃ results, searches patternChar subjectChar fuel
        (newStringSearch patternChar subjectChar pattern tables) calls = some results ∧
      Forall₂ (fun call r => IsFirst pattern call.1 call.2 r) calls results := by
  have hready := @ready_new pattern patternChar subjectChar hne hfits tables hsized
  revert hready
  generalize newStringSearch patternChar subjectChar pattern tables = s
  induction calls generalizing s with
  | nil => exact fun _ => ⟨[], rfl, .nil⟩
  | cons call calls ih =>
    intro hready
    obtain ⟨subject, index⟩ := call
    obtain ⟨r, s', hrun, hr, hready'⟩ := search_finds hready (hcalls _ mem_cons_self) fuel
      (hfuel _ mem_cons_self) index
    obtain ⟨results, hruns, hall⟩ := ih (fun call hc => hcalls call (mem_cons_of_mem _ hc))
      (fun call hc => hfuel call (mem_cons_of_mem _ hc)) s' hready'
    refine ⟨r :: results, ?_, .cons hr hall⟩
    rw [searches, hrun, Option.bind_some, hruns]
    rfl

/-- A pattern that is long enough for the Boyer-Moore searches, in a subject of wider characters. -/
theorem searches_first_abab :
    ∃ results, searches .one .two 60 (newStringSearch .one .two [97, 98, 97, 98, 97, 98, 97, 99]
        ⟨replicate 256 0, replicate 251 0, replicate 251 0⟩)
        [([97, 98, 97, 98, 97, 98, 97, 99], 0), ([955, 97, 98, 97, 98, 97, 98, 97, 98, 99], 1)] = some results ∧
      Forall₂ (fun call r => IsFirst [97, 98, 97, 98, 97, 98, 97, 99] call.1 call.2 r)
        [([97, 98, 97, 98, 97, 98, 97, 99], 0), ([955, 97, 98, 97, 98, 97, 98, 97, 98, 99], 1)]
        results := by
  refine searches_first (by decide) ?_ ⟨length_replicate, length_replicate,
    length_replicate⟩ _ ?_ _ (by decide)
  · intro c hc
    revert c
    show ∀ c ∈ [97, 98, 97, 98, 97, 98, 97, 99], c ≤ kMaxAsciiCharCodeU
    decide
  · show ∀ call ∈ [_, _], ∀ c ∈ (call : List Nat × Nat).1, c < 65536
    decide

end W16.StringSearches
