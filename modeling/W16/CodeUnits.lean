import Mathlib.Data.List.Basic

/-!
# Code units of UTF-16

Scalar values as one or two code units, and the surrogates that belong to no pair.
-/
namespace W16.CodeUnits

open List

def High (c : Nat) : Prop := 0xD800 ≤ c ∧ c ≤ 0xDBFF
def Low (c : Nat) : Prop := 0xDC00 ≤ c ∧ c ≤ 0xDFFF
def Surrogate (c : Nat) : Prop := 0xD800 ≤ c ∧ c ≤ 0xDFFF

/-- A code point that is no surrogate. -/
def Scalar (v : Nat) : Prop := v ≤ 0x10FFFF ∧ ¬Surrogate v

def units (v : Nat) : List Nat :=
  if v < 0x10000 then [v] else [0xD7C0 + v / 0x400, 0xDC00 + v % 0x400]

/-- The surrogate between two parts of a string is no half of a pair. -/
structure Unpaired (before : List Nat) (c : Nat) (after : List Nat) : Prop where
  surrogate : Surrogate c
  high : High c → ∀ d r, after = d :: r → ¬Low d
  low : Low c → ∀ d r, before = r ++ [d] → ¬High d

def HasUnpaired (s : List Nat) : Prop :=
  ∃ before c after, s = before ++ c :: after ∧ Unpaired before c after

theorem high_or_low {c : Nat} (h : Surrogate c) : High c ∨ Low c := by
  unfold Surrogate at h
  unfold High Low
  omega

theorem not_low_of_high {c : Nat} (h : High c) : ¬Low c := by
  unfold High at h
  unfold Low
  omega

theorem units_one {v : Nat} (h : v < 0x10000) : units v = [v] := if_pos h

theorem units_two {v : Nat} (h : 0x10000 ≤ v) : units v = [0xD7C0 + v / 0x400, 0xDC00 + v % 0x400] :=
  if_neg (Nat.not_lt_of_le h)

theorem units_pair {c d : Nat} (hc : High c) (hd : Low d) : ∃ v, Scalar v ∧ 0x10000 ≤ v ∧ units v = [c, d] := by
  unfold High at hc
  unfold Low at hd
  refine ⟨(c - 0xD7C0) * 0x400 + (d - 0xDC00), ?_, by omega, ?_⟩
  · unfold Scalar Surrogate
    omega
  · rw [units_two (by omega)]
    simp only [List.cons.injEq, and_true]
    omega

/-- The part of a concatenation that an element is from. -/
theorem flatMap_split {α β : Type} (f : α → List β) {l : List α} {after : List β} {c : β} :
    ∀ {before : List β}, l.flatMap f = before ++ c :: after → ∃ l₁ : List α, ∃ x l₂ p q, l = l₁ ++ x :: l₂ ∧
      f x = p ++ c :: q ∧ before = l₁.flatMap f ++ p ∧ after = q ++ l₂.flatMap f := by
  induction l with
  | nil =>
    intro before h
    cases before <;> cases h
  | cons x l ih =>
    intro before h
    rcases append_eq_append_iff.1 h with ⟨r, hbefore, hrest⟩ | ⟨r, hfx, hrest⟩
    · obtain ⟨l₁, y, l₂, p, q, hl, hy, hb, ha⟩ := ih hrest
      exact ⟨x :: l₁, y, l₂, p, q, by rw [hl]; rfl, hy, by
        rw [hbefore, hb, flatMap_cons, append_assoc], ha⟩
    · cases r with
      | nil =>
        rw [append_nil] at hfx
        obtain ⟨l₁, y, l₂, p, q, hl, hy, hb, ha⟩ := @ih [] hrest.symm
        exact ⟨x :: l₁, y, l₂, p, q, by rw [hl]; rfl, hy, by
          rw [flatMap_cons, append_assoc, ← hb, append_nil, hfx], ha⟩
      | cons c' r =>
        obtain ⟨rfl, rfl⟩ := List.cons.inj hrest
        exact ⟨[], x, l, before, r, rfl, hfx, rfl, rfl⟩

/-- No unit of a scalar value is unpaired. -/
theorem not_unpaired_units {v c : Nat} {p q before after : List Nat} (hv : Scalar v)
    (h : units v = p ++ c :: q) : ¬Unpaired (before ++ p) c (q ++ after) := by
  intro hunpaired
  obtain ⟨hle, hnot⟩ := hv
  by_cases hone : v < 0x10000
  · rw [units_one hone] at h
    have hc : c = v := by
      cases p with
      | nil => exact (List.cons.inj h).1.symm
      | cons a p =>
        have := (List.cons.inj h).2
        cases p <;> cases this
    exact hnot (hc ▸ hunpaired.surrogate)
  · rw [units_two (by omega)] at h
    cases p with
    | nil =>
      obtain ⟨hc, hq⟩ := List.cons.inj h
      refine hunpaired.high ?_ _ after (by rw [← hq]; rfl) ?_
      · unfold High
        omega
      · unfold Low
        omega
    | cons a p =>
      obtain ⟨ha, h⟩ := List.cons.inj h
      cases p with
      | nil =>
        obtain ⟨hc, -⟩ := List.cons.inj h
        refine hunpaired.low ?_ _ before (by rw [← ha]) ?_
        · unfold Low
          omega
        · unfold High
          omega
      | cons b p =>
        have := (List.cons.inj h).2
        cases p <;> cases this

theorem HasUnpaired.cons {s : List Nat} (h : HasUnpaired s) {d : Nat} (hd : ¬High d) :
    HasUnpaired (d :: s) := by
  obtain ⟨before, c, after, rfl, hunpaired⟩ := h
  refine ⟨d :: before, c, after, rfl, hunpaired.surrogate, hunpaired.high, fun hc e r hr => ?_⟩
  cases r with
  | nil =>
    obtain rfl := (List.cons.inj hr).1
    exact hd
  | cons a r => exact hunpaired.low hc e r (List.cons.inj hr).2

/-- A string without unpaired surrogates is the units of scalar values. -/
theorem exists_scalars {s : List Nat} (hs : ∀ c ∈ s, c < 0x10000) (h : ¬HasUnpaired s) :
    ∃ vs : List Nat, (∀ v ∈ vs, Scalar v) ∧ s = vs.flatMap units := by
  induction hn : s.length using Nat.strongRecOn generalizing s with
  | ind n ih =>
    cases s with
    | nil => exact ⟨[], fun v hv => (nomatch hv), rfl⟩
    | cons c s =>
      have hc := hs c mem_cons_self
      by_cases hsur : Surrogate c
      case neg =>
        have hhigh : ¬High c := by
          unfold High
          unfold Surrogate at hsur
          omega
        obtain ⟨vs, hvs, rfl⟩ := ih s.length (by rw [← hn]; exact Nat.lt_succ_self _)
          (fun d hd => hs d (mem_cons_of_mem _ hd)) (fun hbad => h (hbad.cons hhigh)) rfl
        refine ⟨c :: vs, fun v hv => ?_, by rw [flatMap_cons, units_one hc]; rfl⟩
        rcases mem_cons.1 hv with rfl | hv
        · exact ⟨by omega, hsur⟩
        · exact hvs v hv
      rcases high_or_low hsur with hhigh | hlow
      case inr =>
        refine absurd ⟨[], c, s, rfl, hsur, fun hh => absurd hlow (not_low_of_high hh), ?_⟩ h
        intro _ d r hr
        cases r <;> cases hr
      by_cases hnext : ∃ d r, s = d :: r ∧ Low d
      case neg =>
        refine absurd ⟨[], c, s, rfl, hsur, fun _ d r hr hd => hnext ⟨d, r, hr, hd⟩, ?_⟩ h
        exact fun hlow => absurd hlow (not_low_of_high hhigh)
      obtain ⟨d, r, rfl, hd⟩ := hnext
      obtain ⟨v, hv, -, hunits⟩ := units_pair hhigh hd
      have hrest : ¬HasUnpaired r := by
        rintro ⟨before, e, after, rfl, hunpaired⟩
        refine h ⟨c :: d :: before, e, after, rfl, hunpaired.surrogate, hunpaired.high, fun he f t ht => ?_⟩
        cases t with
        | nil => cases before <;> cases (List.cons.inj ht).2
        | cons a t =>
          cases t with
          | nil =>
            obtain rfl := (List.cons.inj (List.cons.inj ht).2).1
            exact fun hh => not_low_of_high hh hd
          | cons b t => exact hunpaired.low he f t (List.cons.inj (List.cons.inj ht).2).2
      obtain ⟨vs, hvs, rfl⟩ := ih r.length (by grind)
        (fun e he => hs e (mem_cons_of_mem _ (mem_cons_of_mem _ he))) hrest rfl
      refine ⟨v :: vs, fun w hw => ?_, by rw [flatMap_cons, hunits]; rfl⟩
      grind

end W16.CodeUnits
