import W16.BignumAddition

/-!
# Comparison

`Compare` looks at the numbers of bigits and then at the bigits from the top, hidden ones
included. `PlusCompare` carries what is left of `c` down to the next bigit.
-/
namespace W16.Bignum

open Positional Function

variable {a b c : Bignum}

theorem bigitAt_lt (h : b.Valid) (i : Nat) : bigitAt b i < radix := by
  unfold bigitAt
  split
  · exact Nat.two_pow_pos 28
  · split
    · exact Nat.two_pow_pos 28
    · exact h.lt _

theorem bigitAt_above (b : Bignum) {i : Nat} (hi : b.used + b.exponent ≤ i) : bigitAt b i = 0 :=
  if_pos hi

theorem bigitAt_hidden (b : Bignum) {i : Nat} (hi : i < b.exponent) : bigitAt b i = 0 := by
  unfold bigitAt
  rw [if_pos hi, ite_self]

/-- The value read off all bigits, hidden and stored. -/
theorem ofLimbs_bigitAt (b : Bignum) {n : Nat} (hn : b.used + b.exponent ≤ n) :
    ofLimbs radix (bigitAt b) n = b.value := by
  have hlow : ofLimbs radix (bigitAt b) b.exponent = 0 :=
    ofLimbs_eq_zero fun i hi => bigitAt_hidden b hi
  have hmid : ofLimbs radix (fun i => bigitAt b (b.exponent + i)) b.used = b.mantissa := by
    refine ofLimbs_congr fun i hi => ?_
    unfold bigitAt
    grind
  rw [ofLimbs_extend (fun i hi => bigitAt_above b hi) hn, add_comm b.used, ofLimbs_split, hlow,
    hmid, value_eq]
  ring

/-- The sign of a comparison. -/
def sign (x y : Nat) : Int := if x < y then -1 else if x > y then 1 else 0

theorem sign_of_lt {x y : Nat} (h : x < y) : sign x y = -1 := if_pos h

theorem sign_of_gt {x y : Nat} (h : y < x) : sign x y = 1 := by
  unfold sign
  rw [if_neg (by omega), if_pos h]

theorem sign_add_right (x y z : Nat) : sign (x + z) (y + z) = sign x y := by
  simp [sign]

theorem compareLoop_eq (ha : a.Valid) (hb : b.Valid) (low n : Nat)
    (hlow : ∀ i < low, bigitAt a i = bigitAt b i) :
    compareLoop a b low n =
      sign (ofLimbs radix (bigitAt a) (low + n)) (ofLimbs radix (bigitAt b) (low + n)) := by
  induction n with
  | zero =>
    have : ofLimbs radix (bigitAt a) (low + 0) = ofLimbs radix (bigitAt b) (low + 0) :=
      ofLimbs_congr hlow
    rw [this]
    simp [compareLoop, sign]
  | succ n ih =>
    unfold compareLoop
    rcases lt_trichotomy (bigitAt a (low + n)) (bigitAt b (low + n)) with hlt | heq | hgt
    · rw [if_pos hlt]
      have := ofLimbs_lt_of_limb_lt (fun i _ => bigitAt_lt ha i) hlt
      exact (sign_of_lt this).symm
    · rw [if_neg (by omega), if_neg (by omega), ih, ← add_assoc, ofLimbs_succ, ofLimbs_succ, heq,
        sign_add_right]
    · rw [if_neg (by omega), if_pos hgt]
      have := ofLimbs_lt_of_limb_lt (fun i _ => bigitAt_lt hb i) hgt
      exact (sign_of_gt this).symm

/-- More bigits, larger value. -/
theorem value_lt_of_length_lt (ha : a.Valid) (hb : b.Valid)
    (h : a.used + a.exponent < b.used + b.exponent) : a.value < b.value := by
  have hu : b.used ≠ 0 := fun hu => by
    have := hb.zero hu
    omega
  have h1 : radix ^ (a.used + a.exponent) ≤ radix ^ (b.used + b.exponent - 1) :=
    Nat.pow_le_pow_right (Nat.two_pow_pos 28) (by omega)
  exact lt_of_lt_of_le (value_lt ha) (le_trans h1 (le_value hb hu))

theorem compare_meets (ha : a.Valid) (hb : b.Valid) : Meets (compare a b) (fun r => r = sign a.value b.value)
      (Refused (2 ^ 31 ≤ a.used + a.exponent ∨ 2 ^ 31 ≤ b.used + b.exponent)) := by
  refine (bigitLength_meets a).bind (Refused.mono .inl) ?_
  rintro _ ⟨rfl, -⟩
  refine (bigitLength_meets b).bind (Refused.mono .inr) ?_
  rintro _ ⟨rfl, -⟩
  rcases lt_trichotomy (a.used + a.exponent) (b.used + b.exponent) with hlt | heq | hgt
  · rw [if_pos hlt]
    exact (sign_of_lt (value_lt_of_length_lt ha hb hlt)).symm
  · rw [if_neg (by omega), if_neg (by omega)]
    refine Meets.pure ?_
    rw [compareLoop_eq ha hb, Nat.add_sub_cancel' (by omega), ofLimbs_bigitAt a (le_refl _),
      ofLimbs_bigitAt b (by omega)]
    intro i hi
    rw [bigitAt_hidden a (by omega), bigitAt_hidden b (by omega)]
  · rw [if_neg (by omega), if_pos hgt]
    exact (sign_of_gt (value_lt_of_length_lt hb ha hgt)).symm

theorem sign_le_zero (x y : Nat) : sign x y ≤ 0 ↔ x ≤ y := by
  unfold sign
  omega

theorem sign_lt_zero (x y : Nat) : sign x y < 0 ↔ x < y := by
  unfold sign
  omega

theorem sign_eq_zero (x y : Nat) : sign x y = 0 ↔ x = y := by
  unfold sign
  omega

theorem lessEqual_meets (ha : a.Valid) (hb : b.Valid) :
    Meets (lessEqual a b) (fun r => r = decide (a.value ≤ b.value))
      (Refused (2 ^ 31 ≤ a.used + a.exponent ∨ 2 ^ 31 ≤ b.used + b.exponent)) := by
  refine (compare_meets ha hb).bind (fun _ he => he) ?_
  rintro _ rfl
  exact Meets.pure (by simp only [sign_le_zero])

/-! ## PlusCompare -/

/-- The loop compares the bigits below, with `borrow` units of `c` left from above. -/
theorem plusCompareLoop_eq (ha : a.Valid) (hb : b.Valid) (hc : c.Valid) (low n : Nat) {borrow : Nat}
    (hbr : borrow ≤ 1)
    (hlow : ∀ i < low, bigitAt a i = 0 ∧ bigitAt b i = 0 ∧ bigitAt c i = 0) :
    plusCompareLoop a b c low n (borrow * radix) =
      sign (ofLimbs radix (bigitAt a) (low + n) + ofLimbs radix (bigitAt b) (low + n))
        (ofLimbs radix (bigitAt c) (low + n) + borrow * radix ^ (low + n)) := by
  induction n generalizing borrow with
  | zero =>
    rw [Nat.add_zero, ofLimbs_eq_zero fun i hi => (hlow i hi).1,
      ofLimbs_eq_zero fun i hi => (hlow i hi).2.1, ofLimbs_eq_zero fun i hi => (hlow i hi).2.2]
    rcases Nat.eq_zero_or_pos borrow with h0 | h0
    · simp [plusCompareLoop, sign, h0]
    · have h1 : borrow = 1 := by omega
      subst h1
      simp [plusCompareLoop, sign]
  | succ n ih =>
    have hxa := bigitAt_lt ha (low + n)
    have hxb := bigitAt_lt hb (low + n)
    have hxc := bigitAt_lt hc (low + n)
    have hla : ofLimbs radix (bigitAt a) (low + n) < radix ^ (low + n) :=
      ofLimbs_lt fun i _ => bigitAt_lt ha i
    have hlb : ofLimbs radix (bigitAt b) (low + n) < radix ^ (low + n) :=
      ofLimbs_lt fun i _ => bigitAt_lt hb i
    have hlc : ofLimbs radix (bigitAt c) (low + n) < radix ^ (low + n) :=
      ofLimbs_lt fun i _ => bigitAt_lt hc i
    have hpow : borrow * radix ^ (low + (n + 1)) = borrow * radix * radix ^ (low + n) := by
      ring
    rw [hpow]
    unfold plusCompareLoop
    rw [chunk_eq (show bigitAt a (low + n) + bigitAt b (low + n) < 2 ^ 32 by unfold radix at *; omega),
      chunk_eq (show bigitAt c (low + n) + borrow * radix < 2 ^ 32 by unfold radix at *; omega)]
    simp only [← Nat.add_assoc, ofLimbs_succ]
    generalize bigitAt a (low + n) = xa at *
    generalize bigitAt b (low + n) = xb at *
    generalize hav : bigitAt c (low + n) + borrow * radix = av at *
    have hav' : bigitAt c (low + n) * radix ^ (low + n) + borrow * radix * radix ^ (low + n) =
        av * radix ^ (low + n) := by
      rw [← hav, add_mul]
    rcases Nat.lt_or_ge av (xa + xb) with hgt | hle
    · rw [if_pos hgt]
      have hmul : (av + 1) * radix ^ (low + n) ≤ (xa + xb) * radix ^ (low + n) :=
        Nat.mul_le_mul_right _ hgt
      rw [add_mul, add_mul] at hmul
      exact (sign_of_gt (by omega)).symm
    · rw [if_neg (by omega)]
      by_cases hd : av - (xa + xb) > 1
      · rw [if_pos hd]
        have hmul : (xa + xb + 2) * radix ^ (low + n) ≤ av * radix ^ (low + n) :=
          Nat.mul_le_mul_right _ (by omega)
        rw [add_mul, add_mul] at hmul
        exact (sign_of_lt (by omega)).symm
      · rw [if_neg hd]
        have hd' : (av - (xa + xb)) * radix < 2 ^ 32 := by
          unfold radix at *
          omega
        have hmul : (av - (xa + xb)) * radix ^ (low + n) + (xa + xb) * radix ^ (low + n) =
            av * radix ^ (low + n) := by
          rw [← add_mul, Nat.sub_add_cancel hle]
        rw [chunk_eq hd', ih (by omega), ← sign_add_right _ _ ((xa + xb) * radix ^ (low + n))]
        congr 1
        · ring
        · omega

theorem plusCompareOrdered_meets (ha : a.Valid) (hb : b.Valid) (hc : c.Valid)
    (hab : b.used + b.exponent ≤ a.used + a.exponent) :
    Meets (plusCompareOrdered a b c) (fun r => r = sign (a.value + b.value) c.value)
      (Refused (2 ^ 31 ≤ a.used + a.exponent + 1 ∨ 2 ^ 31 ≤ c.used + c.exponent)) := by
  refine (bigitLength_meets a).bind (Refused.mono fun h => .inl (by omega)) ?_
  rintro _ ⟨rfl, -⟩
  refine (bigitLength_meets b).bind (Refused.mono fun h => .inl (by omega)) ?_
  rintro _ ⟨rfl, -⟩
  refine (bigitLength_meets c).bind (Refused.mono .inr) ?_
  rintro _ ⟨rfl, -⟩
  refine (int_meets _).bind (Refused.mono fun h => .inl (by omega)) ?_
  rintro _ ⟨rfl, -⟩
  have hva := value_lt ha
  have hvb : b.value < radix ^ (a.used + a.exponent) :=
    lt_of_lt_of_le (value_lt hb) (Nat.pow_le_pow_right (Nat.two_pow_pos 28) hab)
  by_cases h1 : a.used + a.exponent + 1 < c.used + c.exponent
  · rw [if_pos h1]
    refine Meets.pure (sign_of_lt ?_).symm
    have hu : c.used ≠ 0 := fun hu => by
      have := hc.zero hu
      omega
    have h2 : radix ^ (a.used + a.exponent + 1) ≤ radix ^ (c.used + c.exponent - 1) :=
      Nat.pow_le_pow_right (Nat.two_pow_pos 28) (by omega)
    have h3 := le_value hc hu
    grind
  rw [if_neg h1]
  by_cases h2 : a.used + a.exponent > c.used + c.exponent
  · rw [if_pos h2]
    refine Meets.pure (sign_of_gt ?_).symm
    have := value_lt_of_length_lt hc ha h2
    omega
  rw [if_neg h2]
  by_cases h3 : a.exponent ≥ b.used + b.exponent ∧ a.used + a.exponent < c.used + c.exponent
  · rw [if_pos h3]
    refine Meets.pure (sign_of_lt ?_).symm
    -- `b` fits into the hidden bigits of `a`
    have hu : c.used ≠ 0 := fun hu => by
      have := hc.zero hu
      omega
    have hb' : b.value < radix ^ a.exponent :=
      lt_of_lt_of_le (value_lt hb) (Nat.pow_le_pow_right (Nat.two_pow_pos 28) h3.1)
    have ha' : (a.mantissa + 1) * radix ^ a.exponent ≤ radix ^ (a.used + a.exponent) := by
      rw [pow_add]
      exact Nat.mul_le_mul_right _ ha.mantissa_lt
    have hc' : radix ^ (a.used + a.exponent) ≤ c.value :=
      le_trans (Nat.pow_le_pow_right (Nat.two_pow_pos 28) (by omega)) (le_value hc hu)
    rw [add_mul] at ha'
    rw [value_eq a]
    omega
  rw [if_neg h3]
  refine Meets.pure ?_
  have hloop := plusCompareLoop_eq ha hb hc (min (min a.exponent b.exponent) c.exponent)
    (c.used + c.exponent - min (min a.exponent b.exponent) c.exponent) (Nat.zero_le 1)
    (fun i hi => ⟨bigitAt_hidden a (by omega), bigitAt_hidden b (by omega), bigitAt_hidden c (by omega)⟩)
  rw [Nat.zero_mul, Nat.add_sub_cancel' (by omega), ofLimbs_bigitAt a (by omega),
    ofLimbs_bigitAt b (by omega), ofLimbs_bigitAt c (le_refl _)] at hloop
  simpa using hloop

theorem plusCompare_meets (ha : a.Valid) (hb : b.Valid) (hc : c.Valid) :
    Meets (plusCompare a b c) (fun r => r = sign (a.value + b.value) c.value)
      (Refused (2 ^ 31 ≤ a.used + a.exponent + 1 ∨ 2 ^ 31 ≤ b.used + b.exponent + 1 ∨
        2 ^ 31 ≤ c.used + c.exponent)) := by
  refine (bigitLength_meets a).bind (Refused.mono fun h => .inl (by omega)) ?_
  rintro _ ⟨rfl, -⟩
  refine (bigitLength_meets b).bind (Refused.mono fun h => .inr (.inl (by omega))) ?_
  rintro _ ⟨rfl, -⟩
  by_cases hab : a.used + a.exponent < b.used + b.exponent
  · rw [if_pos hab]
    refine (plusCompareOrdered_meets hb ha hc (le_of_lt hab)).mono ?_ (Refused.mono fun h => by omega)
    rintro _ rfl
    rw [add_comm]
  · rw [if_neg hab]
    exact (plusCompareOrdered_meets ha hb hc (by omega)).mono (fun _ h => h) (Refused.mono fun h => by omega)

end W16.Bignum
