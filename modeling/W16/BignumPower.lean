import W16.BignumProduct
import Mathlib.Algebra.Order.BigOperators.Group.Finset
import Mathlib.Data.Nat.Bitwise

/-!
# Squares and powers

`Square` computes the product column by column in place. The first loop reads the copy
above the bigits in use; the second overwrites the copy, but only below what it still
reads.
-/
namespace W16.Bignum

open Positional Function

variable {b : Bignum} {a bs : Nat → Nat}

/-! ## Square -/

theorem column_eq (bs : Nat → Nat) (off i1 i2 acc k : Nat)
    (h : acc + ∑ j ∈ Finset.range k, bs (off + (i1 - j)) * bs (off + (i2 + j)) < 2 ^ 64) :
    column bs off i1 i2 acc k = acc + ∑ j ∈ Finset.range k, bs (off + (i1 - j)) * bs (off + (i2 + j)) := by
  induction k with
  | zero => simp [column]
  | succ k ih =>
    rw [Finset.sum_range_succ] at h ⊢
    rw [column, ih (by omega), doubleChunk_eq (by omega), add_assoc]

/-- The state `r` after `i` columns of the square of `a`, which is copied at `used`. -/
structure Squared (a : Nat → Nat) (used i : Nat) (r : (Nat → Nat) × Nat) : Prop where
  lt : ∀ j, r.1 j < radix
  copied : ∀ j, j < used → i ≤ used + j → r.1 (used + j) = a j
  above : ∀ j, used + used ≤ j → r.1 j = 0
  carry_le : r.2 ≤ used * radix
  value : ofLimbs radix r.1 i + r.2 * radix ^ i = ofLimbs radix (Positional.column a a) i

/-- One column, whatever way it was summed up. -/
theorem Squared.step {used i : Nat} {r : (Nat → Nat) × Nat} (h : Squared a used i r)
    (hi : i < used + used) (hused : used ≤ 64)
    (hcol : Positional.column a a i ≤ used * (radix - 1) ^ 2) {acc : Nat}
    (hacc : acc = r.2 + Positional.column a a i) :
    acc < 2 ^ 64 ∧ Squared a used (i + 1) (update r.1 i (chunk acc % radix), acc / radix) := by
  have hc := h.carry_le
  have hchunk : chunk acc % radix = acc % radix := Nat.mod_mod_of_dvd _ (by decide)
  have hdiv := Nat.mod_add_div acc radix
  refine ⟨by norm_num [radix] at *; omega, update_lt h.lt (Nat.mod_lt _ (Nat.two_pow_pos 28)),
    fun j hj hij => ?_, fun j hj => ?_, ?_, ?_⟩
  · show update r.1 i _ (used + j) = a j
    rw [update_of_ne (by omega)]
    exact h.copied j hj (by omega)
  · show update r.1 i _ j = 0
    rw [update_of_ne (by omega)]
    exact h.above j hj
  · grind
  · rw [ofLimbs_update_succ, ofLimbs_succ, ← h.value, hchunk, pow_succ radix i]
    grind

/-- A sum of at most `used` products of bigits. -/
theorem sum_products_le {f g : Nat → Nat} {k used : Nat} (hk : k ≤ used) (hf : ∀ j, f j < radix)
    (hg : ∀ j, g j < radix) :
    ∑ j ∈ Finset.range k, f j * g j ≤ used * (radix - 1) ^ 2 := by
  have hterm : ∀ j ∈ Finset.range k, f j * g j ≤ (radix - 1) ^ 2 := by
    intro j _
    have := hf j
    have := hg j
    rw [sq]
    exact Nat.mul_le_mul (by omega) (by omega)
  calc ∑ j ∈ Finset.range k, f j * g j ≤ k * (radix - 1) ^ 2 := by
        simpa using Finset.sum_le_card_nsmul _ _ _ hterm
    _ ≤ used * (radix - 1) ^ 2 := Nat.mul_le_mul_right _ hk

theorem squareLow_squared {c : Nat → Nat} {used : Nat} (ha : ∀ j, a j < radix) (hused : used ≤ 64)
    (h : Squared a used 0 (c, 0)) (i : Nat) (hi : i ≤ used) :
    Squared a used i (squareLow c used i) := by
  induction i with
  | zero => exact h
  | succ i ih =>
    have ih := ih (by omega)
    have hsum : ∑ j ∈ Finset.range (i + 1), (squareLow c used i).1 (used + (i - j)) *
        (squareLow c used i).1 (used + (0 + j)) = Positional.column a a i := by
      refine Finset.sum_congr rfl fun j hj => ?_
      have := Finset.mem_range.1 hj
      rw [ih.copied _ (by omega) (by omega), ih.copied _ (by omega) (by omega), zero_add]
    have hcol : Positional.column a a i ≤ used * (radix - 1) ^ 2 :=
      sum_products_le (by omega) (fun j => ha _) ha
    have hstep := ih.step (by omega) hused hcol rfl
    have hacc := column_eq (squareLow c used i).1 used i 0 (squareLow c used i).2 (i + 1) (by
      rw [hsum]
      exact hstep.1)
    rw [hsum] at hacc
    show Squared a used (i + 1) (update (squareLow c used i).1 i
      (chunk (column (squareLow c used i).1 used i 0 (squareLow c used i).2 (i + 1)) % radix),
      column (squareLow c used i).1 used i 0 (squareLow c used i).2 (i + 1) / radix)
    rw [hacc]
    exact hstep.2

/-- The columns from `used` on have fewer terms. -/
theorem column_high {used k : Nat} (ha : ∀ j, used ≤ j → a j = 0) (hk : k < used) :
    Positional.column a a (used + k) =
      ∑ j ∈ Finset.range (used - (k + 1)), a (used - 1 - j) * a (k + 1 + j) := by
  obtain ⟨m, hm⟩ : ∃ m, m = k + 1 := ⟨_, rfl⟩
  unfold Positional.column
  rw [← hm, show used + k + 1 = m + (used - m + m) by omega, Finset.sum_range_add, Finset.sum_range_add]
  have h1 : ∑ j ∈ Finset.range m, a (used + k - j) * a j = 0 := by
    refine Finset.sum_eq_zero fun j hj => ?_
    grind
  have h3 : ∑ j ∈ Finset.range m, a (used + k - (m + (used - m + j))) * a (m + (used - m + j)) = 0 := by
    refine Finset.sum_eq_zero fun j hj => ?_
    rw [ha (m + (used - m + j)) (by omega), mul_zero]
  rw [h1, h3, zero_add, add_zero]
  refine Finset.sum_congr rfl fun j hj => ?_
  congr 2
  omega

theorem squareHigh_squared {used : Nat} {start : (Nat → Nat) × Nat} (ha : ∀ j, a j < radix)
    (haz : ∀ j, used ≤ j → a j = 0) (hused : used ≤ 64) (h : Squared a used used start) (k : Nat)
    (hk : k ≤ used) : Squared a used (used + k) (squareHigh used start k) := by
  induction k with
  | zero => exact h
  | succ k ih =>
    have ih := ih (by omega)
    have hidx : used + k - (used - 1) = k + 1 := by omega
    have hsum : ∑ j ∈ Finset.range (used - (k + 1)), (squareHigh used start k).1 (used + (used - 1 - j)) *
        (squareHigh used start k).1 (used + (k + 1 + j)) = Positional.column a a (used + k) := by
      rw [column_high haz (by omega)]
      refine Finset.sum_congr rfl fun j hj => ?_
      have := Finset.mem_range.1 hj
      rw [ih.copied _ (by omega) (by omega), ih.copied _ (by omega) (by omega)]
    have hcol : Positional.column a a (used + k) ≤ used * (radix - 1) ^ 2 := by
      rw [column_high haz (by omega)]
      exact sum_products_le (by omega) (fun j => ha _) (fun j => ha _)
    have hstep := ih.step (by omega) hused hcol rfl
    have hacc := column_eq (squareHigh used start k).1 used (used - 1) (k + 1)
      (squareHigh used start k).2 (used - (k + 1)) (by
        rw [hsum]
        exact hstep.1)
    rw [hsum] at hacc
    show Squared a used (used + k + 1) (update (squareHigh used start k).1 (used + k)
      (chunk (column (squareHigh used start k).1 used (used - 1) (used + k - (used - 1))
        (squareHigh used start k).2 (used - (used + k - (used - 1)))) % radix),
      column (squareHigh used start k).1 used (used - 1) (used + k - (used - 1))
        (squareHigh used start k).2 (used - (used + k - (used - 1))) / radix)
    rw [hidx, hacc]
    exact hstep.2

theorem square_meets (h : b.Valid) : Meets (square b) (fun r => r.Valid ∧ r.value = b.value ^ 2)
      (Refused (128 < 2 * b.used ∨ 2 ^ 31 ≤ b.exponent * 2)) := by
  refine (ensureCapacity_meets _).bind (Refused.mono .inl) fun _ hcap => ?_
  unfold kBigitSize
  rw [if_neg (by omega)]
  have hstart : Squared b.bigits b.used 0 (fun i =>
      if b.used ≤ i ∧ i < b.used + b.used then b.bigits (i - b.used) else b.bigits i, 0) := by
    refine ⟨fun j => ?_, fun j hj _ => ?_, fun j hj => ?_, Nat.zero_le _, by simp⟩
    · show (if _ then _ else _) < radix
      split <;> exact h.lt _
    · grind
    · show (if _ then _ else _) = 0
      rw [if_neg (by omega)]
      exact h.above j (by omega)
  have hlow := squareLow_squared h.lt (by omega) hstart b.used (le_refl _)
  have hhigh := squareHigh_squared h.lt h.above (by omega) hlow b.used (le_refl _)
  refine (int_meets _).bind (Refused.mono .inr) ?_
  rintro _ ⟨rfl, hexp⟩
  generalize squareHigh b.used _ b.used = r at hhigh ⊢
  have hval : ofLimbs radix r.1 (b.used + b.used) + r.2 * radix ^ (b.used + b.used) = b.mantissa ^ 2 := by
    rw [hhigh.value, ofLimbs_mul h.above h.above, sq]
    rfl
  -- the square has no more bigits than that
  have hzero : r.2 = 0 := by
    by_contra h0
    have h1 : 1 * radix ^ (b.used + b.used) ≤ r.2 * radix ^ (b.used + b.used) :=
      Nat.mul_le_mul_right _ (by omega)
    have h2 : b.mantissa ^ 2 < radix ^ (b.used + b.used) := by
      rw [← two_mul, mul_comm, pow_mul]
      exact Nat.pow_lt_pow_left h.mantissa_lt (by decide)
    omega
  have hloose : Loose ⟨r.1, 2 * b.used, b.exponent * 2⟩ := by
    refine ⟨hhigh.lt, fun j hj => hhigh.above j ?_, hcap, hexp⟩
    have hj' : 2 * b.used ≤ j := hj
    omega
  refine Meets.pure ⟨clamp_valid hloose, (clamp_value hloose).trans ?_⟩
  rw [value_eq, value_eq]
  show ofLimbs radix r.1 (2 * b.used) * radix ^ (b.exponent * 2) = _
  rw [hzero, zero_mul, add_zero, ← two_mul] at hval
  rw [hval, mul_pow, ← pow_mul radix]

/-! ## Powers -/

theorem stripTwos_spec (fuel : Nat) {base shifts : Nat} (h0 : base ≠ 0) (hf : base < 2 ^ fuel) :
    (stripTwos fuel base shifts).1 * 2 ^ (stripTwos fuel base shifts).2 = base * 2 ^ shifts ∧
      (stripTwos fuel base shifts).1 % 2 = 1 ∧ (stripTwos fuel base shifts).1 ≤ base ∧
      (stripTwos fuel base shifts).2 < shifts + fuel := by
  induction fuel generalizing base shifts with
  | zero => omega
  | succ fuel ih =>
    unfold stripTwos
    by_cases he : base % 2 = 0
    · rw [if_pos he]
      obtain ⟨h1, h2, h3, h4⟩ := @ih (base / 2) (shifts + 1) (by omega) (by omega)
      refine ⟨?_, h2, by omega, by omega⟩
      rw [h1, pow_succ, mul_comm (2 ^ shifts), ← mul_assoc]
      congr 1
      omega
    grind

theorem bitSize_spec (fuel : Nat) {base : Nat} (hf : base < 2 ^ fuel) :
    base < 2 ^ bitSize fuel base ∧ bitSize fuel base ≤ fuel ∧ (base ≠ 0 → 2 ^ bitSize fuel base ≤ 2 * base) := by
  induction fuel generalizing base with
  | zero => simp_all [bitSize]
  | succ fuel ih =>
    unfold bitSize
    by_cases h0 : base = 0
    · grind
    · rw [if_neg h0]
      obtain ⟨h1, h2, h3⟩ := @ih (base / 2) (by omega)
      by_cases hb : base / 2 = 0
      · rw [hb]
        have : bitSize fuel 0 = 0 := by cases fuel <;> rfl
        rw [this]
        omega
      · omega

/-- `mask` stands above the highest bit of the exponent when the loop ends. -/
theorem maskLoop_meets (fuel : Nat) {p j : Nat} (hp : p < 2 ^ (j + fuel)) (hj : 2 ^ j ≤ 2 * p) :
    Meets (maskLoop p fuel (2 ^ j))
      (fun m => ∃ k, m = 2 ^ (k + 1) ∧ p < 2 ^ (k + 1) ∧ 2 ^ k ≤ p) (Refused (2 ^ 30 ≤ p)) := by
  induction fuel generalizing j with
  | zero =>
    cases j with
    | zero =>
      omega
    | succ k =>
      exact ⟨k, rfl, by simpa using hp, by omega⟩
  | succ fuel ih =>
    unfold maskLoop
    by_cases hge : p ≥ 2 ^ j
    · rw [if_pos hge]
      refine (int_meets _).bind (Refused.mono fun h' => by omega) ?_
      rintro _ ⟨rfl, -⟩
      exact ih (by rw [show j + 1 + fuel = j + (fuel + 1) by omega]; exact hp) (by omega)
    · rw [if_neg hge]
      cases j with
      | zero =>
        omega
      | succ k =>
        exact Meets.pure ⟨k, rfl, by omega, by omega⟩

/-- The bit under the mask. -/
theorem and_mask (p k : Nat) : p &&& 2 ^ k ≠ 0 ↔ p / 2 ^ k % 2 = 1 := by
  grind [Nat.two_pow_and]

theorem half_mask (k : Nat) : 2 ^ (k + 1) / 2 = 2 ^ k := by
  rw [pow_succ, Nat.mul_div_cancel _ (by decide)]

/-- Shifting one more bit of the exponent in. -/
theorem exponent_step (p k : Nat) : p / 2 ^ k = 2 * (p / 2 ^ (k + 1)) + p / 2 ^ k % 2 := by
  rw [pow_succ, ← Nat.div_div_eq_div_mul]
  omega

theorem power_step (base p k : Nat) : base ^ (p / 2 ^ k) =
      base ^ (p / 2 ^ (k + 1)) * base ^ (p / 2 ^ (k + 1)) * base ^ (p / 2 ^ k % 2) := by
  conv_lhs => rw [exponent_step p k]
  rw [pow_add, two_mul, pow_add]

/-- What `smallPower` has computed when `k` bits of the exponent are left. -/
structure SmallPower (p base k : Nat) (r : Nat × Nat × Bool) : Prop where
  mask : r.1 = 2 ^ k / 2
  lt : r.2.1 < 2 ^ 64
  value : (if r.2.2 then r.2.1 * base else r.2.1) = base ^ (p / 2 ^ k)

theorem smallPower_spec (fuel : Nat) {p base bits k value : Nat} (hk : k ≤ fuel) (hbits : bits ≤ 16)
    (hbase : base < 2 ^ bits) (hlt : value < 2 ^ 64) (hv : value = base ^ (p / 2 ^ k)) :
    ∃ k' ≤ k, SmallPower p base k' (smallPower p base bits fuel (2 ^ k / 2) value false) := by
  induction fuel generalizing k value with
  | zero => exact ⟨k, le_refl k, rfl, hlt, hv⟩
  | succ fuel ih =>
    unfold smallPower
    by_cases hgo : 2 ^ k / 2 ≠ 0 ∧ value ≤ 0xFFFFFFFF
    · rw [if_pos hgo]
      obtain ⟨j, rfl⟩ : ∃ j, k = j + 1 := by
        cases k with
        | zero => exact absurd rfl hgo.1
        | succ j => exact ⟨j, rfl⟩
      rw [half_mask]
      have hsq := Nat.mul_le_mul hgo.2 hgo.2
      rw [doubleChunk_eq (show value * value < 2 ^ 64 by omega)]
      have hstep := power_step base p j
      rw [← hv] at hstep
      by_cases hbit : p &&& 2 ^ j ≠ 0
      · rw [if_pos hbit]
        rw [(and_mask p j).1 hbit, pow_one] at hstep
        by_cases hroom : value * value / 2 ^ (64 - bits) = 0
        · -- the high bits are zero, and the base has no more bits than that
          rw [if_pos hroom]
          have hsmall : value * value < 2 ^ (64 - bits) := by
            rcases Nat.div_eq_zero_iff.1 hroom with h0 | h0
            · exact absurd h0 (by positivity)
            · exact h0
          have hfit : value * value * base < 2 ^ 64 := by
            have := Nat.mul_lt_mul_of_lt_of_le hsmall (le_of_lt hbase) (by positivity)
            rwa [← pow_add, show 64 - bits + bits = 64 by omega] at this
          rw [doubleChunk_eq hfit]
          obtain ⟨k', hk', h⟩ := ih (show j ≤ fuel by omega) hfit hstep.symm
          exact ⟨k', by omega, h⟩
        · -- the product would not fit: it is owed, and the value ends the loop
          rw [if_neg hroom]
          have hbig : 2 ^ 48 ≤ value * value := by
            have h1 : 2 ^ (64 - bits) ≤ value * value := by
              simp_all
            exact le_trans (Nat.pow_le_pow_right (by decide) (by omega)) h1
          have hstop : smallPower p base bits fuel (2 ^ j / 2) (value * value) true =
              (2 ^ j / 2, value * value, true) := by
            cases fuel with
            | zero => rfl
            | succ fuel => exact if_neg fun h => by omega
          rw [hstop]
          exact ⟨j, by omega, rfl, by simp only; omega, by simpa using hstep.symm⟩
      · rw [if_neg hbit]
        have hzero : p / 2 ^ j % 2 = 0 := by
          have := mt (and_mask p j).2 hbit
          omega
        rw [hzero, pow_zero, mul_one] at hstep
        obtain ⟨k', hk', h⟩ := ih (show j ≤ fuel by omega) (show value * value < 2 ^ 64 by omega) hstep.symm
        exact ⟨k', by omega, h⟩
    · rw [if_neg hgo]
      exact ⟨k, le_refl k, rfl, hlt, hv⟩

theorem pow_div_le (base p k : Nat) (h0 : 0 < base) : base ^ (p / 2 ^ k) ≤ base ^ p :=
  Nat.pow_le_pow_right h0 (Nat.div_le_self p _)

theorem mantissa_le_value (b : Bignum) : b.mantissa ≤ b.value := by
  rw [value_eq]
  exact Nat.le_mul_of_pos_right _ (by positivity)

theorem bignumPower_meets (fuel : Nat) {p base k : Nat} {b : Bignum} (hk : k ≤ fuel) (h : b.Valid)
    (h0 : 0 < base) (hbase : base < 2 ^ 16) (hv : b.value = base ^ (p / 2 ^ k)) :
    Meets (bignumPower p base fuel (2 ^ k / 2) b) (fun r => r.Valid ∧ r.value = base ^ p)
      (Refused (radix ^ 128 ≤ base ^ p)) := by
  induction fuel generalizing k b with
  | zero =>
    have hk0 : k = 0 := by omega
    subst hk0
    exact ⟨h, by simpa using hv⟩
  | succ fuel ih =>
    unfold bignumPower
    cases k with
    | zero =>
      exact Meets.pure ⟨h, by simpa using hv⟩
    | succ j =>
      rw [half_mask, if_pos (by positivity)]
      have hstep := power_step base p j
      rw [← hv] at hstep
      have hle := pow_div_le base p j h0
      have hpos : 0 < base ^ (p / 2 ^ j % 2) := by positivity
      have hsq : b.value ^ 2 ≤ base ^ p := by
        rw [sq]
        refine le_trans ?_ hle
        rw [hstep]
        exact Nat.le_mul_of_pos_right _ hpos
      refine (square_meets h).bind (Refused.mono fun h' => ?_) ?_
      · have hu : b.used ≠ 0 := by
          rcases h' with h' | h'
          · omega
          · intro hu
            have := h.zero hu
            omega
        have h1 : radix ^ 64 ≤ b.value :=
          le_trans (Nat.pow_le_pow_right (Nat.two_pow_pos 28) (by omega)) (le_value h hu)
        have h2 := Nat.pow_le_pow_left h1 2
        exact le_trans h2 hsq
      rintro c ⟨hc, hcv⟩
      by_cases hbit : p &&& 2 ^ j ≠ 0
      · rw [(and_mask p j).1 hbit, pow_one, ← sq, ← hcv] at hstep
        rw [if_pos hbit]
        refine (multiplyByUInt32_meets hc (lt_trans hbase (by decide))).bind (Refused.mono fun h' => ?_) ?_
        · exact le_trans h' (le_trans (Nat.mul_le_mul_right _ (mantissa_le_value c)) (hstep ▸ hle))
        simp_all
      · have hzero : p / 2 ^ j % 2 = 0 := by
          have := mt (and_mask p j).2 hbit
          omega
        rw [hzero, pow_zero, mul_one, ← sq, ← hcv] at hstep
        rw [if_neg hbit]
        refine (Meets.pure (P := fun d => d = c) (E := Refused False) rfl).bind (Refused.mono False.elim) ?_
        rintro d rfl
        exact ih (by omega) hc hstep.symm

theorem radix_pow_le {m n : Nat} (h : 28 * m ≤ n) : radix ^ m ≤ 2 ^ n := by
  rw [← pow_mul]
  exact Nat.pow_le_pow_right (by decide) h

theorem assignPowerUInt16_meets (h : b.Valid) {base p : Nat} (h0 : base ≠ 0) (hbase : base < 2 ^ 16)
    (hp : p < 2 ^ 31) :
    Meets (assignPowerUInt16 b base p) (fun r => r.Valid ∧ r.value = base ^ p)
      (Refused (radix ^ 126 ≤ (2 * base) ^ p)) := by
  unfold assignPowerUInt16
  by_cases hp0 : p = 0
  · simp [assignUInt16_meets, hp0, h]
  rw [if_neg hp0]
  obtain ⟨hodd, -, hle, hsh⟩ := @stripTwos_spec 16 base 0 h0 hbase
  generalize stripTwos 16 base 0 = st at *
  obtain ⟨odd, shifts⟩ := st
  simp only [pow_zero, mul_one] at hodd hle ⊢
  have hoddpos : 0 < odd := by
    grind
  obtain ⟨hbit, hbits, hsize⟩ := bitSize_spec 16 (show odd < 2 ^ 16 by omega)
  generalize bitSize 16 odd = bits at *
  -- sizes, all compared with the power itself
  have hpow : odd ^ p * 2 ^ (shifts * p) = base ^ p := by rw [pow_mul, ← mul_pow, hodd]
  have hbase2 : base ^ p ≤ (2 * base) ^ p := Nat.pow_le_pow_left (by omega) p
  have hodd2 : odd ^ p ≤ (2 * base) ^ p := Nat.pow_le_pow_left (by omega) p
  have hbits2 : 2 ^ (bits * p) ≤ (2 * base) ^ p := by
    rw [pow_mul]
    exact Nat.pow_le_pow_left (le_trans (hsize (by omega)) (by omega)) p
  have hp2 : 2 ^ p ≤ (2 * base) ^ p := Nat.pow_le_pow_left (by omega) p
  have hsh2 := le_trans (Nat.le_mul_of_pos_left _ (by positivity)) (hpow ▸ hbase2)
  have h128 : radix ^ 128 ≤ odd ^ p → radix ^ 126 ≤ (2 * base) ^ p := fun h' =>
    le_trans (le_trans (Nat.pow_le_pow_right (by decide) (by decide)) h') hodd2
  refine (int_meets _).bind (Refused.mono fun h' => le_trans (radix_pow_le (by omega)) hbits2) ?_
  rintro _ ⟨rfl, -⟩
  unfold kBigitSize
  refine (ensureCapacity_meets _).bind
    (Refused.mono fun h' => le_trans (radix_pow_le (by omega)) hbits2) fun _ _ => ?_
  refine (maskLoop_meets 31 (j := 0) (by simpa using hp) (by omega)).bind
    (Refused.mono fun h' => le_trans (radix_pow_le (by omega)) hp2) ?_
  rintro _ ⟨k, rfl, hk1, hk2⟩
  have hmask : 2 ^ (k + 1) / 4 = 2 ^ k / 2 := by
    omega
  have htop : p / 2 ^ k = 1 := by
    rw [Nat.div_eq_iff (by positivity)]
    omega
  have hk31 : k ≤ 31 := by
    have : 2 ^ k < 2 ^ 31 := lt_of_le_of_lt hk2 hp
    exact le_of_lt ((Nat.pow_lt_pow_iff_right (by decide)).1 this)
  obtain ⟨k', hk', hsp⟩ := smallPower_spec 31 (p := p) hk31 hbits hbit
    (lt_trans (show odd < 2 ^ 16 by omega) (by decide)) (by rw [htop, pow_one])
  rw [hmask]
  generalize smallPower p odd bits 31 (2 ^ k / 2) odd false = sp at *
  obtain ⟨mask, value, delayed⟩ := sp
  simp only at hsp ⊢
  obtain ⟨hm, hlt, hval⟩ := hsp
  simp only at hm hlt hval
  have hdiv := pow_div_le odd p k' hoddpos
  refine (assignUInt64_meets (zero_valid h) hlt).bind (Refused.mono False.elim) ?_
  rintro b1 ⟨hb1, hv1, -⟩
  have hdelay : Meets (if delayed then multiplyByUInt32 b1 odd else pure b1)
      (fun r => r.Valid ∧ r.value = odd ^ (p / 2 ^ k')) (Refused (radix ^ 128 ≤ odd ^ p)) := by
    cases delayed with
    | true =>
      rw [if_pos rfl] at hval ⊢
      rw [← hv1] at hval
      refine (multiplyByUInt32_meets hb1 (lt_trans (show odd < 2 ^ 16 by omega) (by decide))).mono ?_
        (Refused.mono fun h' => ?_)
      · grind
      · exact le_trans h' (le_trans (Nat.mul_le_mul_right _ (mantissa_le_value b1)) (hval ▸ hdiv))
    | false =>
      exact Meets.pure ⟨hb1, hv1.trans (by simpa using hval)⟩
  refine hdelay.bind (Refused.mono h128) ?_
  rintro b2 ⟨hb2, hv2⟩
  rw [hm]
  refine (bignumPower_meets 31 (le_trans hk' hk31) hb2 hoddpos (by omega) hv2).bind (Refused.mono h128) ?_
  rintro b3 ⟨hb3, hv3⟩
  refine (int_meets _).bind (Refused.mono fun h' => le_trans (radix_pow_le (by omega)) hsh2) ?_
  rintro _ ⟨rfl, -⟩
  refine (shiftLeft_meets hb3 _).mono ?_ (Refused.mono ?_)
  · grind
  · rintro ⟨hu, hcase⟩
    have hb3v := le_value hb3 hu
    rcases hcase with hcap | hexp
    · refine le_trans (le_trans (Nat.pow_le_pow_right (by decide) (show 126 ≤ b3.used + b3.exponent - 1 by omega)) ?_) hodd2
      rw [← hv3]
      exact hb3v
    · refine le_trans ?_ (hpow ▸ hbase2)
      rw [← hv3]
      calc radix ^ 126 ≤ radix ^ (b3.exponent + shifts * p / 28) :=
            Nat.pow_le_pow_right (by decide) (by omega)
        _ = radix ^ b3.exponent * radix ^ (shifts * p / 28) := pow_add _ _ _
        _ ≤ b3.value * 2 ^ (shifts * p) := by
            refine Nat.mul_le_mul ?_ (radix_pow_le (by omega))
            exact le_trans (Nat.pow_le_pow_right (by decide) (by omega)) hb3v

end W16.Bignum
