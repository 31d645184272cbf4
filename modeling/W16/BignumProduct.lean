import W16.BignumAddition

/-!
# Shifts and products

The loops of `BigitsShiftLeft`, `MultiplyByUInt32` and `MultiplyByUInt64` all multiply by
a factor and keep a carry below it. The carry of the 64-bit product is the tightest: it
stays below the factor, so the 64-bit sum that computes it does not wrap.
-/
namespace W16.Bignum

open Positional Function

variable {bs : Nat → Nat} {b : Bignum}

/-- The state `r` after `i` rounds of a multiplication by `factor`. -/
structure Scaled (bs : Nat → Nat) (factor i : Nat) (r : (Nat → Nat) × Nat) : Prop where
  lt : ∀ j, r.1 j < radix
  frame : ∀ j, i ≤ j → r.1 j = bs j
  carry_lt : r.2 < factor
  value : ofLimbs radix r.1 i + r.2 * radix ^ i = factor * ofLimbs radix bs i

variable {factor k : Nat}

theorem Scaled.start (h : ∀ j, bs j < radix) (hf : 0 < factor) :
    Scaled bs factor 0 (bs, 0) := ⟨h, fun _ _ => rfl, hf, by simp⟩

/-- A carry below the factor stays below it. -/
theorem carry_lt_of_step {v c x carry : Nat} (hx : x < radix) (hc : carry < factor)
    (hstep : v + radix * c = factor * x + carry) : c < factor := by
  have h1 : factor * (x + 1) ≤ factor * radix := Nat.mul_le_mul_left _ hx
  grind

theorem Scaled.step {i v c : Nat} {r : (Nat → Nat) × Nat} (h : Scaled bs factor i r)
    (hv : v < radix) (hstep : v + radix * c = factor * r.1 i + r.2) :
    Scaled bs factor (i + 1) (update r.1 i v, c) where
  lt := update_lt h.lt hv
  frame := fun j hj => by
    show update r.1 i v j = bs j
    rw [update_of_ne (by omega)]
    exact h.frame j (by omega)
  carry_lt := carry_lt_of_step (h.lt i) h.carry_lt hstep
  value := by
    rw [h.frame i (le_refl i)] at hstep
    have hmul := congrArg (· * radix ^ i) hstep
    have := h.value
    rw [ofLimbs_update_succ, ofLimbs_succ, pow_succ radix i]
    linarith

/-! ## Shifts -/

theorem shift_step {x carry s : Nat} (hs : s < 28) (hc : carry < 2 ^ s) :
    chunk (chunk (x * 2 ^ s) + carry) % radix + radix * (x / 2 ^ (kBigitSize - s)) = 2 ^ s * x + carry := by
  unfold kBigitSize
  have hmod : chunk (chunk (x * 2 ^ s) + carry) % radix = (x * 2 ^ s + carry) % radix := by
    unfold chunk
    grind
  have hr : radix = 2 ^ (28 - s) * 2 ^ s := by
    rw [← pow_add, show 28 - s + s = 28 by omega]
  obtain ⟨p, hp⟩ : ∃ p, p = 2 ^ (28 - s) := ⟨_, rfl⟩
  obtain ⟨q, hq⟩ : ∃ q, q = 2 ^ s := ⟨_, rfl⟩
  rw [← hp, ← hq] at hr
  rw [hmod, ← hp, ← hq]
  have hp0 : 0 < p := by rw [hp]; positivity
  -- the low part of the product and the carry fit one bigit
  have hlow : x % p * q + carry < radix := by
    have : (x % p + 1) * q ≤ p * q := Nat.mul_le_mul_right q (Nat.mod_lt x hp0)
    linarith
  have hx' : x * q + carry = x % p * q + carry + radix * (x / p) := by
    rw [hr]
    have := congrArg (· * q) (Nat.mod_add_div x p)
    linarith
  rw [hx', Nat.add_mul_mod_self_left, Nat.mod_eq_of_lt hlow]
  linarith

theorem shiftLoop_scaled (h : ∀ j, bs j < radix) {s : Nat} (hs : s < 28) (i : Nat) :
    Scaled bs (2 ^ s) i (shiftLoop bs s i) := by
  induction i with
  | zero => exact Scaled.start h (Nat.two_pow_pos s)
  | succ i ih =>
    exact ih.step (Nat.mod_lt _ (Nat.two_pow_pos 28)) (shift_step hs ih.carry_lt)

theorem bigitsShiftLeft_spec (h : b.Valid) (hu : b.used ≠ 0) (hroom : b.used < 128) {s : Nat} (hs : s < 28) :
    (bigitsShiftLeft b s).Valid ∧ (bigitsShiftLeft b s).value = b.value * 2 ^ s ∧
      (bigitsShiftLeft b s).used ≤ b.used + 1 ∧ (bigitsShiftLeft b s).exponent = b.exponent := by
  have hloop := shiftLoop_scaled h.lt hs b.used
  have hm : ofLimbs radix (shiftLoop b.bigits s b.used).1 b.used +
      (shiftLoop b.bigits s b.used).2 * radix ^ b.used = 2 ^ s * b.mantissa := hloop.value
  have hlow : b.mantissa ≤ 2 ^ s * b.mantissa := Nat.le_mul_of_pos_left _ (Nat.two_pow_pos s)
  have htop := h.le_mantissa hu
  have habove : ∀ j, b.used ≤ j → (shiftLoop b.bigits s b.used).1 j = 0 :=
    fun j hj => (hloop.frame j hj).trans (h.above j hj)
  show Valid (if (shiftLoop b.bigits s b.used).2 = 0 then _ else _) ∧
    value (if (shiftLoop b.bigits s b.used).2 = 0 then _ else _) = _ ∧
    used (if (shiftLoop b.bigits s b.used).2 = 0 then _ else _) ≤ _ ∧
    exponent (if (shiftLoop b.bigits s b.used).2 = 0 then _ else _) = _
  by_cases hc : (shiftLoop b.bigits s b.used).2 = 0
  · simp only [if_pos hc]
    rw [hc] at hm
    have hmant : mantissa ⟨(shiftLoop b.bigits s b.used).1, b.used, b.exponent⟩ = 2 ^ s * b.mantissa := by
      simpa [mantissa] using hm
    refine ⟨Loose.valid ⟨hloop.lt, habove, h.used_le, h.exponent_lt⟩ hu ?_, ?_, by simp, trivial⟩
    · rw [hmant]
      exact le_trans htop hlow
    · rw [value_eq, hmant, value_eq]
      ring
  · simp only [if_neg hc]
    have hcarry := lt_trans hloop.carry_lt (Nat.pow_lt_pow_right (by decide) hs)
    have hmant : mantissa ⟨update (shiftLoop b.bigits s b.used).1 b.used
        (shiftLoop b.bigits s b.used).2, b.used + 1, b.exponent⟩ = 2 ^ s * b.mantissa := by
      rw [← hm]
      exact ofLimbs_update_succ _ _ _
    refine ⟨⟨update_lt hloop.lt hcarry, fun i hi => ?_, ?_, h.exponent_lt, .inr ?_, ?_⟩, ?_, le_refl _, trivial⟩
    · grind
    · show b.used + 1 ≤ 128
      omega
    · simp_all
    · exact fun h0 => absurd h0 (Nat.succ_ne_zero _)
    · rw [value_eq, hmant, value_eq]
      ring

theorem shiftLeft_meets (h : b.Valid) (amount : Nat) : Meets (shiftLeft b amount)
      (fun r => r.Valid ∧ r.value = b.value * 2 ^ amount ∧ r.used ≤ b.used + 1 ∧
        (b.used ≠ 0 → r.exponent = b.exponent + amount / 28))
      (Refused (b.used ≠ 0 ∧ (128 ≤ b.used ∨ 2 ^ 31 ≤ b.exponent + amount / 28))) := by
  unfold shiftLeft
  by_cases hu : b.used = 0
  · simp [Meets.pure, value_of_used_eq_zero, hu, h]
  · rw [if_neg hu]
    refine (int_meets _).bind (Refused.mono fun h' => ⟨hu, .inr h'⟩) ?_
    rintro _ ⟨rfl, hexp⟩
    refine (ensureCapacity_meets _).bind (Refused.mono fun h' => ⟨hu, .inl (by omega)⟩) fun _ hcap => ?_
    have hb : Valid ⟨b.bigits, b.used, b.exponent + amount / 28⟩ :=
      ⟨h.lt, h.above, h.used_le, hexp, h.clamped, fun h0 => absurd h0 hu⟩
    obtain ⟨h1, h2, h3, h4⟩ := bigitsShiftLeft_spec hb hu (show b.used < 128 by omega)
      (Nat.mod_lt amount (by decide : 0 < 28))
    refine Meets.pure ⟨h1, h2.trans ?_, h3, fun _ => h4⟩
    rw [value_eq, value_eq]
    show b.mantissa * radix ^ (b.exponent + amount / 28) * 2 ^ (amount % 28) = _
    have hpow : radix ^ (amount / 28) * 2 ^ (amount % 28) = 2 ^ amount := by
      rw [← pow_mul, ← pow_add, Nat.div_add_mod]
    grind

/-! ## Products -/

/-- The carry is appended whole, if there is room for it. -/
theorem appendCarry_meets (fuel : Nat) {b : Bignum} {carry : Nat} (h : b.Loose) (hfuel : carry ≤ fuel) :
    Meets (appendCarry fuel b carry) (fun r => r.Loose ∧ r.mantissa = b.mantissa + carry * radix ^ b.used ∧
        r.exponent = b.exponent ∧ b.used ≤ r.used ∧ (carry = 0 → r = b) ∧
        (carry ≠ 0 → b.used < r.used ∧ r.bigits (r.used - 1) ≠ 0))
      (Refused (radix ^ 128 ≤ b.mantissa + carry * radix ^ b.used)) := by
  induction fuel generalizing b carry with
  | zero =>
    have h0 : carry = 0 := by omega
    subst h0
    exact ⟨h, by simp, rfl, le_refl _, fun _ => rfl, fun h0 => absurd rfl h0⟩
  | succ fuel ih =>
    unfold appendCarry
    by_cases h0 : carry = 0
    · subst h0
      exact ⟨h, by simp, rfl, le_refl _, fun _ => rfl, fun h0 => absurd rfl h0⟩
    · rw [if_neg h0]
      have hdiv := Nat.mod_add_div carry radix
      refine (ensureCapacity_meets _).bind (Refused.mono fun h' => ?_) fun _ hcap => ?_
      · have h1 : radix ^ 128 ≤ radix ^ b.used :=
          Nat.pow_le_pow_right (Nat.two_pow_pos 28) (by omega)
        have h2 : 1 * radix ^ b.used ≤ carry * radix ^ b.used := Nat.mul_le_mul_right _ (by omega)
        omega
      rw [chunk_mod]
      have hnext : Loose ⟨update b.bigits b.used (carry % radix), b.used + 1, b.exponent⟩ := by
        refine ⟨update_lt h.lt (Nat.mod_lt _ (Nat.two_pow_pos 28)), fun i hi => ?_, hcap, h.exponent_lt⟩
        have hi' : b.used + 1 ≤ i := hi
        show update _ _ _ i = 0
        rw [update_of_ne (by omega)]
        exact h.above i (by omega)
      have hsame : mantissa ⟨update b.bigits b.used (carry % radix), b.used + 1, b.exponent⟩ +
          carry / radix * radix ^ (b.used + 1) = b.mantissa + carry * radix ^ b.used := by
        show ofLimbs radix _ (b.used + 1) + _ = _
        rw [ofLimbs_update_succ, pow_succ radix b.used]
        have := congrArg (· * radix ^ b.used) hdiv
        show b.mantissa + _ + _ = _
        linarith
      have hless : carry / radix ≤ fuel := by
        grind
      refine (ih hnext hless).mono ?_ (Refused.mono fun h' => by rw [← hsame]; exact h')
      rintro r ⟨hr, hmant, hexp, hused, hstop, hmore⟩
      have hused' : b.used + 1 ≤ r.used := hused
      refine ⟨hr, hmant.trans hsame, hexp, by omega, fun hc => absurd hc h0, fun _ => ⟨by omega, ?_⟩⟩
      by_cases hc : carry / radix = 0
      · -- the last bigit of the carry is on top
        rw [hstop hc]
        show update _ b.used _ (b.used + 1 - 1) ≠ 0
        grind
      · exact (hmore hc).2

/-- Both products: a loop that has multiplied the bigits in use, and then the carry. -/
theorem appendScaled_meets (h : b.Valid) (hu : b.used ≠ 0) {r : (Nat → Nat) × Nat}
    (hloop : Scaled b.bigits factor b.used r) :
    Meets (appendCarry r.2 ⟨r.1, b.used, b.exponent⟩ r.2)
      (fun r => r.Valid ∧ r.value = b.value * factor ∧ r.exponent = b.exponent ∧ r.used ≠ 0)
      (Refused (radix ^ 128 ≤ b.mantissa * factor)) := by
  have hloose : Loose ⟨r.1, b.used, b.exponent⟩ :=
    ⟨hloop.lt, fun j hj => (hloop.frame j hj).trans (h.above j hj), h.used_le, h.exponent_lt⟩
  have hm : mantissa ⟨r.1, b.used, b.exponent⟩ + r.2 * radix ^ b.used = factor * b.mantissa :=
    hloop.value
  have hfactor : 1 ≤ factor := by
    have := hloop.carry_lt
    omega
  refine (appendCarry_meets r.2 hloose (le_refl _)).mono ?_
    (Refused.mono fun h' => by rw [mul_comm b.mantissa, ← hm]; exact h')
  rintro s ⟨hs, hmant, hexp, hused, hstop, hmore⟩
  have hmant' := hmant.trans hm
  have hused' : b.used ≤ s.used := hused
  have hu' : s.used ≠ 0 := by omega
  refine ⟨?_, ?_, hexp, hu'⟩
  · by_cases hc : r.2 = 0
    · refine hs.valid hu' ?_
      rw [hmant', hstop hc]
      exact le_trans (h.le_mantissa hu) (Nat.le_mul_of_pos_left _ hfactor)
    · exact ⟨hs.lt, hs.above, hs.used_le, hs.exponent_lt, .inr (hmore hc).2, fun h0 => absurd h0 hu'⟩
  · rw [value_eq, value_eq, hmant', hexp]
    ring

theorem multiplyLoop32_scaled (h : ∀ j, bs j < radix) (h0 : 0 < factor)
    (hf : factor < 2 ^ 32) (i : Nat) : Scaled bs factor i (multiplyLoop32 bs factor i) := by
  induction i with
  | zero => exact Scaled.start h h0
  | succ i ih =>
    have hx := ih.lt i
    have hc := ih.carry_lt
    have hfit : factor * (multiplyLoop32 bs factor i).1 i + (multiplyLoop32 bs factor i).2 < 2 ^ 64 := by
      have := Nat.mul_le_mul (le_of_lt hf) (le_of_lt hx)
      unfold radix at this
      omega
    show Scaled bs factor (i + 1) (update _ i (chunk (doubleChunk _ % radix)), doubleChunk _ / radix)
    rw [chunk_mod, doubleChunk_eq hfit]
    exact ih.step (Nat.mod_lt _ (Nat.two_pow_pos 28)) (Nat.mod_add_div _ _)

theorem multiplyByUInt32_meets (h : b.Valid) (hf : factor < 2 ^ 32) : Meets (multiplyByUInt32 b factor)
      (fun r => r.Valid ∧ r.value = b.value * factor ∧ (factor ≠ 0 → r.exponent = b.exponent) ∧
        (factor ≠ 0 → b.used ≠ 0 → r.used ≠ 0))
      (Refused (radix ^ 128 ≤ b.mantissa * factor)) := by
  unfold multiplyByUInt32
  by_cases h1 : factor = 1
  · rw [if_pos h1, h1]
    exact ⟨h, by simp, fun _ => rfl, fun _ hu => hu⟩
  · rw [if_neg h1]
    by_cases h0 : factor = 0
    · rw [if_pos h0, h0]
      exact ⟨zero_valid h, by simp [zero_value], fun h0 => absurd rfl h0, fun h0 => absurd rfl h0⟩
    · rw [if_neg h0]
      by_cases hu : b.used = 0
      · rw [if_pos hu]
        exact ⟨h, by simp [value_of_used_eq_zero hu], fun _ => rfl, fun _ hu => hu⟩
      · rw [if_neg hu]
        refine (appendScaled_meets h hu
          (multiplyLoop32_scaled h.lt (pos_of_ne_zero h0) hf b.used)).mono ?_ fun _ he => he
        grind

/-- One round of the 64-bit product, before anything is known to fit. -/
theorem multiply64_step (x carry factor : Nat) :
    (carry % radix + factor % 2 ^ 32 * x) % radix + radix * (carry / radix +
        (carry % radix + factor % 2 ^ 32 * x) / radix + factor / 2 ^ 32 * x * 2 ^ 4) =
      factor * x + carry := by
  have hf := congrArg (· * x) (Nat.mod_add_div factor (2 ^ 32))
  grind

theorem multiplyLoop64_scaled (h : ∀ j, bs j < radix) (h0 : 0 < factor)
    (hf : factor < 2 ^ 64) (i : Nat) : Scaled bs factor i (multiplyLoop64 bs factor i) := by
  induction i with
  | zero => exact Scaled.start h h0
  | succ i ih =>
    obtain ⟨s, hs⟩ : ∃ s, s = multiplyLoop64 bs factor i := ⟨_, rfl⟩
    rw [← hs] at ih
    have hx := ih.lt i
    have hstep := multiply64_step (s.1 i) s.2 factor
    have hcarry := carry_lt_of_step hx ih.carry_lt hstep
    have hlow : factor % 2 ^ 32 * s.1 i ≤ 2 ^ 32 * radix :=
      Nat.mul_le_mul (le_of_lt (Nat.mod_lt _ (by decide))) (le_of_lt hx)
    have hhigh : factor / 2 ^ 32 * s.1 i ≤ 2 ^ 32 * radix :=
      Nat.mul_le_mul (by omega) (le_of_lt hx)
    unfold radix at hlow hhigh
    have hnext : multiplyLoop64 bs factor (i + 1) =
        (update s.1 i ((s.2 % radix + factor % 2 ^ 32 * s.1 i) % radix), s.2 / radix +
          (s.2 % radix + factor % 2 ^ 32 * s.1 i) / radix + factor / 2 ^ 32 * s.1 i * 2 ^ 4) := by
      rw [multiplyLoop64, ← hs]
      simp only [chunk_mod, kBigitSize]
      rw [doubleChunk_eq (show factor % 2 ^ 32 * s.1 i < 2 ^ 64 by omega),
        doubleChunk_eq (show factor / 2 ^ 32 * s.1 i < 2 ^ 64 by omega),
        doubleChunk_eq (show s.2 % radix + factor % 2 ^ 32 * s.1 i < 2 ^ 64 by
          unfold radix
          omega),
        doubleChunk_eq (lt_of_le_of_lt (Nat.le_add_left _ _) (lt_trans hcarry hf)),
        doubleChunk_eq (lt_trans hcarry hf)]
    rw [hnext]
    exact ih.step (Nat.mod_lt _ (Nat.two_pow_pos 28)) hstep

theorem multiplyByUInt64_meets (h : b.Valid) (hf : factor < 2 ^ 64) : Meets (multiplyByUInt64 b factor)
      (fun r => r.Valid ∧ r.value = b.value * factor ∧ (factor ≠ 0 → r.exponent = b.exponent) ∧
        (factor ≠ 0 → b.used ≠ 0 → r.used ≠ 0))
      (Refused (radix ^ 128 ≤ b.mantissa * factor)) := by
  unfold multiplyByUInt64
  by_cases h1 : factor = 1
  · rw [if_pos h1, h1]
    exact ⟨h, by simp, fun _ => rfl, fun _ hu => hu⟩
  · rw [if_neg h1]
    by_cases h0 : factor = 0
    · rw [if_pos h0, h0]
      exact ⟨zero_valid h, by simp [zero_value], fun h0 => absurd rfl h0, fun h0 => absurd rfl h0⟩
    · rw [if_neg h0]
      by_cases hu : b.used = 0
      · -- nothing is in use and the carry is zero
        rw [hu]
        have hb : (⟨b.bigits, 0, b.exponent⟩ : Bignum) = b := by rw [← hu]
        show Valid ⟨b.bigits, 0, b.exponent⟩ ∧ _
        simp [value_of_used_eq_zero, hb, h, hu]
      · refine (appendScaled_meets h hu
          (multiplyLoop64_scaled h.lt (pos_of_ne_zero h0) hf b.used)).mono ?_ fun _ he => he
        grind

/-! ## Powers of ten -/

theorem kFive27_eq : kFive27 = 5 ^ 27 := by decide

theorem kFive13_eq : kFive13 = 5 ^ 13 := by decide

theorem kFive1To12_eq : ∀ i < 12, kFive1To12.getD i 0 = 5 ^ (i + 1) := by decide

/-- A nonzero number has been multiplied by `5 ^ k` in place. -/
def TimesFive (b : Bignum) (k : Nat) (r : Bignum) : Prop :=
  r.Valid ∧ r.value = b.value * 5 ^ k ∧ r.exponent = b.exponent ∧ r.used ≠ 0

theorem TimesFive.mantissa_eq {r : Bignum} (h : TimesFive b k r) : r.mantissa = b.mantissa * 5 ^ k := by
  obtain ⟨-, hval, hexp, -⟩ := h
  rw [value_eq, value_eq, hexp, mul_right_comm] at hval
  exact Nat.eq_of_mul_eq_mul_right (by positivity) hval

theorem TimesFive.trans {r s : Bignum} {l : Nat} (h : TimesFive b k r) (h' : TimesFive r l s) :
    TimesFive b (k + l) s := by
  refine ⟨h'.1, ?_, h'.2.2.1.trans h.2.2.1, h'.2.2.2⟩
  rw [h'.2.1, h.2.1, pow_add, mul_assoc]

theorem timesFive_refl (h : b.Valid) (hu : b.used ≠ 0) : TimesFive b 0 b :=
  ⟨h, by simp, rfl, hu⟩

theorem multiplyByUInt32_five (h : b.Valid) (hu : b.used ≠ 0) (hk : 5 ^ k < 2 ^ 32) :
    Meets (multiplyByUInt32 b (5 ^ k)) (TimesFive b k) (Refused (radix ^ 128 ≤ b.mantissa * 5 ^ k)) := by
  have h0 : 5 ^ k ≠ 0 := by positivity
  refine (multiplyByUInt32_meets h hk).mono ?_ fun _ he => he
  exact fun r hr => ⟨hr.1, hr.2.1, hr.2.2.1 h0, hr.2.2.2 h0 hu⟩

theorem multiplyByUInt64_five (h : b.Valid) (hu : b.used ≠ 0) (hk : 5 ^ k < 2 ^ 64) :
    Meets (multiplyByUInt64 b (5 ^ k)) (TimesFive b k) (Refused (radix ^ 128 ≤ b.mantissa * 5 ^ k)) := by
  have h0 : 5 ^ k ≠ 0 := by positivity
  refine (multiplyByUInt64_meets h hk).mono ?_ fun _ he => he
  exact fun r hr => ⟨hr.1, hr.2.1, hr.2.2.1 h0, hr.2.2.2 h0 hu⟩

/-- A number too large for a part of the power is too large for all of it. -/
theorem too_large_mono {m l : Nat} (hkl : k ≤ l) (h : radix ^ 128 ≤ m * 5 ^ k) : radix ^ 128 ≤ m * 5 ^ l :=
  le_trans h (Nat.mul_le_mul_left _ (Nat.pow_le_pow_right (by decide) hkl))

theorem multiplyFive27_meets (fuel : Nat) {b : Bignum} {remaining : Nat} (h : b.Valid)
    (hu : b.used ≠ 0) (hfuel : remaining ≤ fuel) :
    Meets (multiplyFive27 fuel b remaining)
      (fun r => TimesFive b (remaining - r.2) r.1 ∧ r.2 ≤ remaining ∧ r.2 < 27)
      (Refused (radix ^ 128 ≤ b.mantissa * 5 ^ remaining)) := by
  induction fuel generalizing b remaining with
  | zero =>
    refine Meets.pure ⟨?_, le_refl _, by omega⟩
    rw [Nat.sub_self]
    exact timesFive_refl h hu
  | succ fuel ih =>
    unfold multiplyFive27
    by_cases hr : remaining ≥ 27
    · rw [if_pos hr, kFive27_eq]
      refine (multiplyByUInt64_five h hu (by decide)).bind (Refused.mono (too_large_mono hr)) ?_
      intro c hc
      refine (ih hc.1 hc.2.2.2 (by omega)).mono ?_ (Refused.mono fun h' => ?_)
      · rintro r ⟨hr1, hr2, hr3⟩
        have := hc.trans hr1
        grind
      · rw [hc.mantissa_eq, mul_assoc, ← pow_add, show 27 + (remaining - 27) = remaining by omega] at h'
        exact h'
    · rw [if_neg hr]
      refine Meets.pure ⟨?_, le_refl _, by omega⟩
      rw [Nat.sub_self]
      exact timesFive_refl h hu

theorem multiplyFive13_meets (fuel : Nat) {b : Bignum} {remaining : Nat} (h : b.Valid)
    (hu : b.used ≠ 0) (hfuel : remaining ≤ fuel) :
    Meets (multiplyFive13 fuel b remaining)
      (fun r => TimesFive b (remaining - r.2) r.1 ∧ r.2 ≤ remaining ∧ r.2 < 13)
      (Refused (radix ^ 128 ≤ b.mantissa * 5 ^ remaining)) := by
  induction fuel generalizing b remaining with
  | zero =>
    refine Meets.pure ⟨?_, le_refl _, by omega⟩
    rw [Nat.sub_self]
    exact timesFive_refl h hu
  | succ fuel ih =>
    unfold multiplyFive13
    by_cases hr : remaining ≥ 13
    · rw [if_pos hr, kFive13_eq]
      refine (multiplyByUInt32_five h hu (by decide)).bind (Refused.mono (too_large_mono hr)) ?_
      intro c hc
      refine (ih hc.1 hc.2.2.2 (by omega)).mono ?_ (Refused.mono fun h' => ?_)
      · rintro r ⟨hr1, hr2, hr3⟩
        have := hc.trans hr1
        grind
      · rw [hc.mantissa_eq, mul_assoc, ← pow_add, show 13 + (remaining - 13) = remaining by omega] at h'
        exact h'
    · rw [if_neg hr]
      refine Meets.pure ⟨?_, le_refl _, by omega⟩
      rw [Nat.sub_self]
      exact timesFive_refl h hu

theorem multiplyByPowerOfTen_meets (h : b.Valid) (k : Nat) : Meets (multiplyByPowerOfTen b k)
      (fun r => r.Valid ∧ r.value = b.value * 10 ^ k ∧ (b.used ≠ 0 → k ≠ 0 → r.exponent = b.exponent + k / 28))
      (Refused (radix ^ 127 ≤ b.mantissa * 5 ^ k ∨ 2 ^ 31 ≤ b.exponent + k / 28)) := by
  have hlarge : radix ^ 128 ≤ b.mantissa * 5 ^ k → radix ^ 127 ≤ b.mantissa * 5 ^ k :=
    le_trans (Nat.pow_le_pow_right (Nat.two_pow_pos 28) (by decide))
  unfold multiplyByPowerOfTen
  by_cases hk : k = 0
  · rw [if_pos hk, hk]
    exact ⟨h, by simp, fun _ h0 => absurd rfl h0⟩
  rw [if_neg hk]
  by_cases hu : b.used = 0
  · rw [if_pos hu]
    exact ⟨h, by simp [value_of_used_eq_zero hu], fun h0 => absurd hu h0⟩
  rw [if_neg hu]
  refine (multiplyFive27_meets k h hu (le_refl k)).bind (Refused.mono fun h' => .inl (hlarge h')) ?_
  rintro ⟨b1, k1⟩ ⟨h1, hk1, -⟩
  refine (multiplyFive13_meets k1 h1.1 h1.2.2.2 (le_refl k1)).bind (Refused.mono fun h' => .inl ?_) ?_
  · rw [h1.mantissa_eq, mul_assoc, ← pow_add, show k - k1 + k1 = k by omega] at h'
    exact hlarge h'
  rintro ⟨b2, k2⟩ ⟨h2, hk2, hk2'⟩
  have h12 := h1.trans h2
  have hlast : Meets (if k2 > 0 then multiplyByUInt32 b2 (kFive1To12.getD (k2 - 1) 0) else pure b2)
      (TimesFive b2 k2) (Refused (radix ^ 128 ≤ b2.mantissa * 5 ^ k2)) := by
    by_cases h0 : k2 > 0
    · rw [if_pos h0, kFive1To12_eq _ (by omega), show k2 - 1 + 1 = k2 by omega]
      refine multiplyByUInt32_five h2.1 h2.2.2.2 ?_
      exact lt_of_le_of_lt (Nat.pow_le_pow_right (by decide) (show k2 ≤ 12 by omega)) (by decide)
    · rw [if_neg h0, show k2 = 0 by omega]
      exact timesFive_refl h2.1 h2.2.2.2
  refine hlast.bind (Refused.mono fun h' => .inl ?_) ?_
  · rw [h12.mantissa_eq, mul_assoc, ← pow_add, show k - k1 + (k1 - k2) + k2 = k by omega] at h'
    exact hlarge h'
  intro b3 h3
  have h123 := h12.trans h3
  rw [show k - k1 + (k1 - k2) + k2 = k by omega] at h123
  refine (shiftLeft_meets h3.1 k).mono ?_ (Refused.mono ?_)
  · rintro r ⟨hr, hval, -, hexp⟩
    refine ⟨hr, ?_, fun _ _ => by rw [hexp h3.2.2.2, h123.2.2.1]⟩
    rw [hval, h123.2.1, mul_assoc, ← mul_pow, show 5 * 2 = 10 from rfl]
  · rintro ⟨-, hcap | hexp⟩
    · left
      rw [← h123.mantissa_eq]
      refine le_trans ?_ (h3.1.le_mantissa h3.2.2.2)
      exact Nat.pow_le_pow_right (Nat.two_pow_pos 28) (by omega)
    · right
      rwa [h123.2.2.1] at hexp

end W16.Bignum
