import W16.FixedDtoa

/-!
# The machine words of `FastFixedDtoa`

Every loop that generates digits keeps the remaining number below the binary point, and the
point comes down by one bit for each digit. Multiplied by five the remainder stays in its word.
-/
namespace W16.FixedDtoa

open W16.CheckedWords

/-! ## UInt128 -/

namespace UInt128

def value (x : UInt128) : Nat := x.highBits * 2 ^ 64 + x.lowBits

/-- Both parts are words. -/
structure Valid (x : UInt128) : Prop where
  high : x.highBits < 2 ^ 64
  low : x.lowBits < 2 ^ 64

theorem and_kMask32 (x : Nat) : x &&& kMask32 = x % 2 ^ 32 := Nat.and_two_pow_sub_one_eq_mod x 32

variable {x : UInt128}

theorem multiply_safe {m : Nat} (hx : x.Valid) (hm : m < 2 ^ 32) (hlt : x.value * m < 2 ^ 128) :
    Safe (x.multiply m) fun y => y.Valid ∧ y.value = x.value * m := by
  obtain ⟨hhigh, hlow⟩ := hx
  -- the four partial products
  have hproduct : ∀ part, part < 2 ^ 32 → part * m ≤ (2 ^ 32 - 1) * (2 ^ 32 - 1) :=
    fun part hpart => Nat.mul_le_mul (by omega) (by omega)
  have hA := hproduct (x.lowBits % 2 ^ 32) (Nat.mod_lt _ (by decide))
  have hB := hproduct (x.lowBits / 2 ^ 32) (by omega)
  have hsum : x.value * m = x.lowBits % 2 ^ 32 * m + x.lowBits / 2 ^ 32 * m * 2 ^ 32 +
      x.highBits % 2 ^ 32 * m * 2 ^ 64 + x.highBits / 2 ^ 32 * m * 2 ^ 96 := by
    have h1 : x.lowBits = x.lowBits % 2 ^ 32 + x.lowBits / 2 ^ 32 * 2 ^ 32 := by omega
    have h2 : x.highBits = x.highBits % 2 ^ 32 + x.highBits / 2 ^ 32 * 2 ^ 32 := by omega
    rw [value]
    conv_lhs => rw [h1, h2]
    ring
  rw [hsum] at hlt ⊢
  have hAB : x.lowBits % 2 ^ 32 * m / 2 ^ 32 + x.lowBits / 2 ^ 32 * m < 2 ^ 64 := by omega
  unfold multiply
  simp only [and_kMask32]
  refine .step (mul_eq (by omega)) ?_
  refine .step (shr_eq (s := 32) (by decide)) ?_
  refine .step (shr_eq (s := 32) (by decide)) ?_
  refine .step (mul_eq (by omega)) ?_
  refine .step (add_eq hAB) ?_
  refine .step (shl_eq (s := 32) (by decide)) ?_
  refine .step (add_eq (by omega)) ?_
  refine .step (shr_eq (s := 32) (by decide)) ?_
  refine .step (mul_eq (by omega)) ?_
  refine .step (add_eq (by omega)) ?_
  refine .step (shr_eq (s := 32) (by decide)) ?_
  refine .step (shr_eq (s := 32) (by decide)) ?_
  refine .step (mul_eq (by omega)) ?_
  refine .step (add_eq (by omega)) ?_
  refine .step (shl_eq (s := 32) (by decide)) ?_
  refine .step (add_eq (by omega)) ?_
  refine .step (shr_eq (s := 32) (by decide)) ?_
  refine .step (assert_eq (by omega)) ?_
  refine .ok ⟨⟨?_, ?_⟩, ?_⟩
  · dsimp only
    omega
  · dsimp only
    omega
  · simp only [value]
    omega

/-- The words of a product and of a sum are full where the number is. -/
theorem shift_safe {fractionals s : Nat} (hf : fractionals < 2 ^ 64) (h1 : 1 ≤ s) (hs : s ≤ 64) :
    Safe (shift ⟨fractionals, 0⟩ s) fun y => y.Valid ∧ y.value = fractionals * 2 ^ (64 - s) := by
  refine .step (assert_eq (by omega)) ?_
  rw [if_neg (by omega), if_neg (by omega)]
  by_cases h64 : s = 64
  · rw [if_pos (by omega), h64]
    exact .ok ⟨⟨Nat.two_pow_pos 64, hf⟩, by simp [value]⟩
  · rw [if_neg (by omega), if_neg (by omega), show ((64 : Int) - s) = ((64 - s : Nat) : Int) by omega]
    refine .step (shr_eq (by omega)) ?_
    refine .step (shl_eq (by omega)) ?_
    refine .step (add_eq (by rw [Nat.zero_div]; omega)) ?_
    refine .step (shr_eq (by omega)) ?_
    -- the bits of the low word that leave it are those of the high word
    have hpow : 2 ^ 64 = 2 ^ s * 2 ^ (64 - s) := by rw [← pow_add]; congr 1; omega
    have hsplit : fractionals * 2 ^ (64 - s) % 2 ^ 64 = fractionals % 2 ^ s * 2 ^ (64 - s) := by
      rw [hpow, Nat.mul_mod_mul_right]
    refine .ok ⟨⟨lt_of_le_of_lt (Nat.div_le_self _ _) hf, ?_⟩, ?_⟩
    · dsimp only
      rw [Nat.zero_div]
      omega
    · simp only [value]
      rw [Nat.zero_div, zero_add, hsplit, hpow]
      conv_rhs => rw [← Nat.div_add_mod fractionals (2 ^ s)]
      ring

/-- Above the low word a division by a power of two is one of the high word. -/
theorem highBits_div (hx : x.Valid) (k : Nat) :
    x.highBits / 2 ^ k = x.value / 2 ^ (64 + k) ∧ x.value % 2 ^ (64 + k) = x.highBits % 2 ^ k * 2 ^ 64 + x.lowBits := by
  have hlow : x.value / 2 ^ 64 = x.highBits := by
    rw [value, mul_comm, Nat.mul_add_div (by decide), Nat.div_eq_of_lt hx.low, add_zero]
  have hmod : x.value % 2 ^ 64 = x.lowBits := by
    grind -linarith [value]
  rw [pow_add, ← Nat.div_div_eq_div_mul, Nat.mod_mul, hlow, hmod]
  exact ⟨rfl, by ring⟩

theorem divModPowerOf2_safe {k : Nat} (hx : x.Valid) (hk : k ≤ 63) (hdigit : x.value / 2 ^ (64 + k) < 10) :
    Safe (x.divModPowerOf2 (64 + k : Nat)) fun r =>
      r.1.Valid ∧ r.1.value = x.value % 2 ^ (64 + k) ∧ r.2 = x.value / 2 ^ (64 + k) := by
  obtain ⟨hdiv, hmod⟩ := highBits_div hx k
  rw [← hdiv] at hdigit ⊢
  rw [hmod]
  have hcast : x.highBits / 2 ^ k % 2 ^ 32 = x.highBits / 2 ^ k :=
    Nat.mod_eq_of_lt (lt_trans hdigit (by decide))
  have hle : x.highBits / 2 ^ k * 2 ^ k ≤ x.highBits := Nat.div_mul_le_self _ _
  unfold divModPowerOf2
  rw [if_pos (by omega), show ((64 + k : Nat) : Int) - 64 = (k : Int) by omega]
  refine .step (shr_eq hk) ?_
  rw [hcast]
  refine .step (shl_eq_mul hk (lt_of_le_of_lt hle hx.high)) ?_
  refine .step (sub_eq hle) ?_
  refine .ok ⟨⟨lt_of_le_of_lt (Nat.sub_le _ _) hx.high, hx.low⟩, ?_, rfl⟩
  rw [value]
  rw [← Nat.mod_eq_sub_div_mul]

theorem bitAt_safe {position : Nat} (h64 : 64 ≤ position) (h127 : position ≤ 127) :
    Safe (x.bitAt position) fun _ => True := by
  unfold bitAt
  rw [if_pos (by omega), show ((position : Int) - 64) = ((position - 64 : Nat) : Int) by omega]
  exact .step (shr_eq (by omega)) (.ok trivial)

end UInt128

/-! ## The buffer -/

variable {capacity : Nat} {o : Output}

theorem put_safe {index : Nat} (h : index < capacity) (char : Nat) :
    Safe (put capacity o index char) fun o' => o'.length = o.length := by
  rw [put, if_pos h]
  exact .ok rfl

theorem putDigit_safe {index digit : Nat} (h : index < capacity) (hdigit : digit ≤ 9) :
    Safe (putDigit capacity o index digit) fun o' => o'.length = o.length := by
  rw [putDigit, if_pos hdigit]
  exact put_safe h _

variable {count : Nat}

theorem fillDigits_safe (number : Nat) (h : o.length + count ≤ capacity) :
    Safe (fillDigits capacity count number o) fun o' => o'.length = o.length := by
  induction count generalizing number o with
  | zero => exact .ok rfl
  | succ count ih =>
    refine .bind (putDigit_safe (by omega) (by omega)) fun o₁ h₁ => ?_
    exact (ih _ (by omega)).mono fun o' h' => h'.trans h₁

theorem fillDigits32FixedLength_safe (number : Nat) {requestedLength : Nat}
    (h : o.length + requestedLength ≤ capacity) :
    Safe (fillDigits32FixedLength capacity number requestedLength o) fun o' =>
      o'.length = o.length + requestedLength :=
  .bind (fillDigits_safe number h) fun o₁ h₁ => .ok (by simp [h₁])

theorem reverseDigits_safe {fuel number numberLength k : Nat} (hnum : number < 10 ^ k) (hfuel : k < fuel)
    (h : o.length + numberLength + k ≤ capacity) :
    Safe (reverseDigits capacity fuel number numberLength o) fun r =>
      r.1.length = o.length ∧ r.2 ≤ numberLength + k := by
  induction fuel generalizing number numberLength k o with
  | zero => exact absurd hfuel (Nat.not_lt_zero k)
  | succ fuel ih =>
    unfold reverseDigits
    by_cases h0 : number = 0
    · rw [if_neg (not_not_intro h0)]
      exact .ok ⟨rfl, Nat.le_add_right _ _⟩
    · rw [if_pos h0]
      cases k with
      | zero => exact absurd (Nat.lt_one_iff.1 hnum) h0
      | succ k =>
        refine .bind (putDigit_safe (by omega) (by omega)) fun o₁ h₁ => ?_
        have hrest : number / 10 < 10 ^ k := Nat.div_lt_of_lt_mul (by rwa [Nat.pow_succ'] at hnum)
        refine (ih hrest (by omega) (by omega)).mono fun r ⟨hlen, hr⟩ => ⟨hlen.trans h₁, by omega⟩

theorem exchange_safe {fuel i j : Nat} (hpos : 0 < fuel) (hfuel : j < i + fuel) (hj : i < j → j < capacity) :
    Safe (exchange capacity fuel i j o) fun o' => o'.length = o.length := by
  induction fuel generalizing i j o with
  | zero => exact absurd hpos (lt_irrefl 0)
  | succ fuel ih =>
    unfold exchange
    by_cases hij : i < j
    · rw [if_pos hij]
      have hj := hj hij
      refine .bind (put_safe (by omega) _) fun o₁ h₁ => ?_
      refine .bind (put_safe hj _) fun o₂ h₂ => ?_
      exact (ih (by omega) (by omega) fun _ => by omega).mono fun o' h' => h'.trans (h₂.trans h₁)
    · rw [if_neg hij]
      exact .ok rfl

/-- A number below `10 ^ k` has at most `k` digits. -/
theorem fillDigits32_safe {number k : Nat} (hnum : number < 10 ^ k) (h32 : number < 10 ^ 10)
    (h : o.length + k ≤ capacity) :
    Safe (fillDigits32 capacity number o) fun o' => o'.length ≤ o.length + k := by
  have hmin : number < 10 ^ min k 10 := by
    grind
  refine .bind (reverseDigits_safe hmin (by omega) (by omega)) fun r ⟨hlen, hr⟩ => ?_
  refine .bind (exchange_safe (by decide) (by omega) fun _ => by omega) fun o₂ h₂ => ?_
  exact .ok (by dsimp only; omega)

/-- A cast to 32 bits keeps a number that has at most nine digits. -/
theorem cast32 {x : Nat} (h : x < 10 ^ 9) : x % 2 ^ 32 = x := Nat.mod_eq_of_lt (lt_trans h (by decide))

theorem fillDigits64FixedLength_safe (number : Nat) (requestedLength : Nat) (h : o.length + 17 ≤ capacity) :
    Safe (fillDigits64FixedLength capacity number requestedLength o) fun o' => o'.length = o.length + 17 := by
  refine .bind (fillDigits32FixedLength_safe _ (by omega)) fun o₁ h₁ => ?_
  refine .bind (fillDigits32FixedLength_safe _ (by omega)) fun o₂ h₂ => ?_
  exact (fillDigits32FixedLength_safe _ (by omega)).mono fun o' h' => by omega

theorem fillDigits64_safe {number k : Nat} (hnum : number < 10 ^ k) (hk : k ≤ 20)
    (h : o.length + k ≤ capacity) :
    Safe (fillDigits64 capacity number o) fun o' => o'.length ≤ o.length + k := by
  have hlt : number < 10 ^ 20 := lt_of_lt_of_le hnum (Nat.pow_le_pow_right (by decide) hk)
  have hmod : ∀ x : Nat, x % kTen7 < 10 ^ 9 := fun x => lt_trans (Nat.mod_lt _ (by decide)) (by decide)
  have hpart0 : number / kTen7 / kTen7 < 10 ^ 9 := by unfold kTen7; omega
  have hwide : (10 : Nat) ^ 9 < 10 ^ 10 := by decide
  unfold fillDigits64
  simp only [cast32 hpart0, cast32 (hmod _)]
  by_cases h0 : number / kTen7 / kTen7 = 0
  · rw [if_neg (not_not_intro h0)]
    by_cases h1 : number / kTen7 % kTen7 = 0
    · -- one part, the number itself
      rw [if_neg (not_not_intro h1)]
      have hself : number % kTen7 = number := by unfold kTen7 at *; omega
      exact fillDigits32_safe (by rwa [hself]) (lt_trans (hmod _) hwide) h
    · rw [if_pos h1]
      have hk7 : 7 < k := by
        have hge : 10 ^ 7 ≤ number := by unfold kTen7 at *; omega
        exact (Nat.pow_lt_pow_iff_right (by decide)).1 (lt_of_le_of_lt hge hnum)
      have hpart1 : number / kTen7 % kTen7 < 10 ^ (k - 7) := by
        refine lt_of_le_of_lt (Nat.mod_le _ _) (Nat.div_lt_of_lt_mul ?_)
        rwa [show kTen7 = 10 ^ 7 from rfl, ← pow_add, Nat.add_sub_cancel' (le_of_lt hk7)]
      refine .bind (fillDigits32_safe hpart1 (lt_trans (hmod _) hwide) (by omega)) fun o₁ h₁ => ?_
      exact (fillDigits32FixedLength_safe _ (by omega)).mono fun o' h' => by omega
  · rw [if_pos h0]
    have hk14 : 14 < k := by
      have hge : 10 ^ 14 ≤ number := by unfold kTen7 at *; omega
      exact (Nat.pow_lt_pow_iff_right (by decide)).1 (lt_of_le_of_lt hge hnum)
    have hpart : number / kTen7 / kTen7 < 10 ^ (k - 14) := by
      rw [Nat.div_div_eq_div_mul]
      refine Nat.div_lt_of_lt_mul ?_
      rwa [show kTen7 * kTen7 = 10 ^ 14 from rfl, ← pow_add, Nat.add_sub_cancel' (le_of_lt hk14)]
    refine .bind (fillDigits32_safe hpart (lt_trans hpart0 hwide) (by omega)) fun o₁ h₁ => ?_
    refine .bind (fillDigits32FixedLength_safe _ (by omega)) fun o₂ h₂ => ?_
    exact (fillDigits32FixedLength_safe _ (by omega)).mono fun o' h' => by omega

theorem carry_safe {i : Nat} (h : i < capacity) : Safe (carry capacity i o) fun o' => o'.length = o.length := by
  induction i generalizing o with
  | zero =>
    unfold carry
    split
    · exact .bind (put_safe h _) fun o₁ h₁ => .ok h₁
    · exact .ok rfl
  | succ i ih =>
    unfold carry
    split
    · exact .ok rfl
    · refine .bind (put_safe h _) fun o₁ h₁ => ?_
      refine .bind (put_safe (by omega) _) fun o₂ h₂ => ?_
      grind

theorem roundUp_safe (hpos : 0 < capacity) (h : o.length ≤ capacity) :
    Safe (roundUp capacity o) fun o' => o'.length = max o.length 1 := by
  unfold roundUp
  cases hlen : o.length with
  | zero => exact .bind (put_safe hpos _) fun o₁ _ => .ok rfl
  | succ last =>
    refine .bind (put_safe (by omega) _) fun o₁ h₁ => ?_
    exact (carry_safe (by omega)).mono fun o' h' => by omega

theorem trimmedLength_le (buffer : Nat → Nat) (length : Nat) : trimmedLength buffer length ≤ length := by
  induction length with
  | zero => exact Nat.le_refl 0
  | succ length ih =>
    grind [trimmedLength]

theorem firstNonZero_le (buffer : Nat → Nat) (remaining i : Nat) :
    firstNonZero buffer remaining i ≤ i + remaining := by
  induction remaining generalizing i with
  | zero => exact Nat.le_refl i
  | succ remaining ih =>
    grind [firstNonZero]

theorem moveDigits_safe {shift remaining i : Nat} (h : i + remaining ≤ capacity) :
    Safe (moveDigits capacity shift remaining i o) fun o' => o'.length = o.length := by
  induction remaining generalizing i o with
  | zero => exact .ok rfl
  | succ remaining ih =>
    refine .bind (put_safe (by omega) _) fun o₁ h₁ => ?_
    exact (ih (by omega)).mono fun o' h' => h'.trans h₁

theorem trimZeros_safe (h : o.length ≤ capacity) :
    Safe (trimZeros capacity o) fun o' => o'.length ≤ o.length := by
  have hlen := trimmedLength_le o.buffer o.length
  have hfirst := firstNonZero_le o.buffer (trimmedLength o.buffer o.length) 0
  unfold trimZeros
  dsimp only
  split
  · refine .bind (moveDigits_safe (by omega)) fun o₁ h₁ => .ok ?_
    dsimp only at h₁ ⊢
    omega
  · exact .ok hlen

/-! ## FillFractionals -/

/-- What remains of a fraction in a word of `w` bits is below the point at bit `p`. It starts
with `b` bits, and gets more of them by the multiplications only until the point is three bits
below the word. -/
structure Remains (w b p f : Nat) : Prop where
  point : p ≤ w
  lt : f < 2 ^ p
  small : w < p + 3 → f < 2 ^ b * 5 ^ (w - p)

theorem Remains.step {w b p f : Nat} (hb : b + 7 ≤ w) (h : Remains w b p f) (hf : f ≠ 0) :
    ∃ k, p = k + 1 ∧ f * 5 < 2 ^ w ∧ f * 5 / 2 ^ k < 10 ∧ Remains w b k (f * 5 % 2 ^ k) := by
  obtain ⟨hp, hlt, hsmall⟩ := h
  cases p with
  | zero => exact absurd (Nat.lt_one_iff.1 hlt) hf
  | succ k =>
    refine ⟨k, rfl, ?_, ?_, by omega, Nat.mod_lt _ (Nat.two_pow_pos k), fun hk => ?_⟩
    · by_cases hw : w < k + 1 + 3
      · have hfive : 5 ^ (w - (k + 1)) ≤ 5 ^ 2 := Nat.pow_le_pow_right (by decide) (by omega)
        have hlt7 : f < 2 ^ b * 5 ^ 2 := lt_of_lt_of_le (hsmall hw) (Nat.mul_le_mul_left _ hfive)
        have hpow : 2 ^ b * 2 ^ 7 ≤ 2 ^ w := by
          rw [← Nat.pow_add]
          exact Nat.pow_le_pow_right (by decide) hb
        omega
      · have hpow : 2 ^ (k + 1) * 2 ^ 3 ≤ 2 ^ w := by
          rw [← Nat.pow_add]
          exact Nat.pow_le_pow_right (by decide) (by omega)
        omega
    · refine Nat.div_lt_of_lt_mul ?_
      omega
    · refine lt_of_le_of_lt (Nat.mod_le _ _) ?_
      rw [show w - k = w - (k + 1) + 1 by omega, Nat.pow_succ, ← Nat.mul_assoc]
      omega

theorem fractionalDigits_safe {f p : Nat} (h : Remains 64 53 p f) (hcap : o.length + count ≤ capacity) :
    Safe (fractionalDigits capacity count f p o) fun r =>
      ∃ p' : Nat, r.2.1 = p' ∧ p' ≤ 64 ∧ r.2.2.length ≤ o.length + count := by
  induction count generalizing f p o with
  | zero => exact .ok ⟨p, rfl, h.point, le_rfl⟩
  | succ count ih =>
    unfold fractionalDigits
    by_cases hf : f = 0
    · rw [if_pos hf]
      exact .ok ⟨p, rfl, h.point, Nat.le_add_right _ _⟩
    · rw [if_neg hf]
      obtain ⟨k, rfl, hword, hdigit, hrest⟩ := h.step (by decide) hf
      have hk : k ≤ 63 := Nat.le_of_succ_le_succ h.point
      have hle : f * 5 / 2 ^ k * 2 ^ k ≤ f * 5 := Nat.div_mul_le_self _ _
      refine .step (mul_eq hword) ?_
      rw [show (((k + 1 : Nat) : Int) - 1) = (k : Int) by omega]
      refine .step (shr_eq hk) ?_
      rw [cast32 (lt_trans hdigit (by decide))]
      refine .bind (putDigit_safe (by omega) (Nat.le_of_lt_succ hdigit)) fun o₁ h₁ => ?_
      refine .step (shl_eq_mul hk (lt_of_le_of_lt hle hword)) ?_
      refine .step (sub_eq hle) ?_
      rw [← Nat.mod_eq_sub_div_mul]
      refine (ih hrest (by dsimp only; omega)).mono fun r ⟨p', hp', hle', hlen⟩ => ⟨p', hp', hle', ?_⟩
      dsimp only at hlen
      omega

theorem isZero_iff (x : UInt128) : x.isZero = true ↔ x.value = 0 := by
  simp [UInt128.isZero, UInt128.value]

theorem fractionalDigits128_safe {p : Nat} {x : UInt128} (hx : x.Valid) (h : Remains 128 116 p x.value)
    (hp : 64 + count ≤ p) (hcap : o.length + count ≤ capacity) :
    Safe (fractionalDigits128 capacity count x p o) fun r =>
      ∃ p' : Nat, r.2.1 = p' ∧ p ≤ p' + count ∧ p' ≤ 128 ∧ r.2.2.length ≤ o.length + count := by
  induction count generalizing x p o with
  | zero => exact .ok ⟨p, rfl, le_rfl, h.point, le_rfl⟩
  | succ count ih =>
    unfold fractionalDigits128
    by_cases hf : x.value = 0
    · rw [if_pos ((isZero_iff x).2 hf)]
      exact .ok ⟨p, rfl, Nat.le_add_right _ _, h.point, Nat.le_add_right _ _⟩
    · rw [if_neg (mt (isZero_iff x).1 hf)]
      obtain ⟨k, rfl, hword, hdigit, hrest⟩ := h.step (by decide) hf
      have hk := h.point
      obtain ⟨j, rfl⟩ := Nat.exists_eq_add_of_le (show 64 ≤ k by omega)
      refine .bind (UInt128.multiply_safe hx (by decide) hword) fun y ⟨hy, hvalue⟩ => ?_
      rw [show (((64 + j + 1 : Nat) : Int) - 1) = ((64 + j : Nat) : Int) by omega]
      rw [← hvalue] at hdigit hrest
      refine .bind (UInt128.divModPowerOf2_safe hy (by omega) hdigit) fun r ⟨hr, hvalue', hr2⟩ => ?_
      refine .bind (putDigit_safe (by omega) (by omega)) fun o₁ h₁ => ?_
      rw [← hvalue'] at hrest
      refine (ih hr hrest (by omega) (by dsimp only; omega)).mono fun r ⟨p', hp', hge, hle', hlen⟩ =>
        ⟨p', hp', by omega, hle', ?_⟩
      dsimp only at hlen
      omega

/-- The digits, and one more where the first of them is rounded up. -/
theorem fillFractionals_safe {shiftBack : Nat → Checked Nat} {f p : Nat}
    (hback : ∀ x, ∃ y, shiftBack x = .ok y) (hp : p ≤ 128) (hf : f < 2 ^ 53) (hlt : f < 2 ^ p) (hcount : count ≤ 20)
    (hcap : o.length + max count 1 ≤ capacity) :
    Safe (fillFractionals capacity shiftBack f (-(p : Int)) count o) fun o' =>
      o'.length ≤ o.length + max count 1 := by
  have hround : ∀ o₁ : Output, o₁.length ≤ o.length + count →
      Safe (roundUp capacity o₁) fun o' => o'.length ≤ o.length + max count 1 := fun o₁ h₁ =>
    (roundUp_safe (by omega) (by omega)).mono fun o' h' => by omega
  refine .step (assert_eq (by omega)) ?_
  rw [Int.neg_neg]
  by_cases h64 : p ≤ 64
  · rw [if_pos (by omega)]
    refine .step (shr_eq (s := 56) (by decide)) ?_
    refine .step (assert_eq (Nat.div_eq_of_lt (lt_trans hf (by decide)))) ?_
    have hremains : Remains 64 53 p f := by
      refine ⟨h64, hlt, fun _ => lt_of_lt_of_le hf ?_⟩
      grind
    refine .bind (fractionalDigits_safe hremains (by omega)) fun ⟨f', point, o₁⟩ ⟨p', hp', hle, hlen⟩ => ?_
    dsimp only at hp' hlen ⊢
    subst hp'
    have hbit : ∃ y, shiftToPoint shiftBack f' p' = .ok y := by
      unfold shiftToPoint
      by_cases h0 : p' = 0
      · rw [if_pos (by omega)]
        exact hback f'
      · rw [if_neg (by omega), show ((p' : Int) - 1) = ((p' - 1 : Nat) : Int) by omega]
        exact ⟨_, shr_eq (by omega)⟩
    obtain ⟨y, hy⟩ := hbit
    refine .step hy ?_
    split
    · exact hround o₁ hlen
    · exact .ok (by omega)
  · rw [if_neg (by omega)]
    refine .step (assert_eq (by omega)) ?_
    rw [show ((p : Int) - 64) = ((p - 64 : Nat) : Int) by omega]
    refine .bind (UInt128.shift_safe (lt_trans hf (by decide)) (by omega) (by omega)) fun x ⟨hx, hvalue⟩ => ?_
    have hsmall : x.value < 2 ^ 116 := by
      rw [hvalue, show 116 = 53 + 63 from rfl, Nat.pow_add]
      exact Nat.mul_lt_mul_of_lt_of_le hf (Nat.pow_le_pow_right (by decide) (by omega)) (Nat.two_pow_pos _)
    have hremains : Remains 128 116 128 x.value :=
      ⟨Nat.le_refl _, lt_trans hsmall (Nat.pow_lt_pow_right (by decide) (by decide)), fun _ => by
        rwa [Nat.sub_self, Nat.pow_zero, Nat.mul_one]⟩
    refine .bind (fractionalDigits128_safe (p := 128) hx hremains (by omega) (by omega))
      fun ⟨x', point, o₁⟩ ⟨p', hp', hge, hle, hlen⟩ => ?_
    dsimp only at hp' hlen ⊢
    subst hp'
    rw [show ((p' : Int) - 1) = ((p' - 1 : Nat) : Int) by omega]
    refine .bind (UInt128.bitAt_safe (by omega) (by omega)) fun bit _ => ?_
    split
    · exact hround o₁ hlen
    · exact .ok (by omega)

/-! ## FastFixedDtoa -/

theorem divideByTen17_safe {significand e : Nat} (hsig : significand < 2 ^ 53) (h12 : 12 ≤ e) (h20 : e ≤ 20) :
    Safe (divideByTen17 significand e) fun r => r.1 * 10 ^ 17 ≤ significand * 2 ^ e := by
  unfold divideByTen17
  have hquotient : ∀ x y c : Nat, x / y * y * c ≤ x * c := fun x y c =>
    Nat.mul_le_mul_right c (Nat.div_mul_le_self x y)
  by_cases h17 : 17 < e
  · rw [if_pos (by unfold divisorPower; omega), show (e : Int) - divisorPower = ((e - 17 : Nat) : Int) by
      unfold divisorPower; omega]
    have hpow : 2 ^ (e - 17) ≤ 2 ^ 3 := Nat.pow_le_pow_right (by decide) (by omega)
    have hlt : significand * 2 ^ (e - 17) < 2 ^ 64 :=
      lt_of_le_of_lt (Nat.mul_le_mul (Nat.le_of_lt hsig) hpow) (by decide)
    refine .step (shl_eq_mul (by omega) hlt) ?_
    refine .ok (le_trans (Nat.mul_le_mul_right _ (Nat.mod_le _ _)) ?_)
    have := hquotient (significand * 2 ^ (e - 17)) kFive17 (2 ^ 17)
    rwa [Nat.mul_assoc, show kFive17 * 2 ^ 17 = 10 ^ 17 by decide, Nat.mul_assoc significand, ← Nat.pow_add,
      Nat.sub_add_cancel (Nat.le_of_lt h17)] at this
  · rw [if_neg (by unfold divisorPower; omega), show divisorPower - (e : Int) = ((17 - e : Nat) : Int) by
      unfold divisorPower; omega]
    have hten : kFive17 * 2 ^ (17 - e) * 2 ^ e = 10 ^ 17 := by
      rw [Nat.mul_assoc, ← Nat.pow_add, Nat.sub_add_cancel (Nat.le_of_not_lt h17)]
      decide
    have hpow : 2 ^ (17 - e) ≤ 2 ^ 5 := Nat.pow_le_pow_right (by decide) (by omega)
    have hdivisor : kFive17 * 2 ^ (17 - e) < 2 ^ 64 :=
      lt_of_le_of_lt (Nat.mul_le_mul_left _ hpow) (by decide)
    refine .step (shl_eq_mul (by omega) hdivisor) ?_
    have hmod : significand % (kFive17 * 2 ^ (17 - e)) * 2 ^ e < 2 ^ 64 := by
      refine lt_of_le_of_lt (Nat.mul_le_mul_right _ (Nat.le_of_lt (Nat.mod_lt _ ?_))) ?_
      · exact Nat.mul_pos (by decide) (Nat.two_pow_pos _)
      · rw [hten]
        decide
    refine .step (shl_eq_mul (by omega) hmod) ?_
    refine .ok (le_trans (Nat.mul_le_mul_right _ (Nat.mod_le _ _)) ?_)
    have := hquotient significand (kFive17 * 2 ^ (17 - e)) (2 ^ e)
    rwa [Nat.mul_assoc, hten] at this

theorem fillIntegrals_safe {integrals : Nat} (hlt : integrals < 2 ^ 53) (hcap : o.length + 16 ≤ capacity) :
    Safe (fillIntegrals capacity integrals o) fun o' => o'.length ≤ o.length + 16 := by
  have h16 : integrals < 10 ^ 16 := lt_trans hlt (by decide)
  unfold fillIntegrals
  split
  · exact fillDigits64_safe h16 (by decide) hcap
  · have hlt32 : integrals % 2 ^ 32 < 10 ^ 10 := lt_trans (Nat.mod_lt _ (Nat.two_pow_pos 32)) (by decide)
    exact fillDigits32_safe (lt_of_le_of_lt (Nat.mod_le _ _) h16) hlt32 hcap

/-- Only numbers from `10 ^ 21` on have 22 digits before the point. -/
theorem fill_safe {shiftBack : Nat → Checked Nat} {significand : Nat} {exponent : Int} {n : Nat}
    (hback : ∀ x, ∃ y, shiftBack x = .ok y) (hsig : significand < 2 ^ 53) (he : exponent ≤ 20) (hn : n ≤ 20)
    (hlen : o.length = 0) (hcap : 21 + n + 1 ≤ capacity)
    (hwide : ∀ e : Nat, exponent = e → 10 ^ 21 ≤ significand * 2 ^ e → 23 ≤ capacity) :
    Safe (fill capacity shiftBack significand exponent n o) fun o' => o'.length < capacity := by
  unfold fill kDoubleSignificandSize
  by_cases h1 : exponent + 53 > 64
  · rw [if_pos h1]
    obtain ⟨e, rfl⟩ := Int.eq_ofNat_of_zero_le (show 0 ≤ exponent by omega)
    have h12 : 12 ≤ e := by omega
    have h20 : e ≤ 20 := by omega
    refine .bind (divideByTen17_safe hsig h12 h20) fun r hquotient => ?_
    obtain ⟨quotient, remainder⟩ := r
    have hfive : quotient < 10 ^ 5 := by
      have hpow : significand * 2 ^ e < 2 ^ 53 * 2 ^ 20 :=
        Nat.mul_lt_mul_of_lt_of_le hsig (Nat.pow_le_pow_right (by decide) (by omega)) (Nat.two_pow_pos _)
      omega
    have hdigs : ∃ k, quotient < 10 ^ k ∧ k + 17 < capacity := by
      by_cases hv : 10 ^ 21 ≤ significand * 2 ^ e
      · exact ⟨5, hfive, by have := hwide e rfl hv; omega⟩
      · exact ⟨4, by omega, by omega⟩
    obtain ⟨k, hk, hkcap⟩ := hdigs
    refine .bind (fillDigits32_safe hk (lt_trans hfive (by decide)) (by omega)) fun o₁ h₁ => ?_
    refine .bind (fillDigits64FixedLength_safe _ _ (by omega)) fun o₂ h₂ => .ok ?_
    dsimp only
    omega
  · rw [if_neg h1]
    by_cases h2 : exponent ≥ 0
    · obtain ⟨e, rfl⟩ := Int.eq_ofNat_of_zero_le h2
      have hlt : significand * 2 ^ e < 2 ^ 64 := by
        have hpow : significand * 2 ^ e < 2 ^ 53 * 2 ^ 11 :=
          Nat.mul_lt_mul_of_lt_of_le hsig (Nat.pow_le_pow_right (by decide) (by omega)) (Nat.two_pow_pos _)
        omega
      refine .step (shl_eq_mul (by omega) hlt) ?_
      refine .bind (fillDigits64_safe (k := 20) (lt_trans hlt (by decide)) (by decide) (by omega)) fun o₁ h₁ => .ok ?_
      dsimp only
      omega
    · rw [if_neg h2]
      obtain ⟨p, rfl⟩ : ∃ p : Nat, exponent = -(p : Int) := ⟨exponent.natAbs, by omega⟩
      rw [Int.neg_neg]
      by_cases h3 : -(p : Int) > -53
      · rw [if_pos h3]
        have hle : significand / 2 ^ p * 2 ^ p ≤ significand := Nat.div_mul_le_self _ _
        refine .step (shr_eq (by omega)) ?_
        refine .step (shl_eq_mul (by omega) (lt_of_le_of_lt hle (lt_trans hsig (by decide)))) ?_
        refine .step (sub_eq hle) ?_
        rw [← Nat.mod_eq_sub_div_mul]
        have hintegrals : significand / 2 ^ p < 2 ^ 53 := lt_of_le_of_lt (Nat.div_le_self _ _) hsig
        refine .bind (fillIntegrals_safe hintegrals (by omega)) fun o₁ h₁ => ?_
        have hfractionals : significand % 2 ^ p < 2 ^ 53 := lt_of_le_of_lt (Nat.mod_le _ _) hsig
        refine (fillFractionals_safe hback (by omega) hfractionals (Nat.mod_lt _ (Nat.two_pow_pos p)) hn
          (by dsimp only; omega)).mono fun o' h' => ?_
        dsimp only at h'
        omega
      · rw [if_neg h3]
        by_cases h4 : -(p : Int) < -128
        · rw [if_pos h4]
          refine .step (assert_eq hn) ?_
          exact .bind (put_safe (by omega) _) fun o₁ h₁ => .ok (by dsimp only; omega)
        · rw [if_neg h4]
          have hlt : significand < 2 ^ p := lt_of_lt_of_le hsig (Nat.pow_le_pow_right (by decide) (by omega))
          refine (fillFractionals_safe hback (by omega) hsig hlt hn (by dsimp only; omega)).mono fun o' h' => ?_
          dsimp only at h'
          omega

/-- The bound of the buffer that callers rely on, below `10 ^ 21`, and one index more where 22
digits need it. -/
def bufferBound (v : Double) (fractionalCount : Nat) : Nat :=
  if v.value < 10 ^ 21 then 21 + fractionalCount + 1 else max (21 + fractionalCount + 1) 23

/-- No shift but the one by `-1` is outside of its word, and nothing else goes wrong. -/
theorem fastFixedDtoa_safe (v : Double) (hv : v.IsPositive) (n : Nat) (hn : n ≤ 20) (o : Output)
    (shiftBack : Nat → Nat) :
    ∃ r, fastFixedDtoa (bufferBound v n) (fun x => .ok (shiftBack x)) v n o = .ok r := by
  suffices h : Safe (fastFixedDtoa (bufferBound v n) (fun x => .ok (shiftBack x)) v n o) fun _ => True by
    obtain ⟨r, hr, -⟩ := h.exists_ok
    exact ⟨r, hr⟩
  unfold fastFixedDtoa
  by_cases he : v.exponent > 20
  · rw [if_pos he]
    exact .ok trivial
  · rw [if_neg he, if_neg (Nat.not_lt.2 hn)]
    have hwide : ∀ e : Nat, v.exponent = e → 10 ^ 21 ≤ v.significand * 2 ^ e → 23 ≤ bufferBound v n := by
      intro e hexp hge
      have hvalue : ¬ v.value < 10 ^ 21 := by
        rw [Double.value, hexp, zpow_natCast, not_lt]
        exact_mod_cast hge
      rw [bufferBound, if_neg hvalue]
      exact Nat.le_max_right _ _
    have hcap : 21 + n + 1 ≤ bufferBound v n := by
      unfold bufferBound
      split
      · exact Nat.le_refl _
      · exact Nat.le_max_left _ _
    refine .bind (fill_safe (fun _ => ⟨_, rfl⟩) hv.significand_lt (Int.not_lt.1 he) hn rfl hcap hwide)
      fun o₁ h₁ => ?_
    refine .bind (trimZeros_safe (Nat.le_of_lt h₁)) fun o₂ h₂ => ?_
    refine .bind (put_safe (lt_of_le_of_lt h₂ h₁) _) fun o₃ h₃ => ?_
    split <;> exact .ok trivial

/-- 1.5 -/
theorem fastFixedDtoa_safe_oneHalf : ∃ r,
    fastFixedDtoa (bufferBound ⟨0x3FF8000000000000⟩ 1) (fun x => .ok x) ⟨0x3FF8000000000000⟩ 1
      ⟨fun _ => 0, 0, 0⟩ = .ok r :=
  fastFixedDtoa_safe ⟨0x3FF8000000000000⟩ ⟨by decide, by decide, by decide⟩ 1 (by decide) _ id

def fault {α : Type} : Checked α → Option Fault
  | .ok _ => none
  | .error e => some e

theorem ne_ok_of_fault {α : Type} {x : Checked α} {e : Fault} (h : fault x = some e) : ¬ ∃ r, x = .ok r := by
  rintro ⟨r, rfl⟩
  cases h

/-- For 2251799813685248.5 and one digit the point comes down to bit 0. The largest double below
`2 ^ 73` has 22 digits and no zeros to trim, so the end of the string does not fit. -/
theorem fastFixedDtoa_leaves_words : (¬ ∀ (v : Double) (n : Nat) (o : Output), v.IsPositive → n ≤ 20 →
      ∃ r, fastFixedDtoa (21 + n + 1) (fun _ => .error .shift) v n o = .ok r) ∧
    ¬ ∀ (v : Double) (n : Nat) (o : Output), v.IsPositive → n ≤ 20 →
      ∃ r, fastFixedDtoa (21 + n + 1) (fun x => .ok x) v n o = .ok r := by
  constructor
  · intro hall
    have hrun : fault (fastFixedDtoa (21 + 1 + 1) (fun _ => .error .shift) ⟨0x4320000000000001⟩ 1
        ⟨fun _ => 0, 0, 0⟩) = some .shift := by decide
    exact ne_ok_of_fault hrun (hall _ _ _ ⟨by decide, by decide, by decide⟩ (by decide))
  · intro hall
    have hrun : fault (fastFixedDtoa (21 + 0 + 1) (fun x => .ok x) ⟨0x447FFFFFFFFFFFFF⟩ 0
        ⟨fun _ => 0, 0, 0⟩) = some .index := by decide +kernel
    exact ne_ok_of_fault hrun (hall _ _ _ ⟨by decide, by decide, by decide⟩ (by decide))

end W16.FixedDtoa
