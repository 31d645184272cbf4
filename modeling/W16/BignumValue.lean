import W16.Bignum
import W16.Contract

/-!
# The value and the invariant of a Bignum

Every operation is specified by a contract: the result is valid and has the exact value,
or the operation was refused, and then a number was too large.
-/
namespace W16.Bignum

open Positional Function

def value (b : Bignum) : Nat :=
  ∑ i ∈ Finset.range b.used, b.bigits i * 2 ^ (28 * (i + b.exponent))

/-- The number without the hidden bigits. -/
def mantissa (b : Bignum) : Nat := ofLimbs radix b.bigits b.used

theorem value_eq (b : Bignum) : b.value = b.mantissa * radix ^ b.exponent := by
  unfold value mantissa
  rw [← sum_range_eq_ofLimbs, Finset.sum_mul]
  refine Finset.sum_congr rfl fun i _ => ?_
  rw [mul_assoc, ← pow_add, ← pow_mul]

/-- The representation invariant. -/
structure Valid (b : Bignum) : Prop where
  lt : ∀ i, b.bigits i < radix
  above : ∀ i, b.used ≤ i → b.bigits i = 0
  used_le : b.used ≤ kBigitCapacity
  exponent_lt : b.exponent < 2 ^ 31
  clamped : b.used = 0 ∨ b.bigits (b.used - 1) ≠ 0
  zero : b.used = 0 → b.exponent = 0

/-- The invariant before a final `Clamp`. -/
structure Loose (b : Bignum) : Prop where
  lt : ∀ i, b.bigits i < radix
  above : ∀ i, b.used ≤ i → b.bigits i = 0
  used_le : b.used ≤ kBigitCapacity
  exponent_lt : b.exponent < 2 ^ 31

variable {b : Bignum}

theorem Valid.loose (h : b.Valid) : b.Loose := ⟨h.lt, h.above, h.used_le, h.exponent_lt⟩

theorem Valid.isClamped (h : b.Valid) : isClamped b = true := by
  simpa [Bignum.isClamped] using h.clamped

/-- A number whose bigits are all needed is clamped. -/
theorem Loose.valid (h : b.Loose) (hu : b.used ≠ 0) (hm : radix ^ (b.used - 1) ≤ b.mantissa) : b.Valid where
  lt := h.lt
  above := h.above
  used_le := h.used_le
  exponent_lt := h.exponent_lt
  clamped := .inr (limb_ne_zero (B := radix) (fun i _ => h.lt i) (by
    rwa [Nat.sub_add_cancel (by omega)]))
  zero := fun h0 => absurd h0 hu

/-- An operation stopped because a size or an exponent was too large. -/
def Refused (C : Prop) (e : Fault) : Prop := (e = .capacity ∨ e = .overflow) ∧ C

theorem Refused.mono {C C' : Prop} (h : C → C') (e : Fault) (he : Refused C e) : Refused C' e :=
  ⟨he.1, h he.2⟩

theorem ensureCapacity_meets (size : Nat) :
    Meets (ensureCapacity size) (fun _ => size ≤ 128) (Refused (128 < size)) := by
  unfold ensureCapacity kBigitCapacity
  split
  · assumption
  · exact ⟨.inl rfl, by omega⟩

theorem int_meets (n : Nat) : Meets (int n) (fun m => m = n ∧ n < 2 ^ 31) (Refused (2 ^ 31 ≤ n)) := by
  unfold int
  split
  · exact ⟨rfl, by assumption⟩
  · exact ⟨.inr rfl, by omega⟩

theorem chunk_eq {n : Nat} (h : n < 2 ^ 32) : chunk n = n := Nat.mod_eq_of_lt h

/-- A bigit is a chunk. -/
theorem chunk_mod (n : Nat) : chunk (n % radix) = n % radix :=
  chunk_eq (lt_trans (Nat.mod_lt n (Nat.two_pow_pos 28)) (by decide))

theorem doubleChunk_eq {n : Nat} (h : n < 2 ^ 64) : doubleChunk n = n := Nat.mod_eq_of_lt h

/-! ## Sizes -/

section Sizes

variable {b : Bignum}

theorem Valid.mantissa_lt (h : b.Valid) : b.mantissa < radix ^ b.used :=
  ofLimbs_lt fun i _ => h.lt i

theorem Valid.le_mantissa (h : b.Valid) (hu : b.used ≠ 0) : radix ^ (b.used - 1) ≤ b.mantissa := by
  have htop := h.clamped.resolve_left hu
  have := le_ofLimbs (B := radix) htop
  rwa [Nat.sub_add_cancel (by omega)] at this

theorem value_lt (h : b.Valid) : b.value < radix ^ (b.used + b.exponent) := by
  rw [value_eq, pow_add]
  exact Nat.mul_lt_mul_of_pos_right h.mantissa_lt (by positivity)

theorem le_value (h : b.Valid) (hu : b.used ≠ 0) : radix ^ (b.used + b.exponent - 1) ≤ b.value := by
  rw [value_eq, show b.used + b.exponent - 1 = b.used - 1 + b.exponent by omega, pow_add]
  exact Nat.mul_le_mul_right _ (h.le_mantissa hu)

theorem value_of_used_eq_zero (hu : b.used = 0) : b.value = 0 := by
  simp [value, hu]

theorem value_eq_zero (h : b.Valid) : b.value = 0 ↔ b.used = 0 := by
  refine ⟨fun hv => ?_, value_of_used_eq_zero⟩
  by_contra hu
  have := le_value h hu
  grind

/-- The hidden and stored bigits of a nonzero number are as many as its value needs. -/
theorem length_le {n : Nat} (h : b.Valid) (hv : b.value < radix ^ n) : b.used + b.exponent ≤ n := by
  by_cases hu : b.used = 0
  · rw [hu, h.zero hu]
    omega
  · have hlt := lt_of_le_of_lt (le_value h hu) hv
    have := (Nat.pow_lt_pow_iff_right (by decide)).1 hlt
    omega

theorem bigitLength_meets (b : Bignum) :
    Meets (bigitLength b) (fun n => n = b.used + b.exponent ∧ b.used + b.exponent < 2 ^ 31)
      (Refused (2 ^ 31 ≤ b.used + b.exponent)) := int_meets _

end Sizes

/-! ## Clamp, Zero and Align -/

theorem clampUsed_le (f : Nat → Nat) (n : Nat) : clampUsed f n ≤ n := by
  induction n with
  | zero => exact le_refl 0
  | succ n ih =>
    unfold clampUsed
    split <;> omega

theorem clampUsed_above (f : Nat → Nat) (n : Nat) {i : Nat} (hi : clampUsed f n ≤ i) (hn : i < n) :
    f i = 0 := by
  induction n with
  | zero => omega
  | succ n ih =>
    grind [clampUsed]

theorem clampUsed_top (f : Nat → Nat) (n : Nat) (h : clampUsed f n ≠ 0) : f (clampUsed f n - 1) ≠ 0 := by
  induction n with
  | zero => exact absurd rfl h
  | succ n ih =>
    unfold clampUsed at h ⊢
    split
    · rw [if_pos (by assumption)] at h
      exact ih h
    · simpa using by assumption

theorem clamp_above (h : b.Loose) {i : Nat} (hi : (clamp b).used ≤ i) : b.bigits i = 0 := by
  by_cases hu : i < b.used
  · exact clampUsed_above b.bigits b.used hi hu
  · exact h.above i (by omega)

theorem clamp_valid (h : b.Loose) : (clamp b).Valid where
  lt := h.lt
  above := fun _ hi => clamp_above h hi
  used_le := le_trans (clampUsed_le b.bigits b.used) h.used_le
  exponent_lt := by
    have := h.exponent_lt
    show (if clampUsed b.bigits b.used = 0 then 0 else b.exponent) < 2 ^ 31
    split <;> omega
  clamped := by
    by_cases hu : clampUsed b.bigits b.used = 0
    · exact .inl hu
    · exact .inr (clampUsed_top b.bigits b.used hu)
  zero := fun hu => if_pos hu

theorem clamp_mantissa (h : b.Loose) : (clamp b).mantissa = b.mantissa :=
  (ofLimbs_extend (fun _ hi => clamp_above h hi) (clampUsed_le b.bigits b.used)).symm

theorem clamp_value (h : b.Loose) : (clamp b).value = b.value := by
  rw [value_eq, value_eq, clamp_mantissa h]
  by_cases hu : clampUsed b.bigits b.used = 0
  · have hz : b.mantissa = 0 := by
      rw [← clamp_mantissa h]
      simp [mantissa, clamp, hu]
    simp [hz]
  · simp [clamp, hu]

theorem clamp_exponent_le (b : Bignum) : (clamp b).exponent ≤ b.exponent := by
  show (if _ then _ else _) ≤ b.exponent
  split <;> omega

theorem zero_bigits (h : b.Valid) (i : Nat) : (zero b).bigits i = 0 := by
  by_cases hi : i < b.used
  · exact if_pos hi
  · exact (if_neg hi).trans (h.above i (by omega))

theorem zero_valid (h : b.Valid) : (zero b).Valid where
  lt := fun i => by rw [zero_bigits h]; decide
  above := fun i _ => zero_bigits h i
  used_le := Nat.zero_le _
  exponent_lt := Nat.two_pow_pos 31
  clamped := .inl rfl
  zero := fun _ => rfl

theorem zero_value (b : Bignum) : (zero b).value = 0 := rfl

theorem empty_valid : empty.Valid where
  lt := fun _ => Nat.two_pow_pos 28
  above := fun _ _ => rfl
  used_le := Nat.zero_le _
  exponent_lt := Nat.two_pow_pos 31
  clamped := .inl rfl
  zero := fun _ => rfl

/-- `Align` keeps the value, and needs room only for the hidden bigits it stores. -/
theorem align_meets {a other : Bignum} (h : a.Valid) : Meets (align a other)
      (fun r => r.Valid ∧ r.value = a.value ∧ r.exponent ≤ other.exponent ∧
        r.used + r.exponent = a.used + a.exponent)
      (Refused (128 < a.used + a.exponent - other.exponent)) := by
  unfold align
  split
  · have hu : a.used ≠ 0 := fun hu => by have := h.zero hu; omega
    refine (int_meets _).bind (Refused.mono fun h' => ?_) ?_
    · omega
    rintro size ⟨rfl, hsize⟩
    refine (ensureCapacity_meets _).bind (Refused.mono fun h' => by omega) fun _ hcap => ?_
    refine Meets.pure ⟨⟨fun i => ?_, fun i hi => ?_, hcap, ?_, .inr ?_, ?_⟩, ?_, ?_, ?_⟩
    · show (if _ then _ else _) < radix
      split
      · decide
      · split <;> exact h.lt _
    · show (if _ then _ else _) = 0
      have hi' : a.used + (a.exponent - other.exponent) ≤ i := hi
      rw [if_neg (by omega), if_neg (by omega)]
      exact h.above i (by omega)
    · have := h.exponent_lt
      grind
    · show (if _ then _ else _) ≠ 0
      rw [if_neg (by simp only; omega), if_pos (by simp only; omega)]
      have htop := h.clamped.resolve_left hu
      grind
    · grind
    · rw [value_eq, value_eq]
      have hm : ofLimbs radix (fun i => if i < a.exponent - other.exponent then 0
          else if i < a.used + (a.exponent - other.exponent)
            then a.bigits (i - (a.exponent - other.exponent)) else a.bigits i)
          (a.used + (a.exponent - other.exponent))
          = radix ^ (a.exponent - other.exponent) * a.mantissa := by
        unfold mantissa
        rw [← ofLimbs_shift, add_comm a.used]
        refine ofLimbs_congr fun i hi => ?_
        grind
      show ofLimbs radix _ _ * radix ^ (a.exponent - (a.exponent - other.exponent)) = _
      rw [hm, mul_comm (radix ^ _) a.mantissa, mul_assoc, ← pow_add]
      congr 2
      omega
    · grind
    simp
  · exact ⟨h, rfl, by omega, rfl⟩

end W16.Bignum
