import Mathlib.Data.Nat.Find
import Mathlib.Tactic.FieldSimp
import W16.Double

/-!
# The double of a magnitude

The doubles from zero to infinity are numbered by their bits, and a magnitude is rounded to the
last of them whose lower boundary it reaches. A decimal interval of 772 digits has no boundary
inside, so that all of it is rounded to one double.
-/
namespace W16.Double

def ofBits (n : Nat) : Double := ⟨BitVec.ofNat 64 n⟩

/-- The bits of infinity. -/
def infinityBits : Nat := 2047 * 2 ^ 52

/-- The magnitude is rounded to the double or to one above it. -/
def Reaches (x : ℚ) (d : Double) : Prop := if d.isEven then d.lower ≤ x else d.lower < x

instance (x : ℚ) (d : Double) : Decidable (Reaches x d) := by
  unfold Reaches
  infer_instance

/-- Round to the nearest, and to the even one of two. -/
def ofRat (x : ℚ) : Double := ofBits (Nat.findGreatest (fun n => Reaches x (ofBits n)) infinityBits)

/-! ## Boundaries -/

section Bits

variable {n : Nat}

theorem toNat_ofBits (h : n ≤ infinityBits) : (ofBits n).d64.toNat = n := by
  show (BitVec.ofNat 64 n).toNat = n
  exact Nat.mod_eq_of_lt (lt_of_le_of_lt h (by decide))

theorem parts_ofBits (h : n ≤ infinityBits) : Parts n (ofBits n).significand (ofBits n).exponent := by
  have hbits : infinityBits = 2047 * 2 ^ 52 := rfl
  have hparts := parts (ofBits n) (by rw [toNat_ofBits h]; omega)
  rwa [toNat_ofBits h] at hparts

theorem previous_ofBits (n : Nat) : (ofBits (n + 1)).previous = ofBits n := by
  show Double.mk (BitVec.ofNat 64 (n + 1) - 1) = Double.mk (BitVec.ofNat 64 n)
  congr 1
  apply BitVec.eq_of_toNat_eq
  grind -linarith

theorem value_ofBits_succ (h : n < infinityBits) :
    (ofBits (n + 1)).value = ((ofBits n).significand + 1) * 2 ^ (ofBits n).exponent := by
  obtain ⟨h1, h2⟩ := parts_ofBits (le_of_lt h)
  obtain ⟨h3, h4⟩ := parts_ofBits (n := n + 1) h
  have hcases : ((ofBits (n + 1)).significand = (ofBits n).significand + 1 ∧
      (ofBits (n + 1)).exponent = (ofBits n).exponent) ∨
      ((ofBits n).significand + 1 = 2 * (ofBits (n + 1)).significand ∧
        (ofBits (n + 1)).exponent = (ofBits n).exponent + 1) := by
    grind
  unfold value
  rcases hcases with ⟨hf, he⟩ | ⟨hf, he⟩
  · rw [hf, he]
    push_cast
    rfl
  · have hf' : ((ofBits n).significand : ℚ) + 1 = 2 * (ofBits (n + 1)).significand := by exact_mod_cast hf
    rw [hf', he, zpow_add_one₀ (by norm_num)]
    ring

/-- The boundary above a double is half a unit away. -/
theorem lower_succ (h : n < infinityBits) :
    (ofBits (n + 1)).lower = ((2 * (ofBits n).significand + 1 : ℕ) : ℚ) * 2 ^ ((ofBits n).exponent - 1) := by
  rw [lower, previous_ofBits, value_ofBits_succ h, value, zpow_sub_one₀ (by norm_num)]
  push_cast
  ring

theorem value_lt_lower_succ (h : n < infinityBits) : (ofBits n).value < (ofBits (n + 1)).lower := by
  have hpos : (0 : ℚ) < 2 ^ (ofBits n).exponent := by positivity
  rw [lower, previous_ofBits, value_ofBits_succ h, value]
  linarith

theorem lower_succ_lt_value (h : n < infinityBits) : (ofBits (n + 1)).lower < (ofBits (n + 1)).value := by
  have hpos : (0 : ℚ) < 2 ^ (ofBits n).exponent := by positivity
  rw [lower, previous_ofBits, value_ofBits_succ h, value]
  linarith

theorem lower_strictMono {m : Nat} (hm : 0 < m) (hmn : m < n) (h : n ≤ infinityBits) :
    (ofBits m).lower < (ofBits n).lower := by
  induction n, hmn using Nat.le_induction with
  | base =>
    obtain ⟨k, rfl⟩ : ∃ k, m = k + 1 := ⟨m - 1, by omega⟩
    exact (lower_succ_lt_value (by omega)).trans (value_lt_lower_succ (by omega))
  | succ n hle ih =>
    obtain ⟨k, rfl⟩ : ∃ k, n = k + 1 := ⟨n - 1, by omega⟩
    exact (ih (by omega)).trans ((lower_succ_lt_value (by omega)).trans (value_lt_lower_succ (by omega)))

/-- What reaches a double reaches those below. -/
theorem Reaches.mono {x : ℚ} {m : Nat} (hx : Reaches x (ofBits n)) (hm : 0 < m) (hmn : m ≤ n)
    (h : n ≤ infinityBits) : Reaches x (ofBits m) := by
  rcases Nat.eq_or_lt_of_le hmn with rfl | hlt
  · exact hx
  · have hle : (ofBits n).lower ≤ x := by
      unfold Reaches at hx
      grind
    have hlower := (lower_strictMono hm hlt h).trans_le hle
    grind [Reaches]

theorem isEven_ofBits (h : n ≤ infinityBits) : (ofBits n).isEven = decide (n % 2 = 0) := by
  have hparts := (parts_ofBits h).significand
  unfold isEven
  grind

end Bits

/-! ## Rounding -/

section Rounding

variable {x : ℚ} {n : Nat}

theorem reaches_iff (hn : 0 < n) (h : n ≤ infinityBits) : Reaches x (ofBits n) ↔ n ≤ (ofRat x).d64.toNat := by
  have hgreatest := Nat.findGreatest_le (P := fun n => Reaches x (ofBits n)) infinityBits
  rw [ofRat, toNat_ofBits hgreatest]
  constructor
  · exact fun hx => Nat.le_findGreatest h hx
  · intro hle
    have hx := Nat.findGreatest_of_ne_zero (P := fun n => Reaches x (ofBits n)) (n := infinityBits) rfl (by omega)
    exact hx.mono hn hle hgreatest

theorem reaches_one : Reaches x (ofBits 1) ↔ 2 ^ (-1075 : ℤ) < x := by
  have hlower := lower_succ (n := 0) (by decide)
  rw [show (ofBits 0).significand = 0 by decide, show (ofBits 0).exponent = -1074 by decide] at hlower
  rw [Reaches, isEven_ofBits (by decide), if_neg (by decide), hlower]
  norm_num

/-- Half of the smallest double and less is rounded to zero. -/
theorem ofRat_zero (hx : x ≤ 2 ^ (-1075 : ℤ)) : ofRat x = ofBits 0 := by
  unfold ofRat
  congr 1
  rw [Nat.findGreatest_eq_zero_iff]
  intro m hpos hle hm
  exact absurd (reaches_one.1 (hm.mono (by decide) hpos hle)) (not_lt.2 hx)

/-- Half a unit above the largest double and more is rounded to infinity. -/
theorem ofRat_infinity (hx : (2 ^ 54 - 1) * 2 ^ (970 : ℤ) ≤ x) : ofRat x = ofBits infinityBits := by
  have hlower := lower_succ (n := infinityBits - 1) (by decide)
  rw [show (ofBits (infinityBits - 1)).significand = 2 ^ 53 - 1 by decide,
    show (ofBits (infinityBits - 1)).exponent = 971 by decide] at hlower
  have hreaches : Reaches x (ofBits infinityBits) := by
    refine le_trans (le_of_eq ?_) hx
    exact hlower.trans (by norm_num)
  unfold ofRat
  congr 1
  rw [Nat.findGreatest_eq_iff]
  grind

/-- No boundary of doubles separates the two. -/
def SameSide (x y : ℚ) : Prop :=
  ∀ (m : ℕ) (e : ℤ), m < 2 ^ 54 → -1075 ≤ e → e ≤ 970 → ((m * 2 ^ e ≤ x ↔ m * 2 ^ e ≤ y) ∧
    (m * 2 ^ e < x ↔ m * 2 ^ e < y))

theorem SameSide.ofRat_eq {y : ℚ} (h : SameSide x y) : ofRat x = ofRat y := by
  have hreaches : ∀ n, n < infinityBits → (Reaches x (ofBits (n + 1)) ↔ Reaches y (ofBits (n + 1))) := by
    intro n hn
    obtain ⟨h1, h2⟩ := parts_ofBits (le_of_lt hn)
    have hbits : infinityBits = 2047 * 2 ^ 52 := rfl
    have hside := h (2 * (ofBits n).significand + 1) ((ofBits n).exponent - 1)
      (by split at h1 <;> omega) (by split at h2 <;> omega) (by split at h2 <;> omega)
    unfold Reaches
    rw [lower_succ hn]
    split
    · exact hside.1
    · exact hside.2
  unfold ofRat
  congr 1
  rw [Nat.findGreatest_eq_iff]
  refine ⟨Nat.findGreatest_le _, fun hne => ?_, fun m hlt hle hm => ?_⟩
  · have hle := Nat.findGreatest_le (P := fun n => Reaches y (ofBits n)) infinityBits
    obtain ⟨k, hk⟩ := Nat.exists_eq_succ_of_ne_zero hne
    rw [hk] at hle ⊢
    exact (hreaches k hle).2 (Nat.findGreatest_of_ne_zero (P := fun n => Reaches y (ofBits n)) hk (by omega))
  · obtain ⟨k, rfl⟩ : ∃ k, m = k + 1 := ⟨m - 1, by omega⟩
    exact Nat.findGreatest_is_greatest (P := fun n => Reaches y (ofBits n)) hlt hle ((hreaches k hle).1 hm)

end Rounding

/-! ## Decimal intervals -/

/-- With enough digits in `b`, a binary number above `b` units of `10 ^ x` is not below `b + 1` of
them: it has fewer decimal digits. -/
theorem binary_not_inside {b m M J H : ℕ} {x e : ℤ} (hb : 0 < b) (hfive : M * 5 ^ J ≤ 2 * b) (htwo : M * 2 ^ H ≤ b)
    (hm : m < M) (hlow : -J ≤ e) (hhigh : e ≤ H) (hgt : (b : ℚ) * 10 ^ x < m * 2 ^ e) :
    (b + 1 : ℚ) * 10 ^ x ≤ m * 2 ^ e := by
  have hmM : (m : ℚ) < M := by exact_mod_cast hm
  rcases le_or_gt 0 x with hx | hx
  · -- such a number is below `b` itself
    have hten : (1 : ℚ) ≤ 10 ^ x := one_le_zpow₀ (by norm_num) hx
    have hpow : (2 : ℚ) ^ e ≤ 2 ^ (H : ℤ) := zpow_le_zpow_right₀ (by norm_num) hhigh
    have hle : (M : ℚ) * 2 ^ (H : ℤ) ≤ b := by
      exact_mod_cast htwo
    have hprod := mul_le_mul hmM.le hpow (by positivity) (by positivity)
    nlinarith
  · obtain ⟨k, rfl⟩ : ∃ k : ℕ, x = -k := ⟨(-x).toNat, by omega⟩
    have hten : (0 : ℚ) < 10 ^ k := by positivity
    have hscale : ∀ r : ℚ, r * 10 ^ (-(k : ℤ)) = r / 10 ^ k := fun r => by
      rw [zpow_neg, zpow_natCast, div_eq_mul_inv]
    rw [hscale, div_lt_iff₀ hten] at hgt
    rw [hscale, div_le_iff₀ hten]
    by_cases hint : ∃ N : ℕ, (m : ℚ) * 2 ^ e * 10 ^ k = N
    · -- a number of whole units
      obtain ⟨N, hN⟩ := hint
      rw [hN] at hgt ⊢
      have hlt : b < N := by exact_mod_cast hgt
      exact_mod_cast hlt
    · obtain ⟨j, rfl⟩ : ∃ j : ℕ, e = -j := by
        refine ⟨(-e).toNat, ?_⟩
        by_contra hne
        refine hint ⟨m * 2 ^ e.toNat * 10 ^ k, ?_⟩
        rw [show e = (e.toNat : ℤ) by omega, zpow_natCast]
        push_cast
        rfl
      have hkj : k < j := by
        by_contra hle
        refine hint ⟨m * 2 ^ (k - j) * 5 ^ k, ?_⟩
        rw [show (10 : ℚ) = 2 * 5 by norm_num, mul_pow, show k = k - j + j by omega, pow_add 2, zpow_neg,
          zpow_natCast, show k - j + j = k by omega]
        field_simp
        push_cast
        ring
      have hpow : m * 5 ^ k ≤ M * 5 ^ J :=
        Nat.mul_le_mul hm.le (Nat.pow_le_pow_right (by decide) (by omega))
      have hle : (m : ℚ) * 5 ^ k ≤ 2 * b := by exact_mod_cast hpow.trans hfive
      have hhalf : (2 : ℚ) ^ (-(j : ℤ)) * 10 ^ k ≤ 5 ^ k / 2 := by
        have hstep : (2 : ℚ) ^ (-(j : ℤ)) ≤ 2 ^ (-((k + 1 : ℕ) : ℤ)) := zpow_le_zpow_right₀ (by norm_num) (by omega)
        refine (mul_le_mul_of_nonneg_right hstep hten.le).trans (le_of_eq ?_)
        rw [zpow_neg, zpow_natCast, show (10 : ℚ) = 2 * 5 by norm_num, mul_pow, pow_succ]
        field_simp
      have hprod : (m : ℚ) * (2 ^ (-(j : ℤ)) * 10 ^ k) ≤ m * (5 ^ k / 2) :=
        mul_le_mul_of_nonneg_left hhalf (by positivity)
      linarith

theorem pow_five_bound : 2 ^ 54 * 5 ^ 1075 ≤ 2 * 10 ^ 771 := by decide +kernel

theorem pow_two_bound : 2 ^ 54 * 2 ^ 970 ≤ 10 ^ 771 := by decide +kernel

/-- All numbers strictly inside a unit of 772 digits are rounded to the same double. -/
theorem sameSide_of_inside {b : ℕ} {x : ℤ} (hb : 10 ^ 771 ≤ b) {y z : ℚ} (hy : b * 10 ^ x < y)
    (hy' : y < (b + 1) * 10 ^ x) (hz : b * 10 ^ x < z) (hz' : z < (b + 1) * 10 ^ x) : SameSide y z := by
  intro m e hm hlow hhigh
  have hpos : 0 < 10 ^ 771 := by positivity
  have hfive := pow_five_bound
  have htwo := pow_two_bound
  rcases le_or_gt ((m : ℚ) * 2 ^ e) (b * 10 ^ x) with hle | hgt
  · grind
  · have hge := binary_not_inside (M := 2 ^ 54) (J := 1075) (H := 970) (lt_of_lt_of_le hpos hb) (by omega)
      (htwo.trans hb) hm (by omega) hhigh hgt
    grind

end W16.Double
