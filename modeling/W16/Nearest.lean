import Mathlib.Algebra.Order.Field.Power
import Mathlib.Algebra.Order.Field.Rat
import Mathlib.Data.Rat.Cast.Order
import Mathlib.Tactic.Linarith
import Mathlib.Tactic.NormNum
import Mathlib.Tactic.Positivity
import Mathlib.Tactic.Ring

/-!
# Rounding to the nearest

The numbers of `p` significant bits, whatever their exponent, and the one of them that is nearest
to a number, with an even significand where two are as near.
-/
namespace W16.Rounding

def HasBits (p : ℕ) (y : ℚ) : Prop := ∃ (f : ℕ) (e : ℤ), f < 2 ^ p ∧ y = f * 2 ^ e

/-- All `p` bits are used, and the last is zero. -/
def IsEven (p : ℕ) (y : ℚ) : Prop := ∃ (f : ℕ) (e : ℤ), 2 ^ p ≤ 2 * f ∧ f < 2 ^ p ∧ f % 2 = 0 ∧ y = f * 2 ^ e

structure Nearest (p : ℕ) (x y : ℚ) : Prop where
  hasBits : HasBits p y
  nearest : ∀ z, HasBits p z → |x - y| ≤ |x - z|
  even : ∀ z, HasBits p z → |x - z| = |x - y| → z = y ∨ IsEven p y

variable {p : ℕ}

theorem nearest_self {x : ℚ} (h : HasBits p x) : Nearest p x x where
  hasBits := h
  nearest z _ := by
    rw [sub_self, abs_zero]
    exact abs_nonneg _
  even z _ heq := by
    grind

/-- Between two neighbours the nearer one is the nearest. -/
theorem nearest_of_gap {x low high : ℚ} (hgap : ∀ z, HasBits p z → z ≤ low ∨ high ≤ z) (hlow : low ≤ x)
    (hhigh : x ≤ high) :
    (HasBits p low → x - low < high - x ∨ x - low = high - x ∧ IsEven p low → Nearest p x low) ∧
      (HasBits p high → high - x < x - low ∨ high - x = x - low ∧ IsEven p high → Nearest p x high) := by
  have habs_low : |x - low| = x - low := abs_of_nonneg (by linarith)
  have habs_high : |x - high| = high - x := by
    grind
  constructor
  · intro hbits hnear
    have hle : x - low ≤ high - x := hnear.elim le_of_lt fun h => le_of_eq h.1
    refine ⟨hbits, fun z hz => ?_, fun z hz heq => ?_⟩
    · grind
    grind
  · intro hbits hnear
    have hle : high - x ≤ x - low := hnear.elim le_of_lt fun h => le_of_eq h.1
    refine ⟨hbits, fun z hz => ?_, fun z hz heq => ?_⟩
    · grind
    grind

section Quotient

variable {q E : ℕ}

/-- No number of `p` bits lies between two neighbours with all of their bits. -/
theorem HasBits.gap {z : ℚ} (hz : HasBits p z) (hq : 2 ^ p ≤ 2 * q) :
    z ≤ ((q * 2 ^ E : ℕ) : ℚ) ∨ (((q + 1) * 2 ^ E : ℕ) : ℚ) ≤ z := by
  obtain ⟨f, e, hf, rfl⟩ := hz
  rcases le_or_gt (E : ℤ) e with he | he
  · obtain ⟨k, rfl⟩ := Int.le.dest he
    have hsplit : (f : ℚ) * 2 ^ ((E : ℤ) + k) = ((f * 2 ^ k * 2 ^ E : ℕ) : ℚ) := by
      grind [zpow_add₀, zpow_natCast]
    rw [hsplit, Nat.cast_le, Nat.cast_le]
    rcases Nat.lt_or_ge q (f * 2 ^ k) with hlt | hge
    · exact .inr (Nat.mul_le_mul_right _ hlt)
    · exact .inl (Nat.mul_le_mul_right _ hge)
  · left
    have hf' : (f : ℚ) ≤ 2 * q := by exact_mod_cast (Nat.le_of_lt hf).trans hq
    have hexp : (2 : ℚ) ^ e ≤ 2 ^ ((E : ℤ) - 1) := zpow_le_zpow_right₀ (by norm_num) (by omega)
    calc (f : ℚ) * 2 ^ e ≤ 2 * q * 2 ^ ((E : ℤ) - 1) :=
          mul_le_mul hf' hexp (by positivity) (by positivity)
      _ = ((q * 2 ^ E : ℕ) : ℚ) := by
          grind [zpow_sub_one₀, zpow_natCast]

theorem hasBits_nat (E : ℕ) (hlt : q < 2 ^ p) : HasBits p ((q * 2 ^ E : ℕ) : ℚ) :=
  ⟨q, E, hlt, by push_cast; rfl⟩

theorem isEven_nat (E : ℕ) (hq : 2 ^ p ≤ 2 * q) (hlt : q < 2 ^ p) (heven : q % 2 = 0) :
    IsEven p ((q * 2 ^ E : ℕ) : ℚ) := ⟨q, E, hq, hlt, heven, by push_cast; rfl⟩

/-- The neighbour above has one more bit where the significand is full. -/
theorem double_half (hp : 1 ≤ p) (hq : q + 1 = 2 ^ p) (E : ℕ) : (q + 1) * 2 ^ E = 2 ^ (p - 1) * 2 ^ (E + 1) := by
  rw [hq, ← pow_add, ← pow_add]
  congr 1
  omega

variable {n : ℕ}

/-- Less than half of a unit is rounded down, and half of it where the significand is even. -/
theorem nearest_down (hq : 2 ^ p ≤ 2 * q) (hlt : q < 2 ^ p) (hle : q * 2 ^ E ≤ n) (hn : n ≤ (q + 1) * 2 ^ E)
    (hdown : 2 * n < (2 * q + 1) * 2 ^ E ∨ 2 * n = (2 * q + 1) * 2 ^ E ∧ q % 2 = 0) :
    Nearest p n ((q * 2 ^ E : ℕ) : ℚ) := by
  refine (nearest_of_gap (fun z hz => hz.gap hq) (by exact_mod_cast hle) (by exact_mod_cast hn)).1
    (hasBits_nat E hlt) ?_
  rcases hdown with h | ⟨h, heven⟩
  · left
    have hcast : (2 : ℚ) * n < (2 * q + 1) * 2 ^ E := by exact_mod_cast h
    push_cast
    linarith
  · refine .inr ⟨?_, isEven_nat E hq hlt heven⟩
    have hcast : (2 : ℚ) * n = (2 * q + 1) * 2 ^ E := by exact_mod_cast h
    push_cast
    linarith

/-- More than half of a unit is rounded up, and half of it where the significand is odd. -/
theorem nearest_up (hp : 2 ≤ p) (hq : 2 ^ p ≤ 2 * q) (hlt : q < 2 ^ p) (hle : q * 2 ^ E ≤ n)
    (hn : n ≤ (q + 1) * 2 ^ E)
    (hup : (2 * q + 1) * 2 ^ E < 2 * n ∨ 2 * n = (2 * q + 1) * 2 ^ E ∧ q % 2 = 1) :
    Nearest p n (((q + 1) * 2 ^ E : ℕ) : ℚ) := by
  have hpow : 2 ^ p = 2 * 2 ^ (p - 1) := by rw [← Nat.pow_succ', show (p - 1).succ = p by omega]
  have hpow' : 2 ^ (p - 1) = 2 * 2 ^ (p - 2) := by rw [← Nat.pow_succ', show (p - 2).succ = p - 1 by omega]
  have hbits : HasBits p (((q + 1) * 2 ^ E : ℕ) : ℚ) := by
    rcases lt_or_ge (q + 1) (2 ^ p) with h | h
    · exact hasBits_nat E h
    · have hfull : q + 1 = 2 ^ p := by omega
      rw [double_half (by omega) hfull]
      exact hasBits_nat (E + 1) (by omega)
  have heven : q % 2 = 1 → IsEven p (((q + 1) * 2 ^ E : ℕ) : ℚ) := by
    intro hodd
    rcases lt_or_ge (q + 1) (2 ^ p) with h | h
    · exact isEven_nat E (by omega) h (by omega)
    · have hfull : q + 1 = 2 ^ p := by omega
      rw [double_half (by omega) hfull]
      exact isEven_nat (E + 1) (by omega) (by omega) (by omega)
  refine (nearest_of_gap (fun z hz => hz.gap hq) (by exact_mod_cast hle) (by exact_mod_cast hn)).2 hbits ?_
  rcases hup with h | ⟨h, hodd⟩
  · left
    have hcast : ((2 : ℚ) * q + 1) * 2 ^ E < 2 * n := by exact_mod_cast h
    push_cast
    linarith
  · refine .inr ⟨?_, heven hodd⟩
    have hcast : (2 : ℚ) * n = (2 * q + 1) * 2 ^ E := by exact_mod_cast h
    push_cast
    linarith

/-- The quotient `q` of `n` by `2 ^ E`, or the number above it where the remainder is more than
half, or half of an odd quotient. -/
def roundEven (n q E : ℕ) : ℕ :=
  if (2 * q + 1) * 2 ^ E < 2 * n ∨ 2 * n = (2 * q + 1) * 2 ^ E ∧ q % 2 = 1 then q + 1 else q

theorem roundEven_cases (n q E : ℕ) : roundEven n q E = q ∨ roundEven n q E = q + 1 := by
  grind [roundEven]

theorem nearest_roundEven (hp : 2 ≤ p) (hq : 2 ^ p ≤ 2 * q) (hlt : q < 2 ^ p) (hle : q * 2 ^ E ≤ n)
    (hn : n < (q + 1) * 2 ^ E) : Nearest p n ((roundEven n q E * 2 ^ E : ℕ) : ℚ) := by
  unfold roundEven
  split
  · rename_i hup
    exact nearest_up hp hq hlt hle hn.le hup
  · exact nearest_down hq hlt hle hn.le (by omega)

end Quotient

end W16.Rounding
