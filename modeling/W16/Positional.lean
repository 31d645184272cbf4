import Mathlib.Logic.Function.Basic
import Mathlib.Algebra.Order.Ring.Nat
import Mathlib.Tactic.Ring
import Mathlib.Tactic.Linarith
import Mathlib.Algebra.BigOperators.Intervals
import Mathlib.Algebra.BigOperators.Ring.Finset

/-!
# Positional numbers

A number in base `B` is a function from positions to limbs together with the number of
positions in use. Loops that walk over the positions with a carry or a borrow all rest
on one telescoping identity, and comparison on the bound of a prefix.
-/
namespace W16.Positional

variable {B : Nat} {f g : Nat → Nat} {m n : Nat}

/-- The value of the limbs at positions below `n`, least significant first. -/
def ofLimbs (B : Nat) (f : Nat → Nat) : Nat → Nat
  | 0 => 0
  | n + 1 => ofLimbs B f n + f n * B ^ n

@[simp] theorem ofLimbs_zero (B : Nat) (f : Nat → Nat) : ofLimbs B f 0 = 0 := rfl

theorem ofLimbs_succ (B : Nat) (f : Nat → Nat) (n : Nat) :
    ofLimbs B f (n + 1) = ofLimbs B f n + f n * B ^ n := rfl

theorem sum_range_eq_ofLimbs (B : Nat) (f : Nat → Nat) (n : Nat) :
    ∑ i ∈ Finset.range n, f i * B ^ i = ofLimbs B f n := by
  induction n with
  | zero => rfl
  | succ n ih => rw [Finset.sum_range_succ, ih, ofLimbs_succ]

@[simp] theorem ofLimbs_one (B : Nat) (f : Nat → Nat) : ofLimbs B f 1 = f 0 := by
  simp [ofLimbs]

theorem ofLimbs_congr (h : ∀ i < n, f i = g i) : ofLimbs B f n = ofLimbs B g n := by
  induction n with
  | zero => rfl
  | succ n ih =>
    grind [ofLimbs_succ]

/-- A write at or above the prefix leaves its value alone. -/
theorem ofLimbs_update_of_le (f : Nat → Nat) {k : Nat} (v : Nat) (h : n ≤ k) :
    ofLimbs B (Function.update f k v) n = ofLimbs B f n :=
  ofLimbs_congr fun i hi => Function.update_of_ne (by omega) v f

theorem ofLimbs_update_succ (f : Nat → Nat) (n v : Nat) :
    ofLimbs B (Function.update f n v) (n + 1) = ofLimbs B f n + v * B ^ n := by
  rw [ofLimbs_succ, ofLimbs_update_of_le f v (le_refl n), Function.update_self]

/-- A write inside the prefix. -/
theorem ofLimbs_update (f : Nat → Nat) {k : Nat} (v : Nat) (h : k < n) :
    ofLimbs B (Function.update f k v) n + f k * B ^ k = ofLimbs B f n + v * B ^ k := by
  induction n with
  | zero => omega
  | succ n ih =>
    grind [ofLimbs_update_succ, ofLimbs_succ]

theorem ofLimbs_eq_zero (h : ∀ i < n, f i = 0) : ofLimbs B f n = 0 := by
  induction n with
  | zero => rfl
  | succ n ih => grind [ofLimbs_succ]

theorem ofLimbs_split (B : Nat) (f : Nat → Nat) (m n : Nat) :
    ofLimbs B f (m + n) = ofLimbs B f m + B ^ m * ofLimbs B (fun i => f (m + i)) n := by
  induction n with
  | zero => simp
  | succ n ih =>
    grind [ofLimbs_succ]

/-- Zero limbs above the prefix do not count. -/
theorem ofLimbs_extend (h : ∀ i, m ≤ i → f i = 0) (hmn : m ≤ n) : ofLimbs B f n = ofLimbs B f m := by
  obtain ⟨k, rfl⟩ := Nat.exists_eq_add_of_le hmn
  have hz : ofLimbs B (fun i => f (m + i)) k = 0 := ofLimbs_eq_zero fun i _ => h (m + i) (by omega)
  rw [ofLimbs_split, hz]
  simp

/-- Zero limbs inserted below shift the number. -/
theorem ofLimbs_shift (B : Nat) (f : Nat → Nat) (m n : Nat) :
    ofLimbs B (fun i => if i < m then 0 else f (i - m)) (m + n) = B ^ m * ofLimbs B f n := by
  simp_all [ofLimbs_eq_zero, ofLimbs_split]

theorem ofLimbs_lt (h : ∀ i < n, f i < B) : ofLimbs B f n < B ^ n := by
  induction n with
  | zero => simp
  | succ n ih =>
    have hlow := ih fun i hi => h i (by omega)
    have htop : (f n + 1) * B ^ n ≤ B * B ^ n := Nat.mul_le_mul_right _ (h n (by omega))
    rw [ofLimbs_succ, pow_succ]
    linarith

/-- A nonzero top limb. -/
theorem le_ofLimbs (h : f n ≠ 0) : B ^ n ≤ ofLimbs B f (n + 1) := by
  rw [ofLimbs_succ]
  have : 1 * B ^ n ≤ f n * B ^ n := Nat.mul_le_mul_right _ (by omega)
  omega

theorem limb_ne_zero (hf : ∀ i < n, f i < B) (h : B ^ n ≤ ofLimbs B f (n + 1)) : f n ≠ 0 := by
  intro hz
  have := ofLimbs_lt hf
  rw [ofLimbs_succ, hz] at h
  omega

/-- Numbers that agree from position `n` on compare as their limbs there. -/
theorem ofLimbs_lt_of_limb_lt (hf : ∀ i < n, f i < B) (h : f n < g n) :
    ofLimbs B f (n + 1) < ofLimbs B g (n + 1) := by
  have hlow := ofLimbs_lt hf
  have htop : (f n + 1) * B ^ n ≤ g n * B ^ n := Nat.mul_le_mul_right _ h
  rw [ofLimbs_succ, ofLimbs_succ]
  linarith

/-! ## Products by columns -/

/-- Column `i` of the product of two numbers. -/
def column (f g : Nat → Nat) (i : Nat) : Nat := ∑ k ∈ Finset.range (i + 1), f (i - k) * g k

theorem ofLimbs_column (f g : Nat → Nat) (n : Nat) :
    ofLimbs B (column f g) n = ∑ k ∈ Finset.range n, g k * B ^ k * ofLimbs B f (n - k) := by
  induction n with
  | zero => rfl
  | succ n ih =>
    have hstep : ∀ k ∈ Finset.range n, g k * B ^ k * ofLimbs B f (n + 1 - k) =
        g k * B ^ k * ofLimbs B f (n - k) + f (n - k) * g k * B ^ n := by
      intro k hk
      have hk' : k < n := Finset.mem_range.1 hk
      rw [show n + 1 - k = n - k + 1 by omega, ofLimbs_succ,
        show B ^ n = B ^ k * B ^ (n - k) by rw [← pow_add]; congr 1; omega]
      ring
    rw [ofLimbs_succ, ih, Finset.sum_range_succ, Finset.sum_congr rfl hstep, Finset.sum_add_distrib,
      ← Finset.sum_mul, column, Finset.sum_range_succ, show n + 1 - n = 1 by omega, ofLimbs_one,
      Nat.sub_self]
    ring

/-- The columns of a product add up to it. -/
theorem ofLimbs_mul (hf : ∀ i, m ≤ i → f i = 0) (hg : ∀ i, n ≤ i → g i = 0) :
    ofLimbs B (column f g) (m + n) = ofLimbs B f m * ofLimbs B g n := by
  have hterm : ∀ k ∈ Finset.range (m + n), g k * B ^ k * ofLimbs B f (m + n - k) =
      g k * B ^ k * ofLimbs B f m := by
    grind [ofLimbs_extend]
  rw [ofLimbs_column, Finset.sum_congr rfl hterm, ← Finset.sum_mul, sum_range_eq_ofLimbs,
    ofLimbs_extend hg (by omega), mul_comm]

end W16.Positional
