import Mathlib.Data.Rat.Defs
import Mathlib.Data.Nat.Bitwise
import Mathlib.Algebra.Order.Field.Rat
import Mathlib.Algebra.Order.Field.Power
import Mathlib.Tactic.Ring
import Mathlib.Tactic.Linarith
import Mathlib.Tactic.NormNum
import Mathlib.Tactic.Positivity

/-!
# Doubles

`Double` of `double.h`: the bits of a double and the parts they encode. The value is the
rational number that the parts stand for. The bits of infinity get the value one step above
the largest double, so that the neighbours and the boundaries of every finite double are
given by its bits alone.
-/
namespace W16

structure Double where
  d64 : BitVec 64
  deriving DecidableEq, Repr

namespace Double

def kSignMask : BitVec 64 := 0x8000000000000000
def kExponentMask : BitVec 64 := 0x7FF0000000000000
def kSignificandMask : BitVec 64 := 0x000FFFFFFFFFFFFF
def kHiddenBit : BitVec 64 := 0x0010000000000000
def kInfinity : BitVec 64 := 0x7FF0000000000000

/-- Excludes the hidden bit. -/
def kPhysicalSignificandSize : Nat := 52
def kSignificandSize : Nat := 53
def kExponentBias : Int := 0x3FF + kPhysicalSignificandSize
def kDenormalExponent : Int := -kExponentBias + 1
def kMaxExponent : Int := 0x7FF - kExponentBias

def isDenormal (d : Double) : Bool := d.d64 &&& kExponentMask == 0

/-- Infinity or NaN. -/
def isSpecial (d : Double) : Bool := d.d64 &&& kExponentMask == kExponentMask

def sign (d : Double) : Int := if d.d64 &&& kSignMask == 0 then 1 else -1

def exponent (d : Double) : Int :=
  if d.isDenormal then kDenormalExponent
  else ((d.d64 &&& kExponentMask) >>> kPhysicalSignificandSize).toNat - kExponentBias

def significand (d : Double) : Nat :=
  let significand := (d.d64 &&& kSignificandMask).toNat
  if !d.isDenormal then significand + kHiddenBit.toNat else significand

/-- The magnitude. -/
def value (d : Double) : ℚ := d.significand * 2 ^ d.exponent

/-- A finite double above zero. -/
structure IsPositive (d : Double) : Prop where
  sign : d.sign = 1
  finite : d.isSpecial = false
  nonzero : d.significand ≠ 0

/-- The next double away from zero, and the next one towards it. -/
def next (d : Double) : Double := ⟨d.d64 + 1⟩
def previous (d : Double) : Double := ⟨d.d64 - 1⟩

/-- The boundaries of a double lie halfway to its neighbours. -/
def upper (d : Double) : ℚ := (d.value + d.next.value) / 2
def lower (d : Double) : ℚ := (d.previous.value + d.value) / 2

def isEven (d : Double) : Bool := d.significand % 2 = 0

/-- The numbers that are read as the double: the boundaries belong to the even neighbour. -/
def Rounds (d : Double) (x : ℚ) : Prop :=
  if d.isEven then d.lower ≤ x ∧ x ≤ d.upper else d.lower < x ∧ x < d.upper

/-! ## The fields -/

section Fields

variable (d : Double)

theorem and_significandMask : (d.d64 &&& kSignificandMask).toNat = d.d64.toNat % 2 ^ 52 := by
  exact Nat.and_two_pow_sub_one_eq_mod _ 52

theorem and_exponentMask : (d.d64 &&& kExponentMask).toNat = d.d64.toNat / 2 ^ 52 % 2 ^ 11 * 2 ^ 52 := by
  rw [BitVec.toNat_and]
  apply Nat.eq_of_testBit_eq
  intro i
  rw [Nat.testBit_and, show kExponentMask.toNat = (2 ^ 11 - 1) * 2 ^ 52 by decide, Nat.testBit_mul_two_pow,
    Nat.testBit_mul_two_pow, Nat.testBit_mod_two_pow, Nat.testBit_div_two_pow, Nat.testBit_two_pow_sub_one]
  grind

/-- The bits of a magnitude, below the sign. -/
theorem and_signMask : d.d64 &&& kSignMask = 0 ↔ d.d64.toNat < 2 ^ 63 := by
  rw [← BitVec.toNat_inj, BitVec.toNat_and, show kSignMask.toNat = 2 ^ 63 by decide, Nat.and_two_pow]
  rw [Nat.testBit_eq_decide_div_mod_eq]
  by_cases hb : d.d64.toNat / 2 ^ 63 % 2 = 1
  · grind
  · rw [decide_eq_false hb]
    show 0 * 2 ^ 63 = 0 ↔ _
    omega

end Fields

/-- The parts of a double with the given bits. -/
structure Parts (n f : Nat) (e : Int) : Prop where
  significand : f = if n < 2 ^ 52 then n else n % 2 ^ 52 + 2 ^ 52
  exponent : e = if n < 2 ^ 52 then (-1074 : Int) else ((n / 2 ^ 52 : Nat) : Int) - 1075

theorem isDenormal_iff (d : Double) (h : d.d64.toNat < 2 ^ 63) :
    d.isDenormal = true ↔ d.d64.toNat < 2 ^ 52 := by
  unfold isDenormal
  rw [beq_iff_eq, ← BitVec.toNat_inj, and_exponentMask]
  show _ * _ = 0 ↔ _
  omega

theorem parts (d : Double) (h : d.d64.toNat < 2 ^ 63) : Parts d.d64.toNat d.significand d.exponent := by
  have hden := isDenormal_iff d h
  have hshift : ((d.d64 &&& kExponentMask) >>> kPhysicalSignificandSize).toNat = d.d64.toNat / 2 ^ 52 % 2 ^ 11 := by
    rw [BitVec.toNat_ushiftRight, and_exponentMask, kPhysicalSignificandSize, Nat.shiftRight_eq_div_pow]
    exact Nat.mul_div_cancel _ (Nat.two_pow_pos 52)
  have hhidden : kHiddenBit.toNat = 2 ^ 52 := by decide
  have hbias : kExponentBias = 1075 := by decide
  by_cases hn : d.d64.toNat < 2 ^ 52
  · have hd := hden.2 hn
    refine ⟨?_, ?_⟩
    · rw [significand, hd, if_neg (by decide), and_significandMask, if_pos hn]
      omega
    · rw [exponent, hd, if_pos rfl, if_pos hn]
      decide
  · have hd : d.isDenormal = false := by
      rw [← Bool.not_eq_true, hden]
      exact hn
    refine ⟨?_, ?_⟩
    · rw [significand, hd, if_pos (by decide), and_significandMask, if_neg hn, hhidden]
    · rw [exponent, hd, if_neg (by decide), if_neg hn, hshift, hbias]
      omega

section Positive

variable {d : Double} (h : d.IsPositive)
include h

theorem IsPositive.bits : 0 < d.d64.toNat ∧ d.d64.toNat < 2047 * 2 ^ 52 := by
  have hlt : d.d64.toNat < 2 ^ 63 := by
    have hs := h.sign
    unfold Double.sign at hs
    split at hs
    · exact (and_signMask d).1 (beq_iff_eq.1 (by assumption))
    · cases hs
  constructor
  · have hp := (parts d hlt).significand
    have h0 := h.nonzero
    split at hp <;> omega
  · have hs : ¬d.d64 &&& kExponentMask = kExponentMask := by
      have := h.finite
      unfold isSpecial at this
      rwa [beq_eq_false_iff_ne] at this
    rw [← BitVec.toNat_inj, and_exponentMask, show kExponentMask.toNat = 2047 * 2 ^ 52 by decide] at hs
    omega

theorem IsPositive.parts : Parts d.d64.toNat d.significand d.exponent :=
  Double.parts d (by have := h.bits; omega)

theorem IsPositive.significand_lt : d.significand < 2 ^ 53 := by
  have := h.parts.significand
  split at this <;> omega

/-- The lower neighbour of a power of two is half a unit away. -/
def closeBelow (d : Double) : Bool := d.significand = 2 ^ 52 && d.exponent ≠ -1074

end Positive

end Double

end W16
