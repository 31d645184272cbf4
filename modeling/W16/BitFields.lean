import Mathlib.Data.Nat.Bitwise
import Mathlib.Tactic.Common

/-!
# Bit fields

A word of `w` bits holds several fields. Writing a value into a field clears its mask and
ors the value in, so the field and all below it are right, but the bits of a value that is
too long for the field are left in the fields above.
-/
namespace W16.BitFields

/-- The `size` bits of a word from bit `shift` on. -/
structure Field (w : Nat) where
  shift : Nat
  size : Nat
  fits : shift + size ≤ w

variable {w : Nat}

namespace Field

def mask (f : Field w) : BitVec w := ((1#w <<< f.shift) <<< f.size) - (1#w <<< f.shift)

def encode (f : Field w) (value : BitVec w) : BitVec w := value <<< f.shift

def update (f : Field w) (previous value : BitVec w) : BitVec w :=
  (previous &&& ~~~f.mask) ||| f.encode value

def decode (f : Field w) (value : BitVec w) : BitVec w := (value &&& f.mask) >>> f.shift

variable (f g : Field w) (word value : BitVec w)

theorem mask_eq : f.mask = BitVec.ofNat w ((2 ^ f.size - 1) <<< f.shift) := by
  have hsub : (2 ^ f.size - 1) <<< f.shift + 1 <<< f.shift = (1 <<< f.shift) <<< f.size := by
    simp only [Nat.shiftLeft_eq, one_mul, Nat.sub_mul]
    rw [Nat.sub_add_cancel (Nat.le_mul_of_pos_left _ (Nat.two_pow_pos _)), mul_comm]
  have hshift : ∀ n k : Nat, BitVec.ofNat w n <<< k = BitVec.ofNat w (n <<< k) := by
    intro n k
    apply BitVec.eq_of_toNat_eq
    simp [BitVec.toNat_shiftLeft, Nat.shiftLeft_eq]
  rw [mask, hshift, hshift, ← hsub, BitVec.ofNat_add, BitVec.add_sub_cancel]

theorem mask_getLsbD (i : Nat) : f.mask.getLsbD i = decide (f.shift ≤ i ∧ i < f.shift + f.size) := by
  have hfits := f.fits
  rw [mask_eq, BitVec.getLsbD_ofNat, Nat.testBit_shiftLeft, Nat.testBit_two_pow_sub_one, Bool.eq_iff_iff]
  simp
  omega

theorem decode_getLsbD (i : Nat) :
    (f.decode word).getLsbD i = (decide (i < f.size) && word.getLsbD (f.shift + i)) := by
  simp [decode, mask_getLsbD, Bool.and_comm]

variable {i : Nat}

theorem getLsbD_of_lt {n : Nat} (h : value.toNat < 2 ^ n) (hi : n ≤ i) : value.getLsbD i = false :=
  Nat.testBit_lt_two_pow (lt_of_lt_of_le h (Nat.pow_le_pow_right (by decide) hi))

theorem decode_lt : (f.decode word).toNat < 2 ^ f.size := by
  apply Nat.lt_pow_two_of_testBit
  intro i hi
  have h := decode_getLsbD f word i
  rw [decide_eq_false (by omega), Bool.false_and] at h
  exact h

theorem update_getLsbD (hi : i < w) : (f.update word value).getLsbD i =
      (word.getLsbD i && !decide (f.shift ≤ i ∧ i < f.shift + f.size) ||
        !decide (i < f.shift) && value.getLsbD (i - f.shift)) := by
  rw [update, encode, BitVec.getLsbD_or, BitVec.getLsbD_and, BitVec.getLsbD_not, mask_getLsbD,
    BitVec.getLsbD_shiftLeft, decide_eq_true hi, Bool.true_and, Bool.true_and]

/-- Below a field nothing changes, whatever the value. -/
theorem update_getLsbD_below (h : i < f.shift) : (f.update word value).getLsbD i = word.getLsbD i := by
  grind [update_getLsbD]

/-- Above a field nothing changes when the value fits. -/
theorem update_getLsbD_above (hv : value.toNat < 2 ^ f.size) (hi : f.shift + f.size ≤ i)
    (hw : i < w) : (f.update word value).getLsbD i = word.getLsbD i := by
  grind [getLsbD_of_lt, update_getLsbD]

/-- A field holds the low bits of the value written to it. -/
theorem update_getLsbD_within (hi : i < f.size) :
    (f.update word value).getLsbD (f.shift + i) = value.getLsbD i := by
  have hw : f.shift + i < w := by
    have := f.fits
    omega
  grind [update_getLsbD]

theorem decode_update (hv : value.toNat < 2 ^ f.size) : f.decode (f.update word value) = value := by
  apply BitVec.eq_of_getLsbD_eq
  intro i _
  rw [decode_getLsbD]
  by_cases hi : i < f.size
  · rw [decide_eq_true hi, Bool.true_and, update_getLsbD_within f word value hi]
  · rw [decide_eq_false hi, Bool.false_and, getLsbD_of_lt value hv (by omega)]

theorem decode_update_below (h : g.shift + g.size ≤ f.shift) :
    g.decode (f.update word value) = g.decode word := by
  apply BitVec.eq_of_getLsbD_eq
  grind [decode_getLsbD, update_getLsbD_below]

theorem decode_update_above (hv : value.toNat < 2 ^ f.size) (h : f.shift + f.size ≤ g.shift) :
    g.decode (f.update word value) = g.decode word := by
  have hfits := g.fits
  apply BitVec.eq_of_getLsbD_eq
  grind [decode_getLsbD, update_getLsbD_above]

end Field

/-- The signed field from bit `k` to the top depends only on its own bits. -/
theorem sshiftRight_congr {x y : BitVec w} {k : Nat} (hk : k < w)
    (h : ∀ i, k ≤ i → i < w → x.getLsbD i = y.getLsbD i) :
    x.sshiftRight k = y.sshiftRight k := by
  grind

theorem sshiftRight_update (f : Field w) (word value : BitVec w) {k : Nat} (hk : k < w)
    (hv : value.toNat < 2 ^ f.size) (h : f.shift + f.size ≤ k) :
    (f.update word value).sshiftRight k = word.sshiftRight k :=
  sshiftRight_congr hk fun _ hi hw => f.update_getLsbD_above word value hv (h.trans hi) hw

end W16.BitFields
