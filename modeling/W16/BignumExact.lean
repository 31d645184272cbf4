import W16.BignumDivision
import W16.BignumPower
import W16.BignumStrings

/-!
# Bignum is exact arithmetic

The public operations as calls, the Bignums that calls can produce, and the theorem that
a call computes its mathematical result unless a size or an `int` runs out of range.
-/
namespace W16.Bignum

/-- A call of a public operation that changes the number. -/
inductive Call where
  | assignUInt16 (value : Nat)
  | assignUInt64 (value : Nat)
  | assignBignum (other : Bignum)
  | assignDecimalString (value : List Char)
  | assignHexString (value : List Char)
  | assignPowerUInt16 (base exponent : Nat)
  | addUInt64 (operand : Nat)
  | addBignum (other : Bignum)
  | subtractBignum (other : Bignum)
  | square
  | shiftLeft (shiftAmount : Nat)
  | multiplyByUInt32 (factor : Nat)
  | multiplyByUInt64 (factor : Nat)
  | multiplyByPowerOfTen (exponent : Nat)
  | times10
  | divideModuloIntBignum (other : Bignum)

namespace Call

def run (b : Bignum) : Call → Checked Bignum
  | assignUInt16 v => b.assignUInt16 v
  | assignUInt64 v => b.assignUInt64 v
  | assignBignum o => .ok (b.assignBignum o)
  | assignDecimalString s => b.assignDecimalString s
  | assignHexString s => b.assignHexString s
  | assignPowerUInt16 base e => b.assignPowerUInt16 base e
  | addUInt64 v => b.addUInt64 v
  | addBignum o => b.addBignum o
  | subtractBignum o => b.subtractBignum o
  | square => b.square
  | shiftLeft n => b.shiftLeft n
  | multiplyByUInt32 f => b.multiplyByUInt32 f
  | multiplyByUInt64 f => b.multiplyByUInt64 f
  | multiplyByPowerOfTen e => b.multiplyByPowerOfTen e
  | times10 => b.times10
  | divideModuloIntBignum o => (b.divideModuloIntBignum o).map Prod.fst

/-- The Bignums passed to a call. -/
def others : Call → List Bignum
  | assignBignum o | addBignum o | subtractBignum o | divideModuloIntBignum o => [o]
  | _ => []

def IsHex (s : List Char) : Prop :=
  ∀ c ∈ s, ('0' ≤ c ∧ c ≤ '9') ∨ ('a' ≤ c ∧ c ≤ 'f') ∨ ('A' ≤ c ∧ c ≤ 'F')

/-- The types of the arguments and the documented preconditions. -/
def Allowed (b : Bignum) : Call → Prop
  | assignUInt16 v => v < 2 ^ 16
  | assignUInt64 v | addUInt64 v => v < 2 ^ 64
  | assignDecimalString s => IsDecimal s
  | assignHexString s => IsHex s
  | assignPowerUInt16 base e => base ≠ 0 ∧ base < 2 ^ 16 ∧ e < 2 ^ 31
  | subtractBignum o => o.value ≤ b.value
  | shiftLeft n => n < 2 ^ 31
  | multiplyByUInt32 f => f < 2 ^ 32
  | multiplyByUInt64 f => f < 2 ^ 64
  | multiplyByPowerOfTen e => e < 2 ^ 31
  | divideModuloIntBignum o => o.value ≠ 0 ∧ b.value / o.value < 2 ^ 16
  | assignBignum _ | addBignum _ | square | times10 => True

/-- The mathematical result. -/
def result (b : Bignum) : Call → Nat
  | assignUInt16 v | assignUInt64 v => v
  | assignBignum o => o.value
  | assignDecimalString s => decimalValue s
  | assignHexString s => hexValue s
  | assignPowerUInt16 base e => base ^ e
  | addUInt64 v => b.value + v
  | addBignum o => b.value + o.value
  | subtractBignum o => b.value - o.value
  | square => b.value ^ 2
  | shiftLeft n => b.value * 2 ^ n
  | multiplyByUInt32 f | multiplyByUInt64 f => b.value * f
  | multiplyByPowerOfTen e => b.value * 10 ^ e
  | times10 => b.value * 10
  | divideModuloIntBignum o => b.value % o.value

end Call

/-- The Bignums that a sequence of calls produces. -/
inductive Reachable : Bignum → Prop
  | new : Reachable empty
  | call {b r : Bignum} {c : Call} : Reachable b → (∀ o ∈ c.others, Reachable o) → c.Allowed b →
      c.run b = .ok r → Reachable r

variable {b : Bignum}

/-- One call keeps the invariant and computes its result, or is refused. -/
theorem Call.run_meets (h : b.Valid) (c : Call) (ho : ∀ o ∈ c.others, o.Valid) (hc : c.Allowed b) :
    Meets (c.run b) (fun r => r.Valid ∧ r.value = c.result b) (Refused True) := by
  have weaken : ∀ {C : Prop} (e : Fault), Refused C e → Refused True e := fun e he => ⟨he.1, trivial⟩
  cases c with
  | assignUInt16 v => exact (assignUInt16_meets h hc).mono (fun _ hr => hr) weaken
  | assignUInt64 v =>
    exact (assignUInt64_meets h hc).mono (fun _ hr => ⟨hr.1, hr.2.1⟩) weaken
  | assignBignum o =>
    have hov : o.Valid := ho o (by simp [others])
    refine Meets.ok ?_
    rw [assignBignum_eq h hov]
    exact ⟨hov, rfl⟩
  | assignDecimalString s => exact (assignDecimalString_meets h hc).mono (fun _ hr => hr) weaken
  | assignHexString s => exact (assignHexString_meets h s).mono (fun _ hr => hr) weaken
  | assignPowerUInt16 base e =>
    exact (assignPowerUInt16_meets h hc.1 hc.2.1 hc.2.2).mono (fun _ hr => hr) weaken
  | addUInt64 v => exact (addUInt64_meets h hc).mono (fun _ hr => hr) weaken
  | addBignum o => exact (addBignum_meets h (ho o (by simp [others]))).mono (fun _ hr => hr) weaken
  | subtractBignum o =>
    exact (subtractBignum_meets h (ho o (by simp [others])) hc).mono (fun _ hr => ⟨hr.1, hr.2.1⟩) weaken
  | square => exact (square_meets h).mono (fun _ hr => hr) weaken
  | shiftLeft n => exact (shiftLeft_meets h n).mono (fun _ hr => ⟨hr.1, hr.2.1⟩) weaken
  | multiplyByUInt32 f =>
    exact (multiplyByUInt32_meets h hc).mono (fun _ hr => ⟨hr.1, hr.2.1⟩) weaken
  | multiplyByUInt64 f =>
    exact (multiplyByUInt64_meets h hc).mono (fun _ hr => ⟨hr.1, hr.2.1⟩) weaken
  | multiplyByPowerOfTen e =>
    exact (multiplyByPowerOfTen_meets h e).mono (fun _ hr => ⟨hr.1, hr.2.1⟩) weaken
  | times10 =>
    exact (multiplyByUInt32_meets h (show 10 < 2 ^ 32 by decide)).mono (fun _ hr => ⟨hr.1, hr.2.1⟩) weaken
  | divideModuloIntBignum o =>
    have hov : o.Valid := ho o (by simp [others])
    have hdiv := divideModuloIntBignum_meets h hov (mt value_of_used_eq_zero hc.1) hc.2
    show Meets ((b.divideModuloIntBignum o).map Prod.fst) _ _
    cases hrun : b.divideModuloIntBignum o with
    | ok r =>
      have := hdiv.of_ok hrun
      exact ⟨this.1, this.2.1⟩
    | error e =>
      rw [hrun] at hdiv
      exact weaken e hdiv

theorem Reachable.valid (h : Reachable b) : b.Valid := by
  induction h with
  | new => exact empty_valid
  | @call b r c _ _ hc hrun ih iho =>
    exact ((Call.run_meets ih c iho hc).of_ok hrun).1

theorem Reachable.shift (hb : Reachable b) (hu : b.used ≠ 0) (hroom : b.used < 128)
    {amount : Nat} (ha : amount < 2 ^ 31) (hexp : b.exponent + amount / 28 < 2 ^ 31) :
    ∃ r, Reachable r ∧ r.used ≠ 0 ∧ r.used ≤ b.used + 1 ∧ r.exponent = b.exponent + amount / 28 := by
  obtain ⟨r, hrun, -, hv, hused, hrexp⟩ := (shiftLeft_meets hb.valid amount).exists_ok fun _ he => by
    have := he.2.2
    omega
  refine ⟨r, .call (c := .shiftLeft amount) hb (by simp [Call.others]) ha hrun, ?_, hused, hrexp hu⟩
  intro h0
  rw [value_of_used_eq_zero h0] at hv
  rcases Nat.mul_eq_zero.1 hv.symm with h1 | h1
  · exact hu ((value_eq_zero hb.valid).1 h1)
  · exact absurd h1 (Nat.two_pow_pos amount).ne'

/-- Shifting one bigit up 28 times by almost the largest `int` brings the exponent to the end of
its range. -/
theorem reachable_shifted (n : Nat) (hn : n ≤ 28) :
    ∃ b, Reachable b ∧ b.used ≠ 0 ∧ b.used ≤ n + 1 ∧ b.exponent = n * 76695844 := by
  induction n with
  | zero =>
    obtain ⟨b, hrun, hb, hv, hexp⟩ :=
      (assignUInt64_meets empty_valid (show 1 < 2 ^ 64 by decide)).exists_ok fun _ he => he.2
    refine ⟨b, .call (c := .assignUInt64 1) .new (by simp [Call.others]) (by simp [Call.Allowed]) hrun,
      ?_, ?_, by simpa using hexp⟩
    · intro hu
      have := value_of_used_eq_zero hu
      omega
    · have := length_le hb (show b.value < radix ^ 1 by rw [hv]; decide)
      omega
  | succ n ih =>
    obtain ⟨b, hb, hu, hused, hexp⟩ := ih (by omega)
    obtain ⟨r, hr, hru, hrused, hrexp⟩ := hb.shift hu (by omega) (show 2147483632 < 2 ^ 31 by decide) (by omega)
    exact ⟨r, hr, hru, by omega, by omega⟩

end W16.Bignum

/-!
## Division and the comparison of a sum

What callers of `DivideModuloIntBignum` and `PlusCompare` rely on, as long as the bigit
lengths are within an `int`. Shifts alone can bring an exponent beyond that.
-/
namespace W16.Bignum

variable {a b c : Bignum}

/-! ## PlusCompare -/

theorem plusCompare_eq (ha : a.Valid) (hb : b.Valid) (hc : c.Valid)
    (hla : a.used + a.exponent + 1 < 2 ^ 31) (hlb : b.used + b.exponent + 1 < 2 ^ 31)
    (hlc : c.used + c.exponent < 2 ^ 31) :
    plusCompare a b c = .ok (sign (a.value + b.value) c.value) := by
  obtain ⟨r, hr, rfl⟩ := (plusCompare_meets ha hb hc).exists_ok fun e he => by
    have := he.2
    omega
  exact hr

/-- `PlusCompare` is the sign of the exact difference, and the predicates are the comparisons of
the exact sum. -/
theorem plusCompare_exact (ha : a.Valid) (hb : b.Valid) (hc : c.Valid)
    (hla : a.used + a.exponent + 1 < 2 ^ 31) (hlb : b.used + b.exponent + 1 < 2 ^ 31)
    (hlc : c.used + c.exponent < 2 ^ 31) :
    plusCompare a b c = .ok (sign (a.value + b.value) c.value) ∧
      plusEqual a b c = .ok (decide (a.value + b.value = c.value)) ∧
      plusLessEqual a b c = .ok (decide (a.value + b.value ≤ c.value)) ∧
      plusLess a b c = .ok (decide (a.value + b.value < c.value)) := by
  have h := plusCompare_eq ha hb hc hla hlb hlc
  refine ⟨h, ?_, ?_, ?_⟩
  · rw [plusEqual, h]
    show Except.ok _ = _
    simp only [sign_eq_zero]
  · rw [plusLessEqual, h]
    show Except.ok _ = _
    simp only [sign_le_zero]
  · rw [plusLess, h]
    show Except.ok _ = _
    simp only [sign_lt_zero]

theorem exists_one : ∃ b : Bignum, b.Valid ∧ b.value = 1 ∧ b.used + b.exponent ≤ 1 := by
  obtain ⟨b, -, hb, hv, -⟩ :=
    (assignUInt64_meets empty_valid (show 1 < 2 ^ 64 by decide)).exists_ok fun _ he => he.2
  exact ⟨b, hb, hv, length_le hb (by rw [hv]; decide)⟩

theorem plusCompare_exact_one : ∃ b : Bignum, b.value = 1 ∧ plusCompare b b b = .ok 1 := by
  obtain ⟨b, hb, hv, hlen⟩ := exists_one
  have h := (plusCompare_exact hb hb hb (by omega) (by omega) (by omega)).1
  exact ⟨b, hv, by rw [h, hv]; rfl⟩

/-! ## Where a bigit length leaves its range -/

/-- Shifts bring a number to the largest exponent. -/
theorem reachable_longest : ∃ b, Reachable b ∧ b.used ≠ 0 ∧ b.exponent = 2 ^ 31 - 1 := by
  obtain ⟨b, hb, hu, hused, hexp⟩ := reachable_shifted 28 (le_refl 28)
  obtain ⟨r, hr, hru, -, hrexp⟩ := hb.shift hu (by omega) (show 420 < 2 ^ 31 by decide) (by omega)
  exact ⟨r, hr, hru, by omega⟩

theorem bigitLength_overflows (hu : b.used ≠ 0) (hexp : b.exponent = 2 ^ 31 - 1) :
    bigitLength b = .error .overflow := if_neg (by omega)

theorem plusCompare_not_exact : ¬ ∀ a b c, Reachable a → Reachable b → Reachable c →
      plusCompare a b c = .ok (sign (a.value + b.value) c.value) := by
  intro h
  obtain ⟨b, hb, hu, hexp⟩ := reachable_longest
  have hrun := h b b b hb hb hb
  rw [plusCompare, bigitLength_overflows hu hexp] at hrun
  cases hrun

/-! ## Division -/

/-- The quotient, and the remainder in a valid representation. There is room when the stored bigits
of the dividend and those it hides above the exponent of the divisor fit the array. -/
theorem divideModuloIntBignum_exact (ha : a.Valid) (hb : b.Valid) (hpos : 0 < b.value)
    (h16 : a.value / b.value < 2 ^ 16) (hroom : a.used + a.exponent - b.exponent ≤ kBigitCapacity)
    (hla : a.used + a.exponent < 2 ^ 31) (hlb : b.used + b.exponent < 2 ^ 31) :
    ∃ r, divideModuloIntBignum a b = .ok (r, a.value / b.value) ∧ r.Valid ∧ r.value = a.value % b.value := by
  have hbu : b.used ≠ 0 := fun hu => by
    have := value_of_used_eq_zero hu
    omega
  obtain ⟨⟨r, q⟩, hrun, hvalid, hvalue, hquotient⟩ :=
    (divideModuloIntBignum_meets ha hb hbu h16).exists_ok fun e he => by
      have := he.2
      unfold kBigitCapacity at hroom
      omega
  grind

theorem divideModuloIntBignum_exact_one : ∃ b r : Bignum, b.value = 1 ∧
    divideModuloIntBignum b b = .ok (r, 1) ∧ r.value = 0 := by
  obtain ⟨b, hb, hv, hlen⟩ := exists_one
  obtain ⟨r, hrun, -, hr⟩ := divideModuloIntBignum_exact hb hb (by omega) (by rw [hv]; decide)
    (by unfold kBigitCapacity; omega) (by omega) (by omega)
  grind

theorem divideModuloIntBignum_not_exact :
    ¬ ∀ a b, Reachable a → Reachable b → 0 < b.value → a.value / b.value < 2 ^ 16 →
      a.used + a.exponent - b.exponent ≤ kBigitCapacity →
      ∃ r, divideModuloIntBignum a b = .ok (r, a.value / b.value) ∧ r.Valid ∧ r.value = a.value % b.value := by
  intro h
  obtain ⟨b, hb, hu, hexp⟩ := reachable_longest
  have hpos : 0 < b.value := Nat.pos_of_ne_zero (mt (value_eq_zero hb.valid).1 hu)
  obtain ⟨r, hrun, -⟩ := h empty b .new hb hpos
    (lt_of_le_of_lt (Nat.div_le_self _ _) (by decide)) (by rw [hexp]; decide)
  rw [divideModuloIntBignum, bigitLength_overflows hu hexp] at hrun
  cases hrun

end W16.Bignum
