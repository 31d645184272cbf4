import Mathlib
import W16.Positional

/-!
# Bignum

The arbitrary precision number of the conversions between doubles and strings: at most
128 bigits of 28 bits, and an exponent that stands for bigits that are zero and not
stored. Chunks are 32 bits wide and double chunks 64, and every operation on them is
written with its wrap-around. An operation stops with a fault when `EnsureCapacity`
refuses the size, or when an `int` of the source would leave its range.
-/
namespace W16

set_option linter.dupNamespace false

/-- `bigits i` for `i` below the capacity is the array, `used` is `used_digits_`. -/
structure Bignum where
  bigits : Nat → Nat
  used : Nat
  exponent : Nat

namespace Bignum

open Positional Function

inductive Fault where
  | capacity
  | overflow
  | unimplemented
  deriving DecidableEq, Repr

abbrev Checked := Except Fault

def kBigitSize : Nat := 28
def kBigitCapacity : Nat := 128

/-- The range of a bigit. `x & kBigitMask` is `x % radix`, `x >> kBigitSize` is `x / radix`. -/
abbrev radix : Nat := 2 ^ 28

/-- The constructor clears the whole array. -/
def empty : Bignum := ⟨fun _ => 0, 0, 0⟩

def ensureCapacity (size : Nat) : Checked Unit :=
  if size ≤ kBigitCapacity then .ok () else .error .capacity

/-- The result of an `int` operation. -/
def int (n : Nat) : Checked Nat :=
  if n < 2 ^ 31 then .ok n else .error .overflow

/-- Truncation to a `Chunk` and to a `DoubleChunk`. -/
def chunk (n : Nat) : Nat := n % 2 ^ 32
def doubleChunk (n : Nat) : Nat := n % 2 ^ 64

/-- `BigitLength` counts the hidden bigits. -/
def bigitLength (b : Bignum) : Checked Nat := int (b.used + b.exponent)

def isClamped (b : Bignum) : Bool := b.used = 0 || b.bigits (b.used - 1) ≠ 0

def clampUsed (bigits : Nat → Nat) : Nat → Nat
  | 0 => 0
  | n + 1 => if bigits n = 0 then clampUsed bigits n else n + 1

def clamp (b : Bignum) : Bignum :=
  let used := clampUsed b.bigits b.used
  ⟨b.bigits, used, if used = 0 then 0 else b.exponent⟩

/-- Only the bigits in use are cleared. -/
def zero (b : Bignum) : Bignum := ⟨fun i => if i < b.used then 0 else b.bigits i, 0, 0⟩

/-- Replace hidden bigits of `a` by stored ones until its exponent is at most `other`'s. -/
def align (a other : Bignum) : Checked Bignum :=
  if a.exponent > other.exponent then do
    let zeroDigits := a.exponent - other.exponent
    let size ← int (a.used + zeroDigits)
    ensureCapacity size
    -- the first loop moves the bigits up, the second clears the places below
    let bigits := fun i =>
      if i < zeroDigits then 0
      else if i < a.used + zeroDigits then a.bigits (i - zeroDigits) else a.bigits i
    return ⟨bigits, size, a.exponent - zeroDigits⟩
  else return a

/-! ## Assignment -/

def assignUInt16 (b : Bignum) (value : Nat) : Checked Bignum :=
  let b := zero b
  if value = 0 then return b else do
    ensureCapacity 1
    return ⟨update b.bigits 0 value, 1, 0⟩

/-- The first `n` rounds of the loop of `AssignUInt64`: the bigits and the rest of the value. -/
def splitLoop (bigits : Nat → Nat) (value : Nat) : Nat → (Nat → Nat) × Nat
  | 0 => (bigits, value)
  | i + 1 =>
    let (bs, value) := splitLoop bigits value i
    (update bs i (chunk (value % radix)), value / radix)

def assignUInt64 (b : Bignum) (value : Nat) : Checked Bignum :=
  let b := zero b
  if value = 0 then return b else do
    let needed := 64 / kBigitSize + 1
    ensureCapacity needed
    return clamp ⟨(splitLoop b.bigits value needed).1, needed, 0⟩

/-- Copies the bigits in use and clears those only `b` used. -/
def assignBignum (b other : Bignum) : Bignum :=
  let bigits := fun i =>
    if i < other.used then other.bigits i else if i < b.used then 0 else b.bigits i
  ⟨bigits, other.used, other.exponent⟩

/-! ## Addition and subtraction -/

/-- The first `n` rounds of the loop of `AddBignum`: the bigits and the carry. -/
def addLoop (bigits other : Nat → Nat) (pos : Nat) : Nat → (Nat → Nat) × Nat
  | 0 => (bigits, 0)
  | i + 1 =>
    let (bs, carry) := addLoop bigits other pos i
    let sum := chunk (bs (pos + i) + other i + carry)
    (update bs (pos + i) (sum % radix), sum / radix)

/-- `while (carry != 0)`: the bigits and the final position. -/
def addCarry : Nat → (Nat → Nat) → Nat → Nat → (Nat → Nat) × Nat
  | 0, bs, pos, _ => (bs, pos)
  | fuel + 1, bs, pos, carry =>
    if carry = 0 then (bs, pos) else
      let sum := chunk (bs pos + carry)
      addCarry fuel (update bs pos (sum % radix)) (pos + 1) (sum / radix)

def addBignum (a other : Bignum) : Checked Bignum := do
  let a ← align a other
  let lengthA ← bigitLength a
  let lengthOther ← bigitLength other
  let top ← int (1 + max lengthA lengthOther)
  ensureCapacity (top - a.exponent)
  let pos := other.exponent - a.exponent
  let (bs, carry) := addLoop a.bigits other.bigits pos other.used
  -- no carry can run past the capacity just ensured
  let (bs, pos) := addCarry kBigitCapacity bs (pos + other.used) carry
  return ⟨bs, max pos a.used, a.exponent⟩

def addUInt64 (b : Bignum) (operand : Nat) : Checked Bignum :=
  if operand = 0 then return b else do
    let other ← assignUInt64 empty operand
    addBignum b other

/-- `x - y - borrow` on chunks. -/
def chunkSub (x y borrow : Nat) : Nat := chunk (x + 2 ^ 32 - y % 2 ^ 32 + 2 ^ 32 - borrow)

def subtractLoop (bigits other : Nat → Nat) (offset : Nat) : Nat → (Nat → Nat) × Nat
  | 0 => (bigits, 0)
  | i + 1 =>
    let (bs, borrow) := subtractLoop bigits other offset i
    let difference := chunkSub (bs (i + offset)) (other i) borrow
    (update bs (i + offset) (difference % radix), difference / 2 ^ 31)

/-- `while (borrow != 0)`. -/
def subtractBorrow : Nat → (Nat → Nat) → Nat → Nat → Nat → Nat
  | 0, bs, _, _ => bs
  | fuel + 1, bs, pos, borrow =>
    if borrow = 0 then bs else
      let difference := chunkSub (bs pos) 0 borrow
      subtractBorrow fuel (update bs pos (difference % radix)) (pos + 1) (difference / 2 ^ 31)

/-- Precondition: `other` is at most `a`. -/
def subtractBignum (a other : Bignum) : Checked Bignum := do
  let a ← align a other
  let offset := other.exponent - a.exponent
  let (bs, borrow) := subtractLoop a.bigits other.bigits offset other.used
  return clamp ⟨subtractBorrow kBigitCapacity bs (other.used + offset) borrow, a.used, a.exponent⟩

/-! ## Shifts and products -/

/-- The first `n` rounds of the loop of `BigitsShiftLeft`. The 32-bit shift drops high bits,
which the mask would drop anyway. -/
def shiftLoop (bigits : Nat → Nat) (shift : Nat) : Nat → (Nat → Nat) × Nat
  | 0 => (bigits, 0)
  | i + 1 =>
    let (bs, carry) := shiftLoop bigits shift i
    (update bs i (chunk (chunk (bs i * 2 ^ shift) + carry) % radix), bs i / 2 ^ (kBigitSize - shift))

def bigitsShiftLeft (b : Bignum) (shift : Nat) : Bignum :=
  let (bs, carry) := shiftLoop b.bigits shift b.used
  if carry = 0 then ⟨bs, b.used, b.exponent⟩
  else ⟨update bs b.used carry, b.used + 1, b.exponent⟩

def shiftLeft (b : Bignum) (shiftAmount : Nat) : Checked Bignum :=
  if b.used = 0 then return b else do
    let exponent ← int (b.exponent + shiftAmount / kBigitSize)
    ensureCapacity (b.used + 1)
    return bigitsShiftLeft ⟨b.bigits, b.used, exponent⟩ (shiftAmount % kBigitSize)

/-- `while (carry != 0)` of both products: append the carry bigit by bigit. -/
def appendCarry : Nat → Bignum → Nat → Checked Bignum
  | 0, b, _ => return b
  | fuel + 1, b, carry =>
    if carry = 0 then return b else do
      ensureCapacity (b.used + 1)
      appendCarry fuel ⟨update b.bigits b.used (chunk (carry % radix)), b.used + 1, b.exponent⟩ (carry / radix)

def multiplyLoop32 (bigits : Nat → Nat) (factor : Nat) : Nat → (Nat → Nat) × Nat
  | 0 => (bigits, 0)
  | i + 1 =>
    let (bs, carry) := multiplyLoop32 bigits factor i
    let product := doubleChunk (factor * bs i + carry)
    (update bs i (chunk (product % radix)), product / radix)

def multiplyByUInt32 (b : Bignum) (factor : Nat) : Checked Bignum :=
  if factor = 1 then return b
  else if factor = 0 then return zero b
  else if b.used = 0 then return b
  else
    let (bs, carry) := multiplyLoop32 b.bigits factor b.used
    appendCarry carry ⟨bs, b.used, b.exponent⟩ carry

/-- The factor is split into two halves of 32 bits, whose products with a bigit fit. -/
def multiplyLoop64 (bigits : Nat → Nat) (factor : Nat) : Nat → (Nat → Nat) × Nat
  | 0 => (bigits, 0)
  | i + 1 =>
    let (bs, carry) := multiplyLoop64 bigits factor i
    let productLow := doubleChunk (factor % 2 ^ 32 * bs i)
    let productHigh := doubleChunk (factor / 2 ^ 32 * bs i)
    let tmp := doubleChunk (carry % radix + productLow)
    (update bs i (chunk (tmp % radix)),
      doubleChunk (carry / radix + tmp / radix + doubleChunk (productHigh * 2 ^ (32 - kBigitSize))))

def multiplyByUInt64 (b : Bignum) (factor : Nat) : Checked Bignum :=
  if factor = 1 then return b
  else if factor = 0 then return zero b
  else
    let (bs, carry) := multiplyLoop64 b.bigits factor b.used
    appendCarry carry ⟨bs, b.used, b.exponent⟩ carry

def times10 (b : Bignum) : Checked Bignum := multiplyByUInt32 b 10

def kFive27 : Nat := 0x6765c793fa10079d
def kFive13 : Nat := 1220703125
def kFive1To12 : List Nat :=
  [5, 25, 125, 625, 3125, 15625, 78125, 390625, 1953125, 9765625, 48828125, 244140625]

/-- `while (remaining_exponent >= 27)`. -/
def multiplyFive27 : Nat → Bignum → Nat → Checked (Bignum × Nat)
  | 0, b, remaining => return (b, remaining)
  | fuel + 1, b, remaining =>
    if remaining ≥ 27 then do
      let b ← multiplyByUInt64 b kFive27
      multiplyFive27 fuel b (remaining - 27)
    else return (b, remaining)

/-- `while (remaining_exponent >= 13)`. -/
def multiplyFive13 : Nat → Bignum → Nat → Checked (Bignum × Nat)
  | 0, b, remaining => return (b, remaining)
  | fuel + 1, b, remaining =>
    if remaining ≥ 13 then do
      let b ← multiplyByUInt32 b kFive13
      multiplyFive13 fuel b (remaining - 13)
    else return (b, remaining)

def multiplyByPowerOfTen (b : Bignum) (exponent : Nat) : Checked Bignum :=
  if exponent = 0 then return b
  else if b.used = 0 then return b
  else do
    let (b, remaining) ← multiplyFive27 exponent b exponent
    let (b, remaining) ← multiplyFive13 remaining b remaining
    let b ← (if remaining > 0 then multiplyByUInt32 b (kFive1To12.getD (remaining - 1) 0)
      else pure b)
    shiftLeft b exponent

/-! ## Strings -/

/-- `buffer[i] - '0'`. -/
def digit (c : Char) : Nat := c.toNat - '0'.toNat

/-- `ReadUInt64` of the characters from `from` to `from + count`. -/
def readUInt64 (buffer : List Char) (start count : Nat) : Nat :=
  ((buffer.drop start).take count).foldl (fun result c => doubleChunk (result * 10 + digit c)) 0

def kMaxUint64DecimalDigits : Nat := 19

/-- `while (length >= kMaxUint64DecimalDigits)`: the number, the position and the length left. -/
def decimalLoop (value : List Char) : Nat → Bignum → Nat → Nat → Checked (Bignum × Nat × Nat)
  | 0, b, pos, length => return (b, pos, length)
  | fuel + 1, b, pos, length =>
    if length ≥ kMaxUint64DecimalDigits then do
      let digits := readUInt64 value pos kMaxUint64DecimalDigits
      let b ← multiplyByPowerOfTen b kMaxUint64DecimalDigits
      let b ← addUInt64 b digits
      decimalLoop value fuel b (pos + kMaxUint64DecimalDigits) (length - kMaxUint64DecimalDigits)
    else return (b, pos, length)

def assignDecimalString (b : Bignum) (value : List Char) : Checked Bignum := do
  let (b, pos, length) ← decimalLoop value value.length (zero b) 0 value.length
  let digits := readUInt64 value pos length
  let b ← multiplyByPowerOfTen b length
  let b ← addUInt64 b digits
  return clamp b

def hexCharValue (c : Char) : Nat :=
  if '0' ≤ c ∧ c ≤ '9' then c.toNat - '0'.toNat
  else if 'a' ≤ c ∧ c ≤ 'f' then 10 + c.toNat - 'a'.toNat
  else if 'A' ≤ c ∧ c ≤ 'F' then 10 + c.toNat - 'A'.toNat
  else 0

/-- The bigit made of the `count` characters that end at `last`. -/
def hexBigit (value : List Char) (last : Nat) : Nat → Nat
  | 0 => 0
  | j + 1 => chunk (hexBigit value last j + hexCharValue (value.getD (last - j) '0') * 2 ^ (j * 4))

/-- The full bigits of a hexadecimal string, from its end. -/
def hexLoop (bigits : Nat → Nat) (value : List Char) : Nat → Nat → Nat
  | 0 => bigits
  | i + 1 => update (hexLoop bigits value i) i
      (hexBigit value (value.length - 1 - i * (kBigitSize / 4)) (kBigitSize / 4))

def assignHexString (b : Bignum) (value : List Char) : Checked Bignum := do
  let b := zero b
  let bits ← int (value.length * 4)
  let needed := bits / kBigitSize + 1
  ensureCapacity needed
  let bs := hexLoop b.bigits value (needed - 1)
  let rest := value.length - (needed - 1) * (kBigitSize / 4)
  let mostSignificant := (value.take rest).foldl
    (fun bigit c => chunk (chunk (bigit * 2 ^ 4) + hexCharValue c)) 0
  if mostSignificant = 0 then return clamp ⟨bs, needed - 1, 0⟩
  else return clamp ⟨update bs (needed - 1) mostSignificant, needed, 0⟩

/-! ## Squares and powers -/

/-- `count` products of a column of the Comba multiplication, the indices moving apart. -/
def column (bigits : Nat → Nat) (offset index1 index2 accumulator : Nat) : Nat → Nat
  | 0 => accumulator
  | k + 1 => doubleChunk (column bigits offset index1 index2 accumulator k +
      bigits (offset + (index1 - k)) * bigits (offset + (index2 + k)))

/-- The columns below `used`. -/
def squareLow (bigits : Nat → Nat) (offset : Nat) : Nat → (Nat → Nat) × Nat
  | 0 => (bigits, 0)
  | i + 1 =>
    let (bs, accumulator) := squareLow bigits offset i
    let accumulator := column bs offset i 0 accumulator (i + 1)
    (update bs i (chunk accumulator % radix), accumulator / radix)

/-- The columns from `used` on, which overwrite copied bigits that are no longer read. -/
def squareHigh (used : Nat) (start : (Nat → Nat) × Nat) : Nat → (Nat → Nat) × Nat
  | 0 => start
  | k + 1 =>
    let (bs, accumulator) := squareHigh used start k
    let index1 := used - 1
    let index2 := used + k - index1
    let accumulator := column bs used index1 index2 accumulator (used - index2)
    (update bs (used + k) (chunk accumulator % radix), accumulator / radix)

def square (b : Bignum) : Checked Bignum := do
  let productLength := 2 * b.used
  ensureCapacity productLength
  if 2 ^ (2 * (32 - kBigitSize)) ≤ b.used then .error .unimplemented else
  let copied := fun i =>
    if b.used ≤ i ∧ i < b.used + b.used then b.bigits (i - b.used) else b.bigits i
  let (bs, _) := squareHigh b.used (squareLow copied b.used b.used) b.used
  let exponent ← int (b.exponent * 2)
  return clamp ⟨bs, productLength, exponent⟩

/-- `while ((base & 1) == 0)`: the odd part of a nonzero 16-bit base and the shifts. -/
def stripTwos : Nat → Nat → Nat → Nat × Nat
  | 0, base, shifts => (base, shifts)
  | fuel + 1, base, shifts =>
    if base % 2 = 0 then stripTwos fuel (base / 2) (shifts + 1) else (base, shifts)

def bitSize : Nat → Nat → Nat
  | 0, _ => 0
  | fuel + 1, base => if base = 0 then 0 else bitSize fuel (base / 2) + 1

/-- `while (power_exponent >= mask) mask <<= 1`. -/
def maskLoop (powerExponent : Nat) : Nat → Nat → Checked Nat
  | 0, mask => return mask
  | fuel + 1, mask =>
    if powerExponent ≥ mask then do
      let mask ← int (mask * 2)
      maskLoop powerExponent fuel mask
    else return mask

/-- The left to right exponentiation as long as the value fits 64 bits: what is left of the
mask, the value, and whether a multiplication by the base is still owed. -/
def smallPower (powerExponent base bits : Nat) : Nat → Nat → Nat → Bool → Nat × Nat × Bool
  | 0, mask, value, delayed => (mask, value, delayed)
  | fuel + 1, mask, value, delayed =>
    if mask ≠ 0 ∧ value ≤ 0xFFFFFFFF then
      let value := doubleChunk (value * value)
      if powerExponent &&& mask ≠ 0 then
        -- the high `bits` bits are zero
        if value / 2 ^ (64 - bits) = 0 then
          smallPower powerExponent base bits fuel (mask / 2) (doubleChunk (value * base)) delayed
        else smallPower powerExponent base bits fuel (mask / 2) value true
      else smallPower powerExponent base bits fuel (mask / 2) value delayed
    else (mask, value, delayed)

/-- The same on the Bignum. -/
def bignumPower (powerExponent base : Nat) : Nat → Nat → Bignum → Checked Bignum
  | 0, _, b => return b
  | fuel + 1, mask, b =>
    if mask ≠ 0 then do
      let b ← square b
      let b ← (if powerExponent &&& mask ≠ 0 then multiplyByUInt32 b base else pure b)
      bignumPower powerExponent base fuel (mask / 2) b
    else return b

/-- Precondition: the base is not zero. -/
def assignPowerUInt16 (b : Bignum) (base powerExponent : Nat) : Checked Bignum :=
  if powerExponent = 0 then assignUInt16 b 1 else do
    let b := zero b
    let (base, shifts) := stripTwos 16 base 0
    let bits := bitSize 16 base
    let finalSize ← int (bits * powerExponent)
    ensureCapacity (finalSize / kBigitSize + 2)
    let mask ← maskLoop powerExponent 31 1
    let (mask, value, delayed) := smallPower powerExponent base bits 31 (mask / 4) base false
    let b ← assignUInt64 b value
    let b ← (if delayed then multiplyByUInt32 b base else pure b)
    let b ← bignumPower powerExponent base 31 mask b
    let amount ← int (shifts * powerExponent)
    shiftLeft b amount

/-! ## Comparison and division -/

def bigitAt (b : Bignum) (index : Nat) : Nat :=
  if index ≥ b.used + b.exponent then 0
  else if index < b.exponent then 0
  else b.bigits (index - b.exponent)

/-- Compare the `count` bigits above `low`, from the top. -/
def compareLoop (a b : Bignum) (low : Nat) : Nat → Int
  | 0 => 0
  | n + 1 =>
    if bigitAt a (low + n) < bigitAt b (low + n) then -1
    else if bigitAt a (low + n) > bigitAt b (low + n) then 1
    else compareLoop a b low n

def compare (a b : Bignum) : Checked Int := do
  let lengthA ← bigitLength a
  let lengthB ← bigitLength b
  if lengthA < lengthB then return -1
  else if lengthA > lengthB then return 1
  else
    let low := min a.exponent b.exponent
    return compareLoop a b low (lengthA - low)

def equal (a b : Bignum) : Checked Bool := return (← compare a b) = 0
def lessEqual (a b : Bignum) : Checked Bool := return (← compare a b) ≤ 0
def less (a b : Bignum) : Checked Bool := return (← compare a b) < 0

/-- The `count` bigits above `low` of `a + b` against those of `c`, from the top. -/
def plusCompareLoop (a b c : Bignum) (low : Nat) : Nat → Nat → Int
  | 0, borrow => if borrow = 0 then 0 else -1
  | n + 1, borrow =>
    let sum := chunk (bigitAt a (low + n) + bigitAt b (low + n))
    let available := chunk (bigitAt c (low + n) + borrow)
    if sum > available then 1
    else if available - sum > 1 then -1
    else plusCompareLoop a b c low n (chunk ((available - sum) * radix))

/-- `PlusCompare` once `a` is not the shorter summand. -/
def plusCompareOrdered (a b c : Bignum) : Checked Int := do
  let lengthA ← bigitLength a
  let lengthB ← bigitLength b
  let lengthC ← bigitLength c
  let lengthA1 ← int (lengthA + 1)
  if lengthA1 < lengthC then return -1
  else if lengthA > lengthC then return 1
  else if a.exponent ≥ lengthB ∧ lengthA < lengthC then return -1
  else
    let low := min (min a.exponent b.exponent) c.exponent
    return plusCompareLoop a b c low (lengthC - low) 0

/-- Compare `a + b` with `c`. -/
def plusCompare (a b c : Bignum) : Checked Int := do
  let lengthA ← bigitLength a
  let lengthB ← bigitLength b
  if lengthA < lengthB then plusCompareOrdered b a c else plusCompareOrdered a b c

def plusEqual (a b c : Bignum) : Checked Bool := return (← plusCompare a b c) = 0
def plusLessEqual (a b c : Bignum) : Checked Bool := return (← plusCompare a b c) ≤ 0
def plusLess (a b c : Bignum) : Checked Bool := return (← plusCompare a b c) < 0

def subtractTimesLoop (bigits other : Nat → Nat) (factor offset : Nat) : Nat → (Nat → Nat) × Nat
  | 0 => (bigits, 0)
  | i + 1 =>
    let (bs, borrow) := subtractTimesLoop bigits other factor offset i
    let product := doubleChunk (factor * other i)
    let remove := doubleChunk (borrow + product)
    let difference := chunkSub (bs (i + offset)) (remove % radix) 0
    (update bs (i + offset) (difference % radix), chunk (difference / 2 ^ 31 + remove / radix))

/-- The second loop, which moves on by two bigits a round and leaves early without a clamp. -/
def subtractTimesBorrow : Nat → Bignum → Nat → Nat → Bignum
  | 0, b, _, _ => clamp b
  | fuel + 1, b, i, borrow =>
    if i < b.used then
      if borrow = 0 then b
      else
        let difference := chunkSub (b.bigits i) borrow 0
        subtractTimesBorrow fuel ⟨update b.bigits i (difference % radix), b.used, b.exponent⟩
          (i + 2) (difference / 2 ^ 31)
    else clamp b

/-- `count` times `SubtractBignum`. -/
def subtractRepeat (other : Bignum) : Nat → Bignum → Checked Bignum
  | 0, b => return b
  | n + 1, b => do
    let b ← subtractBignum b other
    subtractRepeat other n b

def subtractTimes (b other : Bignum) (factor : Nat) : Checked Bignum :=
  if factor < 3 then subtractRepeat other factor b
  else
    let offset := other.exponent - b.exponent
    let (bs, borrow) := subtractTimesLoop b.bigits other.bigits factor offset other.used
    return subtractTimesBorrow kBigitCapacity ⟨bs, b.used, b.exponent⟩ (other.used + offset) borrow

/-- `while (BigitLength() > other.BigitLength())`: at most as many rounds as the quotient. -/
def divideTop (other : Bignum) : Nat → Bignum → Nat → Checked (Bignum × Nat)
  | 0, b, result => return (b, result)
  | fuel + 1, b, result => do
    let length ← bigitLength b
    let lengthOther ← bigitLength other
    if length > lengthOther then
      let top := b.bigits (b.used - 1)
      let b ← subtractTimes b other top
      divideTop other fuel b ((result + top) % 2 ^ 16)
    else return (b, result)

/-- `while (LessEqual(other, *this))`. -/
def divideRest (other : Bignum) : Nat → Bignum → Nat → Checked (Bignum × Nat)
  | 0, b, result => return (b, result)
  | fuel + 1, b, result => do
    if ← lessEqual other b then
      let b ← subtractBignum b other
      divideRest other fuel b ((result + 1) % 2 ^ 16)
    else return (b, result)

/-- Precondition: the quotient fits 16 bits. The remainder and the quotient. -/
def divideModuloIntBignum (b other : Bignum) : Checked (Bignum × Nat) := do
  let length ← bigitLength b
  let lengthOther ← bigitLength other
  if length < lengthOther then return (b, 0)
  else
    let b ← align b other
    let (b, result) ← divideTop other (2 ^ 16) b 0
    let thisBigit := b.bigits (b.used - 1)
    let otherBigit := other.bigits (other.used - 1)
    if other.used = 1 then
      let quotient := thisBigit / otherBigit
      let rest := chunkSub thisBigit (otherBigit * quotient) 0
      return (clamp ⟨update b.bigits (b.used - 1) rest, b.used, b.exponent⟩, (result + quotient) % 2 ^ 16)
    else
      let estimate := thisBigit / chunk (otherBigit + 1)
      let b ← subtractTimes b other estimate
      let result := (result + estimate) % 2 ^ 16
      if chunk (otherBigit * (estimate + 1)) > thisBigit then return (b, result)
      else divideRest other (2 ^ 16) b result

end Bignum

end W16
