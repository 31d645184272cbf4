import W16.CheckedWords
import W16.Double

/-!
# Fixed-point digits of a double

`FastFixedDtoa` with checked machine words. A write to the buffer at an index from the capacity
on and a digit above nine are faults too. What a shift by `-1` gives, which C++ leaves undefined,
is a parameter of `FillFractionals`, where the binary point can be at bit 0.
-/
namespace W16.FixedDtoa

open W16.CheckedWords

/-! ## UInt128 -/

structure UInt128 where
  highBits : Nat
  lowBits : Nat
  deriving DecidableEq, Repr

namespace UInt128

def kMask32 : Nat := 0xFFFFFFFF

def multiply (x : UInt128) (multiplicand : Nat) : Checked UInt128 := do
  let accumulator ← mul (x.lowBits &&& kMask32) multiplicand
  let part := accumulator &&& kMask32
  let accumulator ← shr accumulator 32
  let product ← mul (← shr x.lowBits 32) multiplicand
  let accumulator ← add accumulator product
  let lowBits ← add (← shl accumulator 32) part
  let accumulator ← shr accumulator 32
  let product ← mul (x.highBits &&& kMask32) multiplicand
  let accumulator ← add accumulator product
  let part := accumulator &&& kMask32
  let accumulator ← shr accumulator 32
  let product ← mul (← shr x.highBits 32) multiplicand
  let accumulator ← add accumulator product
  let highBits ← add (← shl accumulator 32) part
  assert ((← shr accumulator 32) = 0)
  return ⟨highBits, lowBits⟩

def shift (x : UInt128) (amount : Int) : Checked UInt128 := do
  assert (-64 ≤ amount ∧ amount ≤ 64)
  if amount = 0 then return x
  else if amount = -64 then return ⟨x.lowBits, 0⟩
  else if amount = 64 then return ⟨0, x.highBits⟩
  else if amount ≤ 0 then
    let highBits ← shl x.highBits (-amount)
    let highBits ← add highBits (← shr x.lowBits (64 + amount))
    return ⟨highBits, ← shl x.lowBits (-amount)⟩
  else
    let lowBits ← shr x.lowBits amount
    let lowBits ← add lowBits (← shl x.highBits (64 - amount))
    return ⟨← shr x.highBits amount, lowBits⟩

/-- The remainder modulo the power of two, and the quotient, of which an `int` is kept. -/
def divModPowerOf2 (x : UInt128) (power : Int) : Checked (UInt128 × Nat) := do
  if 64 ≤ power then
    let result := (← shr x.highBits (power - 64)) % 2 ^ 32
    let highBits ← sub x.highBits (← shl result (power - 64))
    return (⟨highBits, x.lowBits⟩, result)
  else
    let partLow ← shr x.lowBits power
    let partHigh ← shl x.highBits (64 - power)
    let result := (← add partLow partHigh) % 2 ^ 32
    let lowBits ← sub x.lowBits (← shl partLow power)
    return (⟨0, lowBits⟩, result)

def isZero (x : UInt128) : Bool := x.highBits = 0 && x.lowBits = 0

def bitAt (x : UInt128) (position : Int) : Checked Nat := do
  if 64 ≤ position then return (← shr x.highBits (position - 64)) &&& 1
  else return (← shr x.lowBits position) &&& 1

end UInt128

/-! ## The buffer -/

structure Output where
  buffer : Nat → Nat
  length : Nat
  decimalPoint : Int

/-- The code of the character `0`. -/
def zero : Nat := 48

variable (capacity : Nat)

def put (o : Output) (index char : Nat) : Checked Output :=
  if index < capacity then .ok { o with buffer := Function.update o.buffer index char } else .error .index

def putDigit (o : Output) (index digit : Nat) : Checked Output :=
  if digit ≤ 9 then put capacity o index (zero + digit) else .error .digit

/-- The loop over the last `count` of the requested digits. -/
def fillDigits : Nat → Nat → Output → Checked Output
  | 0, _, o => .ok o
  | count + 1, number, o => do
    let o ← putDigit capacity o (o.length + count) (number % 10)
    fillDigits count (number / 10) o

def fillDigits32FixedLength (number requestedLength : Nat) (o : Output) : Checked Output := do
  let o ← fillDigits capacity requestedLength number o
  return { o with length := o.length + requestedLength }

/-- The digits in reverse order, and their number. -/
def reverseDigits : Nat → Nat → Nat → Output → Checked (Output × Nat)
  | 0, _, _, _ => .error .endless
  | fuel + 1, number, numberLength, o =>
    if number ≠ 0 then do
      let o ← putDigit capacity o (o.length + numberLength) (number % 10)
      reverseDigits fuel (number / 10) (numberLength + 1) o
    else .ok (o, numberLength)

/-- The exchange of the digits between `i` and `j`. -/
def exchange : Nat → Nat → Nat → Output → Checked Output
  | 0, _, _, _ => .error .endless
  | fuel + 1, i, j, o =>
    if i < j then do
      let tmp := o.buffer i
      let o ← put capacity o i (o.buffer j)
      let o ← put capacity o j tmp
      exchange fuel (i + 1) (j - 1) o
    else .ok o

/-- A 32-bit number has at most ten digits. -/
def fillDigits32 (number : Nat) (o : Output) : Checked Output := do
  let (o, numberLength) ← reverseDigits capacity 11 number 0 o
  let o ← exchange capacity 11 o.length (o.length + numberLength - 1) o
  return { o with length := o.length + numberLength }

def kTen7 : Nat := 10000000

/-- The requested length is not used: there are 17 digits. -/
def fillDigits64FixedLength (number _requestedLength : Nat) (o : Output) : Checked Output := do
  let part2 := number % kTen7 % 2 ^ 32
  let number := number / kTen7
  let part1 := number % kTen7 % 2 ^ 32
  let part0 := number / kTen7 % 2 ^ 32
  let o ← fillDigits32FixedLength capacity part0 3 o
  let o ← fillDigits32FixedLength capacity part1 7 o
  fillDigits32FixedLength capacity part2 7 o

def fillDigits64 (number : Nat) (o : Output) : Checked Output := do
  let part2 := number % kTen7 % 2 ^ 32
  let number := number / kTen7
  let part1 := number % kTen7 % 2 ^ 32
  let part0 := number / kTen7 % 2 ^ 32
  if part0 ≠ 0 then
    let o ← fillDigits32 capacity part0 o
    let o ← fillDigits32FixedLength capacity part1 7 o
    fillDigits32FixedLength capacity part2 7 o
  else if part1 ≠ 0 then
    let o ← fillDigits32 capacity part1 o
    fillDigits32FixedLength capacity part2 7 o
  else fillDigits32 capacity part2 o

/-- The loop of `RoundUp` from the digit at `i` down, and what follows it. -/
def carry : Nat → Output → Checked Output
  | 0, o =>
    if o.buffer 0 = zero + 10 then do
      let o ← put capacity o 0 (zero + 1)
      return { o with decimalPoint := o.decimalPoint + 1 }
    else .ok o
  | i + 1, o =>
    if o.buffer (i + 1) ≠ zero + 10 then .ok o
    else do
      let o ← put capacity o (i + 1) zero
      let o ← put capacity o i (o.buffer i + 1)
      carry i o

def roundUp (o : Output) : Checked Output :=
  match o.length with
  | 0 => do
    let o ← put capacity o 0 (zero + 1)
    return { o with decimalPoint := 1, length := 1 }
  | last + 1 => do
    let o ← put capacity o last (o.buffer last + 1)
    carry capacity last o

/-! ## FillFractionals -/

/-- The loop over 64 bits. -/
def fractionalDigits : Nat → Nat → Int → Output → Checked (Nat × Int × Output)
  | 0, fractionals, point, o => .ok (fractionals, point, o)
  | count + 1, fractionals, point, o =>
    if fractionals = 0 then .ok (fractionals, point, o)
    else do
      let fractionals ← mul fractionals 5
      let point := point - 1
      let digit := (← shr fractionals point) % 2 ^ 32
      let o ← putDigit capacity o o.length digit
      let o := { o with length := o.length + 1 }
      let fractionals ← sub fractionals (← shl digit point)
      fractionalDigits count fractionals point o

/-- The loop over 128 bits. -/
def fractionalDigits128 : Nat → UInt128 → Int → Output → Checked (UInt128 × Int × Output)
  | 0, fractionals, point, o => .ok (fractionals, point, o)
  | count + 1, fractionals, point, o =>
    if fractionals.isZero then .ok (fractionals, point, o)
    else do
      let fractionals ← fractionals.multiply 5
      let point := point - 1
      let (fractionals, digit) ← fractionals.divModPowerOf2 point
      let o ← putDigit capacity o o.length digit
      let o := { o with length := o.length + 1 }
      fractionalDigits128 count fractionals point o

/-- The shift of the remaining number to the first bit after the point. `shiftBack` is the shift
by `-1`. -/
def shiftToPoint (shiftBack : Nat → Checked Nat) (fractionals : Nat) (point : Int) : Checked Nat :=
  if point - 1 = -1 then shiftBack fractionals else shr fractionals (point - 1)

def fillFractionals (shiftBack : Nat → Checked Nat) (fractionals : Nat) (exponent : Int)
    (fractionalCount : Nat) (o : Output) : Checked Output := do
  assert (-128 ≤ exponent ∧ exponent ≤ 0)
  if -exponent ≤ 64 then
    assert ((← shr fractionals 56) = 0)
    let (fractionals, point, o) ← fractionalDigits capacity fractionalCount fractionals (-exponent) o
    if (← shiftToPoint shiftBack fractionals point) &&& 1 = 1 then roundUp capacity o else .ok o
  else
    assert (64 < -exponent ∧ -exponent ≤ 128)
    let fractionals ← UInt128.shift ⟨fractionals, 0⟩ (-exponent - 64)
    let (fractionals, point, o) ← fractionalDigits128 capacity fractionalCount fractionals 128 o
    if (← fractionals.bitAt (point - 1)) = 1 then roundUp capacity o else .ok o

/-! ## FastFixedDtoa -/

/-- Without the zeros at the end. -/
def trimmedLength (buffer : Nat → Nat) : Nat → Nat
  | 0 => 0
  | length + 1 => if buffer length = zero then trimmedLength buffer length else length + 1

/-- The first of the remaining digits that is not zero. -/
def firstNonZero (buffer : Nat → Nat) : Nat → Nat → Nat
  | 0, i => i
  | remaining + 1, i => if buffer i = zero then firstNonZero buffer remaining (i + 1) else i

/-- The digits from `i` on, `shift` to the left. -/
def moveDigits (shift : Nat) : Nat → Nat → Output → Checked Output
  | 0, _, o => .ok o
  | remaining + 1, i, o => do
    let o ← put capacity o (i - shift) (o.buffer i)
    moveDigits shift remaining (i + 1) o

def trimZeros (o : Output) : Checked Output := do
  let o := { o with length := trimmedLength o.buffer o.length }
  let first := firstNonZero o.buffer o.length 0
  if first ≠ 0 then
    let o ← moveDigits capacity first (o.length - first) first o
    return { o with length := o.length - first, decimalPoint := o.decimalPoint - first }
  else return o

def kDoubleSignificandSize : Int := 53
def kMaxUInt32 : Nat := 0xFFFFFFFF
def kFive17 : Nat := 0xB1A2BC2EC5
def divisorPower : Int := 17

/-- The first digits and the remainder of a division by `10^17`. -/
def divideByTen17 (significand : Nat) (exponent : Int) : Checked (Nat × Nat) := do
  if exponent > divisorPower then
    let dividend ← shl significand (exponent - divisorPower)
    return (dividend / kFive17 % 2 ^ 32, ← shl (dividend % kFive17) divisorPower)
  else
    let divisor ← shl kFive17 (divisorPower - exponent)
    return (significand / divisor % 2 ^ 32, ← shl (significand % divisor) exponent)

def fillIntegrals (integrals : Nat) (o : Output) : Checked Output :=
  if integrals > kMaxUInt32 then fillDigits64 capacity integrals o
  else fillDigits32 capacity (integrals % 2 ^ 32) o

/-- The digits before they are trimmed. -/
def fill (shiftBack : Nat → Checked Nat) (significand : Nat) (exponent : Int) (fractionalCount : Nat)
    (o : Output) : Checked Output := do
  if exponent + kDoubleSignificandSize > 64 then
    let (quotient, remainder) ← divideByTen17 significand exponent
    let o ← fillDigits32 capacity quotient o
    let o ← fillDigits64FixedLength capacity remainder 17 o
    return { o with decimalPoint := o.length }
  else if exponent ≥ 0 then
    let o ← fillDigits64 capacity (← shl significand exponent) o
    return { o with decimalPoint := o.length }
  else if exponent > -kDoubleSignificandSize then
    let integrals ← shr significand (-exponent)
    let fractionals ← sub significand (← shl integrals (-exponent))
    let o ← fillIntegrals capacity integrals o
    fillFractionals capacity shiftBack fractionals exponent fractionalCount { o with decimalPoint := o.length }
  else if exponent < -128 then
    assert (fractionalCount ≤ 20)
    let o ← put capacity o 0 0
    return { o with length := 0, decimalPoint := -fractionalCount }
  else
    fillFractionals capacity shiftBack significand exponent fractionalCount { o with decimalPoint := 0 }

/-- There is no output where the digits cannot be generated. -/
def fastFixedDtoa (shiftBack : Nat → Checked Nat) (v : Double) (fractionalCount : Nat) (o : Output) :
    Checked (Option Output) := do
  let significand := v.significand
  let exponent := v.exponent
  if exponent > 20 then return none
  else if fractionalCount > 20 then return none
  else
    let o ← fill capacity shiftBack significand exponent fractionalCount { o with length := 0 }
    let o ← trimZeros capacity o
    let o ← put capacity o o.length 0
    if o.length = 0 then return some { o with decimalPoint := -fractionalCount }
    else return some o

end W16.FixedDtoa
