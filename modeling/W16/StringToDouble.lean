import W16.JsonNumbers
import Mathlib.Data.List.TakeWhile

/-!
# Strings to doubles

`StringToDouble` without flags, for the doubles of any arithmetic. The algorithms for numbers that
need more than the arithmetic of doubles are a parameter.
-/
namespace W16.StringNumbers

open List

set_option linter.dupNamespace false

/-- The doubles of a target. `stack` says that the target computes with more than 64 bits, and
`slowStrtod` stands for `DiyFpStrtod` and `BignumStrtod`. -/
structure Target (D : Type) where
  ofInt : Int → D
  mul : D → D → D
  div : D → D → D
  neg : D → D
  zero : D
  infinity : D
  nan : D
  stack : Bool
  slowStrtod : List Nat → Int → D

/-- Arithmetic is exact where integers of 53 bits are the result, and so is the slow way. -/
structure Target.Lawful {D : Type} (target : Target D) : Prop where
  mul_ofInt : ∀ a b : Nat, a * b < 2 ^ 53 →
    target.mul (target.ofInt a) (target.ofInt b) = target.ofInt ((a * b : Nat) : Int)
  neg_ofInt : ∀ a : Nat, 0 < a → a < 2 ^ 53 → target.neg (target.ofInt a) = target.ofInt (-a)
  slowStrtod_ofInt : target.stack = true → ∀ (digits : List Nat) (k : Nat),
    (∀ c ∈ digits, 48 ≤ c ∧ c ≤ 57) → JsonParsing.decimalValue 0 digits * 10 ^ k < 2 ^ 53 →
    target.slowStrtod digits k = target.ofInt ((JsonParsing.decimalValue 0 digits * 10 ^ k : Nat) : Int)

variable {D : Type} (target : Target D)

/-! ## Strtod -/

def kMaxUint64 : Nat := 2 ^ 64 - 1
def kMaxSignificantDecimalDigits : Nat := 780
def kMaxDecimalPower : Int := 309
def kMinDecimalPower : Int := -324
def kExactPowersOfTenSize : Int := 23
def kMaxExactDoubleIntegerDecimalDigits : Nat := 15

def exactPowersOfTen (exponent : Int) : D := target.ofInt ((10 ^ exponent.toNat : Nat) : Int)

def trimLeadingZeros (buffer : List Nat) : List Nat := buffer.dropWhile (· = 48)

def trimTrailingZeros (buffer : List Nat) : List Nat := (buffer.reverse.dropWhile (· = 48)).reverse

def readUint64Loop : Nat → List Nat → Nat
  | result, [] => result
  | result, c :: cs =>
    if result ≤ kMaxUint64 / 10 - 1 then readUint64Loop (10 * result + (c - 48)) cs else result

def readUint64 (buffer : List Nat) : Nat := readUint64Loop 0 buffer

def doubleStrtod (trimmed : List Nat) (exponent : Int) : Option D :=
  if target.stack then none
  else if trimmed.length ≤ kMaxExactDoubleIntegerDecimalDigits then
    let remainingDigits : Int := kMaxExactDoubleIntegerDecimalDigits - trimmed.length
    if exponent < 0 ∧ -exponent < kExactPowersOfTenSize then
      some (target.div (target.ofInt (readUint64 trimmed)) (exactPowersOfTen target (-exponent)))
    else if 0 ≤ exponent ∧ exponent < kExactPowersOfTenSize then
      some (target.mul (target.ofInt (readUint64 trimmed)) (exactPowersOfTen target exponent))
    else if 0 ≤ exponent ∧ exponent - remainingDigits < kExactPowersOfTenSize then
      some (target.mul
        (target.mul (target.ofInt (readUint64 trimmed)) (exactPowersOfTen target remainingDigits))
        (exactPowersOfTen target (exponent - remainingDigits)))
    else none
  else none

/-- `Strtod` on trimmed digits. -/
def strtodTrimmed (trimmed : List Nat) (exponent : Int) : D :=
  if exponent + trimmed.length - 1 ≥ kMaxDecimalPower then target.infinity
  else if exponent + trimmed.length ≤ kMinDecimalPower then target.zero
  else
    match doubleStrtod target trimmed exponent with
    | some guess => guess
    | none => target.slowStrtod trimmed exponent

def strtod (buffer : List Nat) (exponent : Int) : D :=
  let leftTrimmed := trimLeadingZeros buffer
  let trimmed := trimTrailingZeros leftTrimmed
  let exponent := exponent + leftTrimmed.length - trimmed.length
  if trimmed.length = 0 then target.zero
  else if trimmed.length > kMaxSignificantDecimalDigits then
    -- The last digit that is kept is no zero, so nothing is trimmed again.
    strtodTrimmed target (trimmed.take (kMaxSignificantDecimalDigits - 1) ++ [49])
      (exponent + (trimmed.length - kMaxSignificantDecimalDigits))
  else strtodTrimmed target trimmed exponent

/-! ## StringToDouble -/

def kMaxSignificantDigits : Nat := 772
def maxExponent : Int := (2 ^ 31 - 1) / 2

def isWhiteSpace (c : Nat) : Bool :=
  9 ≤ c ∧ c ≤ 13 ∨ c = 32 ∨ c = 133 ∨ c = 160 ∨ c = 5760 ∨ c = 6158 ∨ 0x2000 ≤ c ∧ c ≤ 0x200a ∨
    0x2028 ≤ c ∧ c ≤ 0x2029 ∨ c = 0x202f ∨ c = 0x205f ∨ c = 0x3000

def isDigit (c : Nat) : Bool := 48 ≤ c ∧ c ≤ 57

def advanceToNonspace (current : List Nat) : List Nat := current.dropWhile isWhiteSpace

/-- The digits that are kept, and what is known of those that are dropped. -/
structure Significant where
  buffer : List Nat
  exponent : Int
  insignificantDigits : Int
  nonzeroDigitDropped : Bool

def signedZero (negative : Bool) : D := if negative then target.neg target.zero else target.zero

def parsingDone (negative : Bool) (digits : Significant) : D :=
  let exponent := digits.exponent + digits.insignificantDigits
  let converted :=
    if digits.nonzeroDigitDropped then strtod target (digits.buffer ++ [49]) (exponent - 1)
    else strtod target digits.buffer exponent
  if negative then target.neg converted else converted

/-- The digits of the integer part, up to the first other character. -/
def integerDigits : List Nat → Significant → Significant × List Nat
  | [], digits => (digits, [])
  | c :: cs, digits =>
    if isDigit c then
      if digits.buffer.length < kMaxSignificantDigits then
        integerDigits cs { digits with buffer := digits.buffer ++ [c] }
      else
        integerDigits cs { digits with
          insignificantDigits := digits.insignificantDigits + 1
          nonzeroDigitDropped := digits.nonzeroDigitDropped || c ≠ 48 }
    else (digits, c :: cs)

def fractionDigits : List Nat → Significant → Significant × List Nat
  | [], digits => (digits, [])
  | c :: cs, digits =>
    if isDigit c then
      if digits.buffer.length < kMaxSignificantDigits then
        fractionDigits cs { digits with buffer := digits.buffer ++ [c], exponent := digits.exponent - 1 }
      else
        fractionDigits cs { digits with nonzeroDigitDropped := digits.nonzeroDigitDropped || c ≠ 48 }
    else (digits, c :: cs)

/-- Zeros between the point and the first significant digit. -/
def fractionZeros : List Nat → Int → Int × List Nat
  | [], exponent => (exponent, [])
  | c :: cs, exponent => if c = 48 then fractionZeros cs (exponent - 1) else (exponent, c :: cs)

def exponentDigits : List Nat → Int → Int × List Nat
  | [], num => (num, [])
  | c :: cs, num =>
    if isDigit c then
      let digit : Int := c - 48
      exponentDigits cs
        (if num ≥ maxExponent / 10 ∧ ¬(num = maxExponent / 10 ∧ digit ≤ maxExponent % 10) then maxExponent
        else num * 10 + digit)
    else (num, c :: cs)

/-- After the exponent nothing but white space is allowed. -/
def trailing (negative : Bool) (digits : Significant) (current : List Nat) : D :=
  if advanceToNonspace current ≠ [] then target.nan else parsingDone target negative digits

/-- The exponent, from its digits on. -/
def exponentPart (negative minus : Bool) (digits : Significant) (current : List Nat) : D :=
  match current with
  | [] => target.nan
  | c :: cs =>
    if isDigit c then
      let (num, current) := exponentDigits (c :: cs) 0
      trailing target negative
        { digits with exponent := digits.exponent + (if minus then -num else num) } current
    else target.nan

/-- The part after the digits. -/
def afterDigits (negative leadingZero : Bool) (digits : Significant) (current : List Nat) : D :=
  if !leadingZero && digits.exponent = 0 && digits.buffer.length = 0 then target.nan
  else
    match current with
    | [] => parsingDone target negative digits
    | c :: cs =>
      if c = 101 ∨ c = 69 then
        match cs with
        | [] => target.nan
        | sign :: rest =>
          if sign = 43 then exponentPart target negative false digits rest
          else if sign = 45 then exponentPart target negative true digits rest
          else exponentPart target negative false digits (sign :: rest)
      else trailing target negative digits (c :: cs)

/-- The part after a point. -/
def afterPoint (negative leadingZero : Bool) (digits : Significant) (current : List Nat) : D :=
  if current = [] then
    if digits.buffer.length = 0 ∧ leadingZero = false then target.nan
    else parsingDone target negative digits
  else
    let (exponent, current) :=
      if digits.buffer.length = 0 then fractionZeros current digits.exponent
      else (digits.exponent, current)
    if current = [] then signedZero target negative
    else
      let (digits, current) := fractionDigits current { digits with exponent := exponent }
      if current = [] then parsingDone target negative digits
      else afterDigits target negative leadingZero digits current

/-- The part after the zeros in front. -/
def afterZeros (negative leadingZero : Bool) (current : List Nat) : D :=
  match integerDigits current ⟨[], 0, 0, false⟩ with
  | (digits, []) => parsingDone target negative digits
  | (digits, c :: cs) =>
    if c = 46 then afterPoint target negative leadingZero digits cs
    else afterDigits target negative leadingZero digits (c :: cs)

/-- `Infinity` -/
def kInfinitySymbol : List Nat := [73, 110, 102, 105, 110, 105, 116, 121]

/-- The part after the sign. -/
def afterSign (negative : Bool) (current : List Nat) : D :=
  match current with
  | [] => target.nan
  | c :: cs =>
    if c = 73 then
      if kInfinitySymbol.isPrefixOf (c :: cs) ∧
          advanceToNonspace ((c :: cs).drop kInfinitySymbol.length) = [] then
        if negative then target.neg target.infinity else target.infinity
      else target.nan
    else if c = 48 then
      match (c :: cs).dropWhile (· = 48) with
      | [] => signedZero target negative
      | d :: ds => afterZeros target negative true (d :: ds)
    else afterZeros target negative false (c :: cs)

def internalStringToDouble (chars : List Nat) (emptyStringVal : D) : D :=
  match advanceToNonspace chars with
  | [] => emptyStringVal
  | c :: cs =>
    if c = 43 then afterSign target false cs
    else if c = 45 then afterSign target true cs
    else afterSign target false (c :: cs)

def stringToDouble (chars : List Nat) : D := internalStringToDouble target chars target.nan

/-! ## Small integers -/

open JsonParsing (decimalValue AllDigits decimalValue_lt le_decimalValue)

variable {target}

theorem decimalValue_zeros (t : List Nat) (k : Nat) :
    decimalValue 0 (t ++ replicate k 48) = decimalValue 0 t * 10 ^ k := by
  induction k with
  | zero => simp
  | succ k ih =>
    rw [replicate_succ', ← append_assoc, decimalValue, foldl_append]
    simp_all [decimalValue, Nat.pow_succ, Nat.mul_assoc]

/-- What the parser of JSON takes for its numbers. -/
def conversions (target : Target D) : JsonParsing.Conversions D :=
  ⟨target.ofInt, stringToDouble target⟩

end W16.StringNumbers

/-!
## Digits of a radix that is a power of two

`InternalStringToIntDouble` over the characters from `current` to `end`. The number is kept in
an `int64_t` of at most 58 bits, and the exponent in an `int` that nothing bounds.
-/
namespace W16.IntDouble

open StringNumbers (advanceToNonspace)

inductive Fault where
  | overflow
  | assertion
  deriving DecidableEq, Repr

def maxInt : Nat := 2 ^ 31 - 1

/-- The double that is returned: `number * 2 ^ exponent`, with a sign. -/
inductive Parsed where
  | junk
  | signedZero (negative : Bool)
  | number (negative : Bool) (number exponent : Nat)
  deriving DecidableEq, Repr

def isDigit (x radix : Nat) : Bool :=
  (48 ≤ x && x ≤ 57 && x < 48 + radix) || (radix > 10 && 97 ≤ x && x < 97 + radix - 10) ||
    (radix > 10 && 65 ≤ x && x < 65 + radix - 10)

/-- The digit that is read, as the loop decides it. -/
def readDigit (radix c : Nat) : Option Nat :=
  if 48 ≤ c ∧ c ≤ 57 ∧ c < 48 + radix then some (c - 48)
  else if radix > 10 ∧ 97 ≤ c ∧ c < 97 + radix - 10 then some (c - 97 + 10)
  else if radix > 10 ∧ 65 ≤ c ∧ c < 65 + radix - 10 then some (c - 65 + 10)
  else none

/-- The bits of `overflow`, of which `count` are known. -/
def overflowBits : Nat → Nat → Nat → Nat
  | 0, _, count => count
  | fuel + 1, overflow, count =>
    if overflow > 1 then overflowBits fuel (overflow >>> 1) (count + 1) else count

variable (radixLog2 : Nat)

/-- The digits that are dropped, up to the first other character. -/
def dropDigits : List Nat → Nat → Bool → Except Fault (List Nat × Nat × Bool)
  | [], exponent, zeroTail => .ok ([], exponent, zeroTail)
  | c :: cs, exponent, zeroTail =>
    if isDigit c (2 ^ radixLog2) then
      if exponent + radixLog2 ≤ maxInt then
        dropDigits cs (exponent + radixLog2) (zeroTail && c = 48)
      else .error .overflow
    else .ok (c :: cs, exponent, zeroTail)

def roundNumber (number droppedBits middleValue : Nat) (zeroTail : Bool) : Nat :=
  if droppedBits > middleValue then number + 1
  else if droppedBits = middleValue then
    -- half-way case rounds up if significant part is odd and down otherwise
    if number &&& 1 ≠ 0 ∨ zeroTail = false then number + 1 else number
  else number

def finish (negative : Bool) (number exponent : Nat) : Except Fault Parsed :=
  if number < 2 ^ 53 ∧ (exponent = 0 ∨ number ≠ 0) then .ok (.number negative number exponent)
  else .error .assertion

/-- The number has more than 53 bits, and `current` is behind its last digit. -/
def overflowed (negative allowTrailingJunk : Bool) (current : List Nat) (number : Nat) :
    Except Fault Parsed := do
  let overflow := number >>> 53
  let overflowBitsCount := overflowBits overflow overflow 1
  let droppedBitsMask := (1 <<< overflowBitsCount) - 1
  let droppedBits := number % 2 ^ 32 &&& droppedBitsMask
  let number := number >>> overflowBitsCount
  let (current, exponent, zeroTail) ← dropDigits radixLog2 current overflowBitsCount true
  if allowTrailingJunk = false ∧ advanceToNonspace current ≠ [] then return .junk
  let middleValue := 1 <<< (overflowBitsCount - 1)
  let number := roundNumber number droppedBits middleValue zeroTail
  -- Rounding up may cause overflow.
  if number &&& (1 <<< 53) ≠ 0 then
    if exponent + 1 ≤ maxInt then finish negative (number >>> 1) (exponent + 1) else .error .overflow
  else finish negative number exponent

/-- The loop over the digits. -/
def readDigits (negative allowTrailingJunk : Bool) : List Nat → Nat → Except Fault Parsed
  | [], number => finish negative number 0
  | c :: cs, number =>
    match readDigit (2 ^ radixLog2) c with
    | none =>
      if allowTrailingJunk ∨ advanceToNonspace (c :: cs) = [] then finish negative number 0
      else .ok .junk
    | some digit =>
      let number := number * 2 ^ radixLog2 + digit
      if number >>> 53 ≠ 0 then overflowed radixLog2 negative allowTrailingJunk cs number
      else readDigits negative allowTrailingJunk cs number

/-- Skip leading 0s. -/
def skipZeros (negative allowTrailingJunk : Bool) : List Nat → Except Fault Parsed
  | [] => .ok (.signedZero negative)
  | c :: cs =>
    if c = 48 then skipZeros negative allowTrailingJunk cs
    else readDigits radixLog2 negative allowTrailingJunk (c :: cs) 0

def internalStringToIntDouble (chars : List Nat) (negative allowTrailingJunk : Bool) : Except Fault Parsed :=
  if chars = [] then .error .assertion else skipZeros radixLog2 negative allowTrailingJunk chars

end W16.IntDouble
