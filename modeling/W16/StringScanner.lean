import Mathlib.Algebra.Order.Field.Rat
import W16.StringToDouble

/-!
# The scanner of decimal literals

`InternalStringToDouble` with its flags, up to the calls of `Strtod` and of
`InternalStringToIntDouble`. The characters from `current` to `end` are a list. A read at the
end, a write behind the buffer and an `int` that leaves its range are faults.
-/
namespace W16.StringScanner

open StringNumbers (advanceToNonspace kMaxSignificantDigits maxExponent isDigit kInfinitySymbol)

set_option linter.dupNamespace false

inductive Fault where
  | readAtEnd
  | bufferOverflow
  | overflow
  | assertion
  deriving DecidableEq, Repr

structure Flags where
  allowHex : Bool
  allowOctals : Bool
  allowTrailingJunk : Bool

/-- What is returned: `strtod` is the call at the end, `intDouble` the call for a radix. -/
inductive Outcome where
  | emptyString
  | junk
  | signedZero (negative : Bool)
  | infinity (negative : Bool)
  | intDouble (radixLog2 : Nat) (chars : List Nat) (negative : Bool)
  | strtod (negative : Bool) (buffer : List Nat) (exponent : Int)
  deriving DecidableEq, Repr

def kBufferSize : Nat := kMaxSignificantDigits + 10

/-- `*current` -/
def read : List Nat → Except Fault Nat
  | [] => .error .readAtEnd
  | c :: _ => .ok c

/-- The result of an `int` operation. -/
def checked (n : Int) : Except Fault Int :=
  if -2 ^ 31 ≤ n ∧ n < 2 ^ 31 then .ok n else .error .overflow

/-- The digits so far. The length of the buffer is `buffer_pos`. -/
structure Scan where
  buffer : List Nat
  exponent : Int
  significantDigits : Nat
  insignificantDigits : Int
  nonzeroDigitDropped : Bool
  octal : Bool

/-- `buffer[buffer_pos++] = c` -/
def Scan.store (s : Scan) (c : Nat) : Except Fault Scan :=
  if s.buffer.length < kBufferSize then .ok { s with buffer := s.buffer ++ [c] } else .error .bufferOverflow

/-! ## The end of the number -/

def parsingDone (negative : Bool) (s : Scan) : Except Fault Outcome := do
  let exponent ← checked (s.exponent + s.insignificantDigits)
  if s.octal then return .intDouble 3 s.buffer negative
  let s := { s with exponent := exponent }
  let s ←
    if s.nonzeroDigitDropped then do
      let s ← s.store 49
      let exponent ← checked (s.exponent - 1)
      pure { s with exponent := exponent }
    else pure s
  -- the terminating zero
  if s.buffer.length < kBufferSize then return .strtod negative s.buffer s.exponent
  else .error .bufferOverflow

variable (flags : Flags)

def trailing (negative : Bool) (s : Scan) (current : List Nat) : Except Fault Outcome :=
  if flags.allowTrailingJunk = false ∧ advanceToNonspace current ≠ [] then .ok .junk
  else parsingDone negative s

/-- An `e` without digits is junk. -/
def noExponent (negative : Bool) (s : Scan) : Except Fault Outcome :=
  if flags.allowTrailingJunk then parsingDone negative s else .ok .junk

/-! ## The exponent -/

def exponentDigits : List Nat → Int → Except Fault (Int × List Nat)
  | [], num => .ok (num, [])
  | c :: cs, num =>
    if isDigit c then
      let digit : Int := c - 48
      if num ≥ maxExponent / 10 ∧ ¬(num = maxExponent / 10 ∧ digit ≤ maxExponent % 10) then
        exponentDigits cs maxExponent
      else do
        let num ← checked (num * 10 + digit)
        exponentDigits cs num
    else .ok (num, c :: cs)

/-- Behind the sign of the exponent. -/
def exponentValue (negative minus : Bool) (s : Scan) (current : List Nat) : Except Fault Outcome :=
  if current = [] then noExponent flags negative s
  else do
    let c ← read current
    if isDigit c then
      if -(maxExponent / 2) ≤ s.exponent ∧ s.exponent ≤ maxExponent / 2 then do
        let (num, current) ← exponentDigits current 0
        let exponent ← checked (s.exponent + if minus then -num else num)
        trailing flags negative { s with exponent := exponent } current
      else .error .assertion
    else noExponent flags negative s

/-- From the `e` on. -/
def exponentPart (negative : Bool) (s : Scan) (current : List Nat) : Except Fault Outcome :=
  if s.octal then .ok .junk
  else
    let current := current.tail
    if current = [] then noExponent flags negative s
    else do
      let c ← read current
      if c = 43 ∨ c = 45 then exponentValue flags negative (c = 45) s current.tail
      else exponentValue flags negative false s current

/-! ## The digits -/

/-- The part behind the digits. -/
def afterDigits (negative leadingZero : Bool) (s : Scan) (current : List Nat) : Except Fault Outcome :=
  if leadingZero = false ∧ s.exponent = 0 ∧ s.significantDigits = 0 then .ok .junk
  else do
    let c ← read current
    if c = 101 ∨ c = 69 then exponentPart flags negative s current else trailing flags negative s current

/-- Zeros in front of the first significant digit, up to the end or another character. -/
def fractionZeros : List Nat → Int → Except Fault (Int × List Nat)
  | [], _ => .error .readAtEnd
  | c :: cs, exponent =>
    if c = 48 then
      if cs = [] then .ok (exponent, [])
      else do
        let exponent ← checked (exponent - 1)
        fractionZeros cs exponent
    else .ok (exponent, c :: cs)

def fractionDigit (s : Scan) (c : Nat) : Except Fault Scan :=
  if s.significantDigits < kMaxSignificantDigits then do
    let s ← s.store c
    let exponent ← checked (s.exponent - 1)
    pure { s with significantDigits := s.significantDigits + 1, exponent := exponent }
  else pure { s with nonzeroDigitDropped := s.nonzeroDigitDropped || c ≠ 48 }

def fractionDigits : List Nat → Scan → Except Fault (Scan × List Nat)
  | [], _ => .error .readAtEnd
  | c :: cs, s =>
    if isDigit c then do
      let s ← fractionDigit s c
      if cs = [] then pure (s, []) else fractionDigits cs s
    else pure (s, c :: cs)

/-- From the point on. -/
def pointPart (negative leadingZero : Bool) (s : Scan) (current : List Nat) : Except Fault Outcome :=
  if s.octal then
    if flags.allowTrailingJunk then parsingDone negative s else .ok .junk
  else
    let current := current.tail
    if current = [] then
      if s.significantDigits = 0 ∧ leadingZero = false then .ok .junk else parsingDone negative s
    else do
      let (exponent, current) ←
        if s.significantDigits = 0 then fractionZeros current s.exponent else pure (s.exponent, current)
      if current = [] then return .signedZero negative
      let (s, current) ← fractionDigits current { s with exponent := exponent }
      if current = [] then parsingDone negative s else afterDigits flags negative leadingZero s current

def integerDigit (s : Scan) (c : Nat) : Except Fault Scan := do
  let s ←
    if s.significantDigits < kMaxSignificantDigits then do
      let s ← s.store c
      pure { s with significantDigits := s.significantDigits + 1 }
    else do
      let insignificantDigits ← checked (s.insignificantDigits + 1)
      pure { s with
        insignificantDigits := insignificantDigits
        nonzeroDigitDropped := s.nonzeroDigitDropped || c ≠ 48 }
  pure { s with octal := s.octal && c < 56 }

def integerDigits : List Nat → Scan → Except Fault (Scan × List Nat)
  | [], _ => .error .readAtEnd
  | c :: cs, s =>
    if isDigit c then do
      let s ← integerDigit s c
      if cs = [] then pure (s, []) else integerDigits cs s
    else pure (s, c :: cs)

/-- From the first digit that is no leading zero. -/
def digitsPart (negative leadingZero : Bool) (current : List Nat) : Except Fault Outcome := do
  let (s, current) ← integerDigits current ⟨[], 0, 0, 0, false, leadingZero && flags.allowOctals⟩
  if current = [] then parsingDone negative s
  else
    let s := if s.significantDigits = 0 then { s with octal := false } else s
    let c ← read current
    if c = 46 then pointPart flags negative leadingZero s current
    else afterDigits flags negative leadingZero s current

/-! ## The front -/

/-- Leading zeros of the integer part, up to the end or another character. -/
def skipZeros : List Nat → Except Fault (List Nat)
  | [] => .error .readAtEnd
  | c :: cs => if c = 48 then (if cs = [] then .ok [] else skipZeros cs) else .ok (c :: cs)

/-- `SubStringEquals` behind the first character, and where it leaves `current`. -/
def subStringEquals : List Nat → List Nat → Option (List Nat)
  | [], current => some current.tail
  | d :: substring, current =>
    match current.tail with
    | [] => none
    | c :: cs => if c = d then subStringEquals substring (c :: cs) else none

def afterSign (negative : Bool) (current : List Nat) : Except Fault Outcome := do
  let c ← read current
  if c = 73 then
    match subStringEquals kInfinitySymbol.tail current with
    | none => return .junk
    | some current =>
      if flags.allowTrailingJunk = false ∧ advanceToNonspace current ≠ [] then return .junk
      else return .infinity negative
  else if c = 48 then
    let current := current.tail
    if current = [] then return .signedZero negative
    else
      let c ← read current
      if flags.allowHex = true ∧ (c = 120 ∨ c = 88) then
        let current := current.tail
        if current = [] then return .junk
        else
          let c ← read current
          if IntDouble.isDigit c 16 then return .intDouble 4 current negative else return .junk
      else
        let current ← skipZeros current
        if current = [] then return .signedZero negative else digitsPart flags negative true current
  else digitsPart flags negative false current

def internalStringToDouble (chars : List Nat) : Except Fault Outcome := do
  let current := advanceToNonspace chars
  if current = [] then return .emptyString
  else
    let c ← read current
    if c = 43 ∨ c = 45 then
      let current := current.tail
      if current = [] then return .junk else afterSign flags (c = 45) current
    else afterSign flags false current

/-! ## The literal -/

/-- A decimal literal: its digits before and behind the point, and those of its exponent. -/
structure Literal where
  integer : List Nat
  fraction : List Nat
  minus : Bool
  exponentDigits : List Nat

open JsonParsing (decimalValue)

def Literal.exponent (l : Literal) : Int :=
  if l.minus then -(decimalValue 0 l.exponentDigits : Int) else decimalValue 0 l.exponentDigits

/-- `D * 10 ^ E` -/
def Literal.value (l : Literal) : ℚ :=
  decimalValue 0 (l.integer ++ l.fraction) * 10 ^ (l.exponent - l.fraction.length)

/-- The sign and the digits of the exponent that the characters start with. -/
def exponentOf : List Nat → Bool × List Nat
  | [] => (false, [])
  | c :: cs =>
    if c = 101 ∨ c = 69 then
      match cs with
      | [] => (false, [])
      | sign :: rest =>
        if sign = 43 ∨ sign = 45 then (decide (sign = 45), rest.takeWhile isDigit)
        else (false, (sign :: rest).takeWhile isDigit)
    else (false, [])

/-- The longest literal that the characters start with. -/
def literalOf (current : List Nat) : Literal :=
  let rest := current.dropWhile isDigit
  let fraction := if rest.head? = some 46 then rest.tail.takeWhile isDigit else []
  let rest := if rest.head? = some 46 then rest.tail.dropWhile isDigit else rest
  ⟨current.takeWhile isDigit, fraction, (exponentOf rest).1, (exponentOf rest).2⟩

/-- The literal behind white space and a sign. -/
def literal (chars : List Nat) : Literal :=
  match advanceToNonspace chars with
  | [] => literalOf []
  | c :: cs => if c = 43 ∨ c = 45 then literalOf cs else literalOf (c :: cs)

end W16.StringScanner
