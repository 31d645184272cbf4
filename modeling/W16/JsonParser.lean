import Mathlib.Data.Int.Bitwise
import Mathlib.Data.Nat.Digits.Defs

/-!
# The JSON parser

`JsonParser` on strings of one-byte or two-byte characters. Loops of the source have a bound on
their turns, which no run reaches.
-/
namespace W16.JsonParsing

/-- A flat string. -/
structure Source where
  oneByte : Bool
  chars : List Nat
  valid : ∀ c ∈ chars, c < if oneByte then 0x80 else 0x10000

/-- `position_` and `c0_` -/
structure Scanner where
  position : Int
  c0 : Int

def kEndOfString : Int := -1
def kMaxAsciiCharCode : Int := 0x7f

/-- What the smi and the double of a number are, for a type of numbers. -/
structure Conversions (D : Type) where
  smi : Int → D
  stringToDouble : List Nat → D

/-- Objects hold their properties in the order of the definitions, and what was set as prototype. -/
inductive Slot where
  | own (name : List Nat)
  | prototype
  deriving DecidableEq

inductive Value (D : Type) where
  | null
  | boolean (b : Bool)
  | number (d : D)
  | string (units : List Nat)
  | array (elements : List (Value D))
  | object (slots : List (Slot × Value D))

variable {D : Type} (conversions : Conversions D) (source : Source)

/-! ## Characters -/

def advance (s : Scanner) : Scanner :=
  let position := s.position + 1
  if position ≥ source.chars.length then ⟨position, kEndOfString⟩
  else ⟨position, source.chars.getD position.toNat 0⟩

/-- `"\x20\x09\x0a\0\0\x0d\0\0"` -/
def whitespaces : List Int := [0x20, 0x09, 0x0a, 0, 0, 0x0d, 0, 0]

def isJsonWhitespace (ch : Int) : Bool := whitespaces.getD (Int.land ch 0x07).toNat 0 = ch

def skipWhitespaceLoop : Nat → Scanner → Scanner
  | 0, s => s
  | turns + 1, s => if isJsonWhitespace s.c0 then skipWhitespaceLoop turns (advance source s) else s

def skipWhitespace (s : Scanner) : Scanner := skipWhitespaceLoop source (source.chars.length + 1) s

def advanceSkipWhitespace (s : Scanner) : Scanner := skipWhitespace source (advance source s)

def isDecimalDigit (c : Int) : Bool := 48 ≤ c ∧ c ≤ 57

def asciiAlphaToLower (c : Int) : Int := Int.lor c 0x20

def hexValue (c : Int) : Int :=
  let c := c - 48
  if 0 ≤ c ∧ c ≤ 9 then c
  else
    let c := Int.lor c 0x20 - (97 - 48)
    if 0 ≤ c ∧ c ≤ 5 then c + 10 else -1

/-! ## Strings -/

inductive Sink where
  | ascii
  | twoByte
  deriving DecidableEq

/-- `SeqStringSet` keeps the bits that a character of the string has. -/
def Sink.store : Sink → Int → Nat
  | ascii, c => (c % 0x100).toNat
  | twoByte, c => (c % 0x10000).toNat

/-- A sequential string of some length, and the characters that are written. -/
structure SeqString where
  length : Int
  written : List Nat

def SeqString.count (seqStr : SeqString) : Int := seqStr.written.length

def kInitialSpecialStringLength : Int := 1024

/-- The string of `SlowScanJsonString`, with the prefix copied to it. -/
def newSeqString (sink : Sink) (prefixChars : List Nat) (start finish : Nat) (s : Scanner) : SeqString :=
  let count : Int := finish - start
  let maxLength := count + source.chars.length - s.position
  let length := min maxLength (max kInitialSpecialStringLength (2 * count))
  ⟨length, ((prefixChars.take finish).drop start).map fun c : Nat => sink.store c⟩

def SeqString.set (sink : Sink) (seqStr : SeqString) (c : Int) : SeqString :=
  ⟨seqStr.length, seqStr.written ++ [sink.store c]⟩

/-- The four digits of an escape, from the character before them on. -/
def scanHexDigits : Nat → Int → Scanner → Option Int × Scanner
  | 0, value, s => (some value, s)
  | n + 1, value, s =>
    let s := advance source s
    let digit := hexValue s.c0
    if digit < 0 then (none, s) else scanHexDigits n (value * 16 + digit) s

/-- The character that an escape of one character stands for. -/
def escapedChar (c : Int) : Option Int :=
  if c = 34 ∨ c = 92 ∨ c = 47 then some c
  else if c = 98 then some 0x08
  else if c = 102 then some 0x0c
  else if c = 110 then some 0x0a
  else if c = 114 then some 0x0d
  else if c = 116 then some 0x09
  else none

/-- The loop of `SlowScanJsonString`, which starts over with a longer string or another sink. -/
def slowScanLoop : Nat → Sink → SeqString → Scanner → Option (List Nat) × Scanner
  | 0, _, _, s => (none, s)
  | turns + 1, sink, seqStr, s =>
    if s.c0 = 34 then (some seqStr.written, advanceSkipWhitespace source s)
    else if s.c0 < 0x20 then (none, s)
    else if seqStr.count ≥ seqStr.length then
      slowScanLoop turns sink (newSeqString source sink seqStr.written 0 seqStr.written.length s) s
    else if s.c0 ≠ 92 then
      if sink = .twoByte ∨ source.oneByte = true ∨ s.c0 ≤ kMaxAsciiCharCode then
        slowScanLoop turns sink (seqStr.set sink s.c0) (advance source s)
      else
        slowScanLoop turns .twoByte (newSeqString source .twoByte seqStr.written 0 seqStr.written.length s) s
    else
      let s := advance source s
      match escapedChar s.c0 with
      | some c => slowScanLoop turns sink (seqStr.set sink c) (advance source s)
      | none =>
        if s.c0 = 117 then
          match scanHexDigits source 4 0 s with
          | (none, s) => (none, s)
          | (some value, s) =>
            if sink = .twoByte ∨ value ≤ kMaxAsciiCharCode then
              slowScanLoop turns sink (seqStr.set sink value) (advance source s)
            else
              let s := advance source { s with position := s.position - 6 }
              slowScanLoop turns .twoByte
                (newSeqString source .twoByte seqStr.written 0 seqStr.written.length s) s
        else (none, s)

/-- No character needs more turns than four, and the quote needs one. -/
def slowScanJsonString (sink : Sink) (prefixChars : List Nat) (start finish : Nat) (s : Scanner) :
    Option (List Nat) × Scanner :=
  slowScanLoop source (4 * (source.chars.length + 1)) sink
    (newSeqString source sink prefixChars start finish s) s

/-- The fast case, from the position `begPos` on. -/
def fastScanLoop (begPos : Nat) : Nat → Scanner → Option (List Nat) × Scanner
  | 0, s => (none, s)
  | turns + 1, s =>
    if s.c0 < 0x20 then (none, s)
    else if s.c0 ≠ 92 then
      if s.c0 ≤ kMaxAsciiCharCode then
        let s := advance source s
        if s.c0 ≠ 34 then fastScanLoop begPos turns s
        else
          (some (((source.chars.take s.position.toNat).drop begPos).map fun c : Nat => Sink.ascii.store c),
            advanceSkipWhitespace source s)
      else slowScanJsonString source .twoByte source.chars begPos s.position.toNat s
    else slowScanJsonString source .ascii source.chars begPos s.position.toNat s

/-- A symbol has the characters of the string. -/
def scanJsonString (s : Scanner) : Option (List Nat) × Scanner :=
  let s := advance source s
  if s.c0 = 34 then (some [], advanceSkipWhitespace source s)
  else fastScanLoop source s.position.toNat (source.chars.length + 1) s

/-! ## Numbers -/

/-- `ComputeArrayIndex`, which the hash field caches for short strings. -/
def computeArrayIndexLoop : Nat → List Nat → Option Nat
  | result, [] => some result
  | result, c :: cs =>
    if c < 48 ∨ 57 < c then none
    else if result > 429496729 - (if c - 48 > 5 then 1 else 0) then none
    else computeArrayIndexLoop (result * 10 + (c - 48)) cs

def kMaxArrayIndexSize : Nat := 10

def asArrayIndex : List Nat → Option Nat
  | [] => none
  | c :: cs =>
    if (c :: cs).length > kMaxArrayIndexSize then none
    else if c = 48 then if (c :: cs).length = 1 then some 0 else none
    else if c < 48 ∨ 57 < c then none
    else computeArrayIndexLoop (c - 48) cs

/-- The characters of an index. -/
def numeral (n : Nat) : List Nat := if n = 0 then [48] else (Nat.digits 10 n).reverse.map (· + 48)

/-- `__proto__` -/
def protoSymbol : List Nat := [95, 95, 112, 114, 111, 116, 111, 95, 95]

end W16.JsonParsing
