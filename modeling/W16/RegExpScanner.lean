import W16.RegExpTree
import W16.CharClassCode

/-!
# Reading a pattern

The parts of `RegExpParser` that read characters. What they read is a token: an atom, an assertion
or what stands between them. Stack overflow and the size of the zone are left out.
-/
namespace W16.RegExps

set_option linter.dupNamespace false

inductive ParseError where
  | message (text : String)
  | unreachable
  | outOfFuel
  deriving DecidableEq, Repr

def kEndMarker : Nat := 2097152

/-- Where the parser is in the pattern. The captures are not among its fields here. -/
structure RegExpParser where
  input : List Nat
  multiline : Bool
  current : Nat
  nextPos : Nat
  captureCount : Nat
  hasMore : Bool
  isScannedForCaptures : Bool

namespace RegExpParser

variable (p : RegExpParser)

/-- `Next` -/
def next : Nat := if p.nextPos < p.input.length then p.input.getD p.nextPos 0 else kEndMarker

/-- `Advance` -/
def advance : RegExpParser :=
  if p.nextPos < p.input.length then
    { p with current := p.input.getD p.nextPos 0, nextPos := p.nextPos + 1 }
  else { p with current := kEndMarker, hasMore := false }

/-- `Advance` by a distance. -/
def advanceBy (dist : Nat) : RegExpParser :=
  advance { p with nextPos := p.nextPos + dist - 1 }

def position : Nat := p.nextPos - 1

/-- `Reset` -/
def reset (pos : Nat) : RegExpParser := advance { p with nextPos := pos }

/-- The constructor. -/
def new (input : List Nat) (multiline : Bool) : RegExpParser :=
  advance {
    input := input
    multiline := multiline
    current := kEndMarker
    nextPos := 0
    captureCount := 0
    hasMore := true
    isScannedForCaptures := false }

end RegExpParser

section Digits

def isDecimalDigit (c : Nat) : Bool := '0'.toNat ≤ c && c ≤ '9'.toNat

def isOctalDigit (c : Nat) : Bool := '0'.toNat ≤ c && c ≤ '7'.toNat

def hexValue (c : Nat) : Option Nat :=
  if isDecimalDigit c then some (c - '0'.toNat)
  else if 'A'.toNat ≤ c && c ≤ 'F'.toNat then some (c - 'A'.toNat + 10)
  else if 'a'.toNat ≤ c && c ≤ 'f'.toNat then some (c - 'a'.toNat + 10)
  else none

/-- The remaining decimal digits. -/
def skipDigits : Nat → RegExpParser → RegExpParser
  | 0, p => p
  | fuel + 1, p => if isDecimalDigit p.current then skipDigits fuel p.advance else p

/-- A number that is `kInfinity` where it overflows. -/
def parseDigits : Nat → RegExpParser → Nat → Nat × RegExpParser
  | 0, p, value => (value, p)
  | fuel + 1, p, value =>
    if isDecimalDigit p.current then
      let next := p.current - '0'.toNat
      if value > (kInfinity - next) / 10 then (kInfinity, skipDigits fuel p.advance)
      else parseDigits fuel p.advance (10 * value + next)
    else (value, p)

/-- No numbers where the characters are no quantifier, and the parser is back at the brace. -/
def parseIntervalQuantifier (p : RegExpParser) : Option (Nat × Nat) × RegExpParser :=
  let start := p.position
  let fuel := p.input.length + 1
  let p := p.advance
  if !isDecimalDigit p.current then (none, p.reset start)
  else
    let (min, p) := parseDigits fuel p 0
    if p.current = '}'.toNat then (some (min, min), p.advance)
    else if p.current = ','.toNat then
      let p := p.advance
      if p.current = '}'.toNat then (some (min, kInfinity), p.advance)
      else
        let (max, p) := parseDigits fuel p 0
        if p.current ≠ '}'.toNat then (none, p.reset start)
        else (some (min, max), p.advance)
    else (none, p.reset start)

def parseOctalLiteral (p : RegExpParser) : Nat × RegExpParser :=
  let value := p.current - '0'.toNat
  let p := p.advance
  if isOctalDigit p.current then
    let value := value * 8 + p.current - '0'.toNat
    let p := p.advance
    if value < 32 && isOctalDigit p.current then
      (value * 8 + p.current - '0'.toNat, p.advance)
    else (value, p)
  else (value, p)

/-- The loop of `ParseHexEscape`. -/
def parseHexDigits : Nat → RegExpParser → Nat → Option (Nat × RegExpParser)
  | 0, p, val => some (val, p)
  | length + 1, p, val =>
    match hexValue p.current with
    | none => none
    | some d => parseHexDigits length p.advance (val * 16 + d)

def parseHexEscape (length : Nat) (p : RegExpParser) : Option Nat × RegExpParser :=
  match parseHexDigits length p 0 with
  | none => (none, p.reset p.position)
  | some (val, p) => (some val, p)

/-- The loop over a character class in `ScanForCaptures`. -/
def skipClass : Nat → RegExpParser → RegExpParser
  | 0, p => p
  | fuel + 1, p =>
    let c := p.current
    if c = kEndMarker then p
    else if c = '\\'.toNat then skipClass fuel p.advance.advance
    else if c = ']'.toNat then p.advance
    else skipClass fuel p.advance

/-- The loop of `ScanForCaptures`. -/
def countCaptures : Nat → RegExpParser → Nat → Nat × RegExpParser
  | 0, p, captureCount => (captureCount, p)
  | fuel + 1, p, captureCount =>
    let n := p.current
    if n = kEndMarker then (captureCount, p)
    else
      let p := p.advance
      if n = '\\'.toNat then countCaptures fuel p.advance captureCount
      else if n = '['.toNat then countCaptures fuel (skipClass fuel p) captureCount
      else if n = '('.toNat then
        countCaptures fuel p (if p.current ≠ '?'.toNat then captureCount + 1 else captureCount)
      else countCaptures fuel p captureCount

def scanForCaptures (capturesStarted : Nat) (p : RegExpParser) : RegExpParser :=
  let (captureCount, p) := countCaptures (p.input.length + 1) p capturesStarted
  { p with captureCount := captureCount, isScannedForCaptures := true }

def kMaxCaptures : Nat := 65536

/-- The loop of `ParseBackReferenceIndex`. -/
def parseIndex : Nat → RegExpParser → Nat → Option (Nat × RegExpParser)
  | 0, p, value => some (value, p)
  | fuel + 1, p, value =>
    if isDecimalDigit p.current then
      let value := 10 * value + (p.current - '0'.toNat)
      if value > kMaxCaptures then none
      else parseIndex fuel p.advance value
    else some (value, p)

def parseBackReferenceIndex (capturesStarted : Nat) (p : RegExpParser) : Option Nat × RegExpParser :=
  let start := p.position
  match parseIndex (p.input.length + 1) (p.advanceBy 2) (p.next - '0'.toNat) with
  | none => (none, p.reset start)
  | some (value, p) =>
    if value > capturesStarted then
      let p :=
        if p.isScannedForCaptures then p
        else (scanForCaptures capturesStarted p).reset p.position
      if value > p.captureCount then (none, p.reset start)
      else (some value, p)
    else (some value, p)

end Digits

section Classes

/-- The ranges of a class escape. -/
def classRanges (type : Char) : List CharacterRange :=
  (CharacterRanges.addClassEscape type).map fun range => ⟨range.from_, range.to_⟩

/-- The letters of class escapes. -/
def classEscape? (c : Nat) : Option Char :=
  ['d', 'D', 's', 'S', 'w', 'W'].find? fun letter => letter.toNat = c

/-- A character of type `uc16` from one of type `uc32`. -/
def uc16 (c : Nat) : Nat := c % 65536

/-- The case bit of a letter cleared. -/
def clearCase (c : Nat) : Nat := c &&& 0xFFFFFFDF

def isUpperLetter (c : Nat) : Bool := 'A'.toNat ≤ c && c ≤ 'Z'.toNat

/-- The escapes of control characters that have a letter of their own. -/
def controlEscape? (c : Nat) : Option Nat :=
  if c = 'f'.toNat then some 0x0C
  else if c = 'n'.toNat then some 0x0A
  else if c = 'r'.toNat then some 0x0D
  else if c = 't'.toNat then some 0x09
  else if c = 'v'.toNat then some 0x0B
  else none

def parseClassCharacterEscape (p : RegExpParser) : Nat × RegExpParser :=
  let p := p.advance
  let c := p.current
  if c = 'b'.toNat then (0x08, p.advance)
  else
    match controlEscape? c with
    | some control => (control, p.advance)
    | none =>
      if c = 'c'.toNat then
        let controlLetter := p.next
        if isDecimalDigit controlLetter || controlLetter = '_'.toNat ||
            isUpperLetter (clearCase controlLetter) then
          (controlLetter &&& 0x1F, p.advanceBy 2)
        else ('\\'.toNat, p)
      else if isOctalDigit c then parseOctalLiteral p
      else if c = 'x'.toNat then
        match parseHexEscape 2 p.advance with
        | (some value, p) => (value, p)
        | (none, p) => ('x'.toNat, p)
      else if c = 'u'.toNat then
        match parseHexEscape 4 p.advance with
        | (some value, p) => (value, p)
        | (none, p) => ('u'.toNat, p)
      else (c, p.advance)

/-- The letter of a class escape, or the character. -/
def parseClassAtom (p : RegExpParser) : Except ParseError ((Char ⊕ Nat) × RegExpParser) :=
  let first := p.current
  if first = '\\'.toNat then
    match classEscape? p.next with
    | some letter => .ok (.inl letter, p.advanceBy 2)
    | none =>
      if p.next = kEndMarker then .error (.message "\\ at end of pattern")
      else
        let (c, p) := parseClassCharacterEscape p
        .ok (.inr (uc16 c), p)
  else .ok (.inr (uc16 first), p.advance)

def addRangeOrEscape (ranges : List CharacterRange) : Char ⊕ Nat → List CharacterRange
  | .inl charClass => ranges ++ classRanges charClass
  | .inr c => ranges ++ [⟨c, c⟩]

/-- The loop of `ParseCharacterClass`. -/
def parseClassRanges : Nat → RegExpParser → List CharacterRange →
    Except ParseError (List CharacterRange × RegExpParser)
  | 0, _, _ => .error .outOfFuel
  | fuel + 1, p, ranges =>
    if p.hasMore && p.current ≠ ']'.toNat then do
      let (first, p) ← parseClassAtom p
      if p.current = '-'.toNat then
        let p := p.advance
        if p.current = kEndMarker then return (ranges, p)
        else if p.current = ']'.toNat then
          return (addRangeOrEscape ranges first ++ [⟨'-'.toNat, '-'.toNat⟩], p)
        else do
          let (next, p) ← parseClassAtom p
          match first, next with
          | .inr from_, .inr to_ =>
            if from_ > to_ then .error (.message "Range out of order in character class")
            else parseClassRanges fuel p (ranges ++ [⟨from_, to_⟩])
          | _, _ =>
            parseClassRanges fuel p
              (addRangeOrEscape (addRangeOrEscape ranges first ++ [⟨'-'.toNat, '-'.toNat⟩]) next)
      else parseClassRanges fuel p (addRangeOrEscape ranges first)
    else return (ranges, p)

def parseCharacterClass (p : RegExpParser) : Except ParseError (TextElement × RegExpParser) := do
  let p := p.advance
  let isNegated : Bool := p.current = '^'.toNat
  let p := if isNegated then p.advance else p
  let (ranges, p) ← parseClassRanges (p.input.length + 1) p []
  if !p.hasMore then .error (.message "Unterminated character class")
  else if ranges.length = 0 then return (.charClass [⟨0, 0xFFFF⟩] !isNegated, p.advance)
  else return (.charClass ranges isNegated, p.advance)

end Classes

section Tokens

inductive SubexpressionType where
  | initial | capture | positiveLookahead | negativeLookahead | grouping
  deriving DecidableEq, Repr

inductive Token where
  | endMarker
  | close
  | bar
  | assertion (type : AssertionType)
  | group (type : SubexpressionType)
  | character (c : Nat)
  | charClass (element : TextElement)
  | backReference (index : Nat)

/-- The case of an opening parenthesis. -/
def scanGroup (p : RegExpParser) : Except ParseError (Token × RegExpParser) :=
  let p := p.advance
  if p.current = '?'.toNat then
    if p.next = ':'.toNat then .ok (.group .grouping, p.advanceBy 2)
    else if p.next = '='.toNat then .ok (.group .positiveLookahead, p.advanceBy 2)
    else if p.next = '!'.toNat then .ok (.group .negativeLookahead, p.advanceBy 2)
    else .error (.message "Invalid group")
  else .ok (.group .capture, p)

/-- The case of an octal escape. -/
def scanOctal (p : RegExpParser) : Token × RegExpParser :=
  let (octal, p) := parseOctalLiteral p.advance
  (.character (uc16 octal), p)

/-- The case of a backslash. -/
def scanEscape (capturesStarted : Nat) (p : RegExpParser) : Except ParseError (Token × RegExpParser) :=
  let c := p.next
  if c = kEndMarker then .error (.message "\\ at end of pattern")
  else if c = 'b'.toNat then .ok (.assertion .boundary, p.advanceBy 2)
  else if c = 'B'.toNat then .ok (.assertion .nonBoundary, p.advanceBy 2)
  else
    match classEscape? c, controlEscape? c with
    | some letter, _ => .ok (.charClass (.charClass (classRanges letter) false), p.advanceBy 2)
    | none, some control => .ok (.character control, p.advanceBy 2)
    | none, none =>
      if '1'.toNat ≤ c && c ≤ '9'.toNat then
        match parseBackReferenceIndex capturesStarted p with
        | (some index, p) => .ok (.backReference index, p)
        | (none, p) =>
          let firstDigit := p.next
          if firstDigit = '8'.toNat || firstDigit = '9'.toNat then
            .ok (.character firstDigit, p.advanceBy 2)
          else .ok (scanOctal p)
      else if c = '0'.toNat then .ok (scanOctal p)
      else if c = 'c'.toNat then
        let p := p.advance
        let controlLetter := p.next
        if isUpperLetter (clearCase controlLetter) then
          .ok (.character (controlLetter &&& 0x1F), p.advanceBy 2)
        else .ok (.character '\\'.toNat, p)
      else if c = 'x'.toNat then
        match parseHexEscape 2 (p.advanceBy 2) with
        | (some value, p) => .ok (.character value, p)
        | (none, p) => .ok (.character 'x'.toNat, p)
      else if c = 'u'.toNat then
        match parseHexEscape 4 (p.advanceBy 2) with
        | (some value, p) => .ok (.character value, p)
        | (none, p) => .ok (.character 'u'.toNat, p)
      else .ok (.character c, p.advanceBy 2)

/-- The token that begins at the current character. -/
def scan (capturesStarted : Nat) (p : RegExpParser) : Except ParseError (Token × RegExpParser) :=
  let c := p.current
  if c = kEndMarker then .ok (.endMarker, p)
  else if c = ')'.toNat then .ok (.close, p.advance)
  else if c = '|'.toNat then .ok (.bar, p.advance)
  else if c = '*'.toNat || c = '+'.toNat || c = '?'.toNat then .error (.message "Nothing to repeat")
  else if c = '^'.toNat then
    .ok (.assertion (if p.multiline then .startOfLine else .startOfInput), p.advance)
  else if c = '$'.toNat then
    .ok (.assertion (if p.multiline then .endOfLine else .endOfInput), p.advance)
  else if c = '.'.toNat then .ok (.charClass (.charClass (classRanges '.') false), p.advance)
  else if c = '('.toNat then scanGroup p
  else if c = '['.toNat then
    (parseCharacterClass p).map fun (element, p) => (.charClass element, p)
  else if c = '\\'.toNat then scanEscape capturesStarted p
  else if c = '{'.toNat then
    match parseIntervalQuantifier p with
    | (some _, _) => .error (.message "Nothing to repeat")
    | (none, p) => .ok (.character p.current, p.advance)
  else .ok (.character c, p.advance)

/-- The minimum and the maximum of the quantifier behind an atom, and whether it is greedy. -/
structure Quantifier where
  min : Nat
  max : Nat
  isGreedy : Bool
  deriving DecidableEq, Repr

def scanGreedy (min max : Nat) (p : RegExpParser) : Quantifier × RegExpParser :=
  if p.current = '?'.toNat then (⟨min, max, false⟩, p.advance) else (⟨min, max, true⟩, p)

def scanQuantifier (p : RegExpParser) : Except ParseError (Option Quantifier × RegExpParser) :=
  let some_ : Quantifier × RegExpParser → Except ParseError (Option Quantifier × RegExpParser) :=
    fun (quantifier, p) => .ok (some quantifier, p)
  if p.current = '*'.toNat then some_ (scanGreedy 0 kInfinity p.advance)
  else if p.current = '+'.toNat then some_ (scanGreedy 1 kInfinity p.advance)
  else if p.current = '?'.toNat then some_ (scanGreedy 0 1 p.advance)
  else if p.current = '{'.toNat then
    match parseIntervalQuantifier p with
    | (some (min, max), p) =>
      if max < min then .error (.message "numbers out of order in \x7b\x7d quantifier.")
      else some_ (scanGreedy min max p)
    | (none, p) => .ok (none, p)
  else .ok (none, p)

end Tokens

end W16.RegExps
