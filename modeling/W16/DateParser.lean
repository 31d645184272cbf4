import W16.StringToDouble

/-!
# The date parser

`DateParser::Parse` with its reader, its tokenizer and its three composers. A reader holds the
characters from the current one on.
-/
namespace W16.DateParsing

open StringNumbers (isWhiteSpace isDigit)

set_option linter.dupNamespace false

/-- Indicates a missing value. -/
def kNone : Int := 2 ^ 31 - 1

def kMaxSignificantDigits : Nat := 9

def between (x lo hi : Int) : Bool := lo ≤ x ∧ x ≤ hi

/-! ## Characters -/

structure InputReader where
  position : Nat
  rest : List Nat

namespace InputReader

def ch (reader : InputReader) : Nat := reader.rest.headD 0

def next (reader : InputReader) : InputReader := ⟨reader.position + 1, reader.rest.tail⟩

def isEnd (reader : InputReader) : Bool := reader.ch = 0

def isAsciiDigit (reader : InputReader) : Bool := isDigit reader.ch

def isAsciiAlphaOrAbove (reader : InputReader) : Bool := reader.ch ≥ 65

end InputReader

/-- The numeral `n` of `i` digits is read on. -/
def readUnsignedNumeralLoop (position n i : Nat) : List Nat → Nat × InputReader
  | [] => (n, ⟨position, []⟩)
  | c :: cs =>
    if isDigit c then
      readUnsignedNumeralLoop (position + 1)
        (if i < kMaxSignificantDigits then n * 10 + (c - 48) else n) (i + 1) cs
    else (n, ⟨position, c :: cs⟩)

def readUnsignedNumeral (reader : InputReader) : Nat × InputReader :=
  readUnsignedNumeralLoop reader.position 0 0 reader.rest

def asciiAlphaToLower (c : Nat) : Nat := c ||| 0x20

/-- The prefix of a word, of as many characters as are wanted, and its length. -/
def readWordLoop (position : Nat) (start : List Nat) (len prefixSize : Nat) :
    List Nat → List Nat × Nat × InputReader
  | [] => (start, len, ⟨position, []⟩)
  | c :: cs =>
    if c ≥ 65 then
      readWordLoop (position + 1) (if len < prefixSize then start ++ [asciiAlphaToLower c] else start)
        (len + 1) prefixSize cs
    else (start, len, ⟨position, c :: cs⟩)

/-- The prefix is padded with zeroes. -/
def readWord (reader : InputReader) (prefixSize : Nat) : List Nat × Nat × InputReader :=
  let (start, len, reader) := readWordLoop reader.position [] 0 prefixSize reader.rest
  (start ++ List.replicate (prefixSize - len) 0, len, reader)

/-- `do { ... } while (balance > 0 && ch_)` -/
def skipParenthesesLoop (position : Nat) (balance : Int) : List Nat → InputReader
  | [] => ⟨position, []⟩
  | c :: cs =>
    let balance := if c = 41 then balance - 1 else if c = 40 then balance + 1 else balance
    if balance > 0 ∧ cs.headD 0 ≠ 0 then skipParenthesesLoop (position + 1) balance cs
    else ⟨position + 1, cs⟩

/-! ## Tokens -/

inductive KeywordType where
  | invalid
  | monthName
  | timeZoneName
  | timeSeparator
  | amPm
  deriving DecidableEq

inductive DateToken where
  | invalid
  | unknown
  | whiteSpace (length : Nat)
  | number (value length : Nat)
  | symbol (c : Nat)
  | endOfInput
  | keyword (type : KeywordType) (value : Int) (length : Nat)
  deriving DecidableEq

namespace DateToken

def isSymbol (c : Nat) (token : DateToken) : Bool := token = symbol c

def isAsciiSign (token : DateToken) : Bool := token = symbol 45 ∨ token = symbol 43

def isKeywordType (type : KeywordType) : DateToken → Bool
  | keyword type' _ _ => type' = type
  | _ => false

def isKeywordZ (token : DateToken) : Bool := token = keyword .timeZoneName 0 1

/-- The value of a number of some length. -/
def fixedLengthNumber (length : Nat) : DateToken → Option Nat
  | number value length' => if length' = length then some value else none
  | _ => none

end DateToken

def kPrefixLength : Nat := 3

/-- `KeywordTable::array` without its last entry. -/
def keywordTable : List (List Nat × KeywordType × Int) :=
  [([106, 97, 110], .monthName, 1), ([102, 101, 98], .monthName, 2), ([109, 97, 114], .monthName, 3),
   ([97, 112, 114], .monthName, 4),
   ([109, 97, 121], .monthName, 5),
   ([106, 117, 110], .monthName, 6),
   ([106, 117, 108], .monthName, 7),
   ([97, 117, 103], .monthName, 8),
   ([115, 101, 112], .monthName, 9),
   ([111, 99, 116], .monthName, 10),
   ([110, 111, 118], .monthName, 11),
   ([100, 101, 99], .monthName, 12),
   ([97, 109, 0], .amPm, 0),
   ([112, 109, 0], .amPm, 12),
   ([117, 116, 0], .timeZoneName, 0),
   ([117, 116, 99], .timeZoneName, 0),
   ([122, 0, 0], .timeZoneName, 0),
   ([103, 109, 116], .timeZoneName, 0),
   ([99, 100, 116], .timeZoneName, -5),
   ([99, 115, 116], .timeZoneName, -6),
   ([101, 100, 116], .timeZoneName, -4),
   ([101, 115, 116], .timeZoneName, -5),
   ([109, 100, 116], .timeZoneName, -6),
   ([109, 115, 116], .timeZoneName, -7),
   ([112, 100, 116], .timeZoneName, -7),
   ([112, 115, 116], .timeZoneName, -8),
   ([116, 0, 0], .timeSeparator, 0)]

/-- Words longer than a keyword are only allowed for the names of months. -/
def lookup (pre : List Nat) (len : Nat) : KeywordType × Int :=
  match keywordTable.find? fun entry =>
    entry.1 = pre && (len ≤ kPrefixLength || entry.2.1 = .monthName) with
  | some entry => entry.2
  | none => (.invalid, 0)

def scan (reader : InputReader) : DateToken × InputReader :=
  if reader.isEnd then (.endOfInput, reader)
  else if reader.isAsciiDigit then
    let (n, after) := readUnsignedNumeral reader
    (.number n (after.position - reader.position), after)
  else if reader.ch = 58 ∨ reader.ch = 45 ∨ reader.ch = 43 ∨ reader.ch = 46 ∨ reader.ch = 41 then
    (.symbol reader.ch, reader.next)
  else if reader.isAsciiAlphaOrAbove then
    let (buffer, length, after) := readWord reader kPrefixLength
    (.keyword (lookup buffer length).1 (lookup buffer length).2 length, after)
  else if isWhiteSpace reader.ch then (.whiteSpace 1, reader.next)
  else if reader.ch = 40 then (.unknown, skipParenthesesLoop reader.position 0 reader.rest)
  else (.unknown, reader.next)

/-- A tokenizer has scanned one token. -/
structure DateStringTokenizer where
  reader : InputReader
  peek : DateToken

def tokenizer (reader : InputReader) : DateStringTokenizer := ⟨(scan reader).2, (scan reader).1⟩

/-- The tokenizer after `Next`, whose token is the one that was peeked. -/
def DateStringTokenizer.next (scanner : DateStringTokenizer) : DateStringTokenizer :=
  tokenizer scanner.reader

/-! ## Composers -/

structure DayComposer where
  comp : List Int
  namedMonth : Int
  isIsoDate : Bool

structure TimeComposer where
  comp : List Int
  hourOffset : Int

structure TimeZoneComposer where
  sign : Int
  hour : Int
  minute : Int

structure Output where
  year : Int
  month : Int
  day : Int
  hour : Int
  minute : Int
  second : Int
  millisecond : Int
  utcOffset : Option Int
  deriving DecidableEq

/-- A target with small integers of 32 or of 31 bits. -/
def smiIsValid (wide : Bool) (n : Int) : Bool :=
  if wide then between n (-2 ^ 31) (2 ^ 31 - 1) else between n (-2 ^ 30) (2 ^ 30 - 1)

namespace DayComposer

def kSize : Nat := 3

def isMonth (x : Int) : Bool := between x 1 12
def isDay (x : Int) : Bool := between x 1 31

def isEmpty (day : DayComposer) : Bool := day.comp.length = 0

def add (day : DayComposer) (n : Int) : Bool × DayComposer :=
  if day.comp.length < kSize then (true, { day with comp := day.comp ++ [n] }) else (false, day)

/-- Year, month and day, where the index has been set to the size by the defaults. -/
def fields (day : DayComposer) : Int × Int × Int :=
  let comp := day.comp ++ List.replicate (kSize - day.comp.length) 1
  let comp0 := comp.getD 0 0
  let comp1 := comp.getD 1 0
  let comp2 := comp.getD 2 0
  if day.namedMonth = kNone then
    if day.isIsoDate || !isDay comp0 then (comp0, comp1, comp2) else (comp2, comp0, comp1)
  else if !isDay comp0 then (comp0, day.namedMonth, comp1)
  else (comp1, day.namedMonth, comp0)

def write (wide : Bool) (day : DayComposer) : Option (Int × Int × Int) :=
  if day.comp.length < 1 then none
  else
    let (year, month, dayOfMonth) := day.fields
    let year :=
      if day.isIsoDate then year
      else if between year 0 49 then year + 2000
      else if between year 50 99 then year + 1900
      else year
    if !smiIsValid wide year || !isMonth month || !isDay dayOfMonth then none
    else some (year, month - 1, dayOfMonth)

end DayComposer

namespace TimeComposer

def kSize : Nat := 4

def isMinute (x : Int) : Bool := between x 0 59
def isHour (x : Int) : Bool := between x 0 23
def isSecond (x : Int) : Bool := between x 0 59
def isHour12 (x : Int) : Bool := between x 0 12
def isMillisecond (x : Int) : Bool := between x 0 999

def isEmpty (time : TimeComposer) : Bool := time.comp.length = 0

def isExpecting (time : TimeComposer) (n : Int) : Bool :=
  (time.comp.length = 1 && isMinute n) || (time.comp.length = 2 && isSecond n) ||
    (time.comp.length = 3 && isMillisecond n)

def add (time : TimeComposer) (n : Int) : Bool × TimeComposer :=
  if time.comp.length < kSize then (true, { time with comp := time.comp ++ [n] }) else (false, time)

def fill (comp : List Int) : List Int := comp ++ List.replicate (kSize - comp.length) 0

def addFinal (time : TimeComposer) (n : Int) : TimeComposer :=
  if (time.add n).1 then { (time.add n).2 with comp := fill (time.add n).2.comp } else time

def write (time : TimeComposer) : Option (Int × Int × Int × Int) :=
  let comp := fill time.comp
  let hour := comp.getD 0 0
  let minute := comp.getD 1 0
  let second := comp.getD 2 0
  let millisecond := comp.getD 3 0
  if time.hourOffset ≠ kNone ∧ isHour12 hour = false then none
  else
    let hour := if time.hourOffset ≠ kNone then hour % 12 + time.hourOffset else hour
    if !isHour hour || !isMinute minute || !isSecond second || !isMillisecond millisecond then none
    else some (hour, minute, second, millisecond)

end TimeComposer

namespace TimeZoneComposer

def set (offsetInHours : Int) : TimeZoneComposer :=
  let sign := if offsetInHours < 0 then -1 else 1
  ⟨sign, offsetInHours * sign, 0⟩

def setSign (sign : Int) (tz : TimeZoneComposer) : TimeZoneComposer :=
  { tz with sign := if sign < 0 then -1 else 1 }

def setAbsoluteHour (hour : Int) (tz : TimeZoneComposer) : TimeZoneComposer := { tz with hour := hour }

def setAbsoluteMinute (minute : Int) (tz : TimeZoneComposer) : TimeZoneComposer :=
  { tz with minute := minute }

def isExpecting (tz : TimeZoneComposer) (n : Int) : Bool :=
  tz.hour ≠ kNone && tz.minute = kNone && TimeComposer.isMinute n

def isUTC (tz : TimeZoneComposer) : Bool := tz.hour = 0 && tz.minute = 0

def isEmpty (tz : TimeZoneComposer) : Bool := tz.hour = kNone

/-- None for an offset that is no small integer, and some of none where there is no time zone. -/
def write (wide : Bool) (tz : TimeZoneComposer) : Option (Option Int) :=
  if tz.sign ≠ kNone then
    let hour := if tz.hour = kNone then 0 else tz.hour
    let minute := if tz.minute = kNone then 0 else tz.minute
    let totalSeconds := (tz.sign * (hour * 3600 + minute * 60)).bmod (2 ^ 32)
    if !smiIsValid wide totalSeconds then none else some (some totalSeconds)
  else some none

end TimeZoneComposer

structure State where
  scanner : DateStringTokenizer
  day : DayComposer
  time : TimeComposer
  tz : TimeZoneComposer

/-- The first three digits of a fraction, of which the value of nine is known. -/
def readMilliseconds (number length : Nat) : Nat :=
  if length < 3 then
    if length = 1 then number * 100 else if length = 2 then number * 10 else number
  else number / 10 ^ (min length kMaxSignificantDigits - 3)

/-! ## ES5 dates -/

/-- The designation of a time zone, or nothing. None is an invalid token. -/
def parseES5TimeZone (s : State) : Option State :=
  if s.scanner.peek.isKeywordZ then some { s with scanner := s.scanner.next, tz := .set 0 }
  else if s.scanner.peek.isSymbol 43 || s.scanner.peek.isSymbol 45 then
    let tz := s.tz.setSign (if s.scanner.peek.isSymbol 43 then 1 else -1)
    let scanner := s.scanner.next
    match scanner.peek.fixedLengthNumber 4 with
    | some hourmin =>
      let hour := hourmin / 100
      let min := hourmin % 100
      if !TimeComposer.isHour hour || !TimeComposer.isMinute min then none
      else some { s with scanner := scanner.next, tz := (tz.setAbsoluteHour hour).setAbsoluteMinute min }
    | none =>
      match scanner.peek.fixedLengthNumber 2 with
      | none => none
      | some hour =>
        if !TimeComposer.isHour hour then none
        else
          let scanner := scanner.next
          if !scanner.peek.isSymbol 58 then none
          else
            let scanner := scanner.next
            match scanner.peek.fixedLengthNumber 2 with
            | none => none
            | some min =>
              if !TimeComposer.isMinute min then none
              else some { s with
                scanner := scanner.next
                tz := (tz.setAbsoluteHour hour).setAbsoluteMinute min }
  else some s

/-- The fraction after its point. -/
def parseES5Fraction (hourIs24 : Bool) (s : State) : Option State :=
  match s.scanner.peek with
  | .number value length =>
    if hourIs24 && value > 0 then none
    else some { s with
      scanner := s.scanner.next
      time := (s.time.add (readMilliseconds value length)).2 }
  | _ => none

/-- The seconds after their colon. -/
def parseES5Seconds (hourIs24 : Bool) (s : State) : Option State :=
  match s.scanner.peek.fixedLengthNumber 2 with
  | none => none
  | some second =>
    if !TimeComposer.isSecond second || (hourIs24 && second > 0) then none
    else
      let s := { s with scanner := s.scanner.next, time := (s.time.add second).2 }
      if s.scanner.peek.isSymbol 46 then
        parseES5Fraction hourIs24 { s with scanner := s.scanner.next }
      else some s

/-- The time of day, from the hour on. -/
def parseES5TimeOfDay (s : State) : Option State :=
  match s.scanner.peek.fixedLengthNumber 2 with
  | none => none
  | some hour =>
    if !between hour 0 24 then none
    else
      let hourIs24 : Bool := hour = 24
      let s := { s with scanner := s.scanner.next, time := (s.time.add hour).2 }
      if !s.scanner.peek.isSymbol 58 then none
      else
        let s := { s with scanner := s.scanner.next }
        match s.scanner.peek.fixedLengthNumber 2 with
        | none => none
        | some minute =>
          if !TimeComposer.isMinute minute || (hourIs24 && minute > 0) then none
          else
            let s := { s with scanner := s.scanner.next, time := (s.time.add minute).2 }
            if s.scanner.peek.isSymbol 58 then
              parseES5Seconds hourIs24 { s with scanner := s.scanner.next }
            else some s

/-- The end of a string that was parsed. -/
def finishES5 (s : State) : DateToken × State :=
  (.endOfInput, { s with
    tz := if s.tz.isEmpty then .set 0 else s.tz
    day := { s.day with isIsoDate := true } })

/-- The part after the separator of the time. -/
def parseES5Time (s : State) : DateToken × State :=
  match parseES5TimeOfDay s with
  | none => (.invalid, s)
  | some s =>
    match parseES5TimeZone s with
    | none => (.invalid, s)
    | some s => if s.scanner.peek ≠ .endOfInput then (.invalid, s) else finishES5 s

/-- The part after the date. A token that is not handled goes back to the legacy parser. -/
def parseES5AfterDate (s : State) : DateToken × State :=
  if !s.scanner.peek.isKeywordType .timeSeparator then
    if s.scanner.peek ≠ .endOfInput then (s.scanner.peek, { s with scanner := s.scanner.next })
    else finishES5 s
  else parseES5Time { s with scanner := s.scanner.next }

/-- A month or a day with its bounds, after its separator. -/
def parseES5Component (inRange : Int → Bool) (s : State) (rest : State → DateToken × State) :
    DateToken × State :=
  match s.scanner.peek.fixedLengthNumber 2 with
  | none => (s.scanner.peek, { s with scanner := s.scanner.next })
  | some n =>
    if !inRange n then (s.scanner.peek, { s with scanner := s.scanner.next })
    else rest { s with scanner := s.scanner.next, day := (s.day.add n).2 }

/-- The part after the year. -/
def parseES5AfterYear (s : State) : DateToken × State :=
  if s.scanner.peek.isSymbol 45 then
    parseES5Component DayComposer.isMonth { s with scanner := s.scanner.next } fun s =>
      if s.scanner.peek.isSymbol 45 then
        parseES5Component DayComposer.isDay { s with scanner := s.scanner.next } parseES5AfterDate
      else parseES5AfterDate s
  else parseES5AfterDate s

def parseES5DateTime (s : State) : DateToken × State :=
  if s.scanner.peek.isAsciiSign then
    let signToken := s.scanner.peek
    let sign : Int := if s.scanner.peek.isSymbol 43 then 1 else -1
    let s := { s with scanner := s.scanner.next }
    match s.scanner.peek.fixedLengthNumber 6 with
    | none => (signToken, s)
    | some year =>
      let s := { s with scanner := s.scanner.next }
      if sign < 0 ∧ year = 0 then (signToken, s)
      else parseES5AfterYear { s with day := (s.day.add (sign * year)).2 }
  else
    match s.scanner.peek.fixedLengthNumber 4 with
    | none => (s.scanner.peek, { s with scanner := s.scanner.next })
    | some year => parseES5AfterYear { s with scanner := s.scanner.next, day := (s.day.add year).2 }

/-! ## Legacy dates -/

def DateStringTokenizer.skipSymbol (scanner : DateStringTokenizer) (c : Nat) : Bool × DateStringTokenizer :=
  if scanner.peek.isSymbol c then (true, scanner.next) else (false, scanner)

/-- A number, after which the symbols behind it were tried. -/
def legacyPlainNumber (n : Nat) (s : State) : Option State :=
  if s.tz.isExpecting n then some { s with tz := s.tz.setAbsoluteMinute n }
  else if s.time.isExpecting n then
    let s := { s with time := s.time.addFinal n }
    match s.scanner.peek with
    | .endOfInput => some s
    | .whiteSpace _ => some s
    | token => if token.isKeywordZ || token.isAsciiSign then some s else none
  else if (s.day.add n).1 then
    some { s with day := (s.day.add n).2, scanner := (s.scanner.skipSymbol 45).2 }
  else none

def legacyNumber (n : Nat) (s : State) : Option State :=
  if s.scanner.peek.isSymbol 58 then
    let s := { s with scanner := s.scanner.next }
    if s.scanner.peek.isSymbol 58 then
      if s.time.isEmpty then
        some { s with scanner := s.scanner.next, time := ((s.time.add n).2.add 0).2 }
      else none
    else if (s.time.add n).1 then
      some { s with time := (s.time.add n).2, scanner := (s.scanner.skipSymbol 46).2 }
    else none
  else if s.scanner.peek.isSymbol 46 then
    let s := { s with scanner := s.scanner.next }
    if s.time.isExpecting n then
      match s.scanner.peek with
      | .number value length => some { s with
          scanner := s.scanner.next
          time := ((s.time.add n).2).addFinal (readMilliseconds value length) }
      | _ => none
    else legacyPlainNumber n s
  else legacyPlainNumber n s

/-- A sign after a time or a zone, from the token behind it on. -/
def legacySign (sign : Int) (s : State) : State :=
  let (n, scanner) := match s.scanner.peek with
    | .number value _ => (value, s.scanner.next)
    | _ => (0, s.scanner)
  let tz := s.tz.setSign sign
  { s with
    scanner := scanner
    tz := if scanner.peek.isSymbol 58 then (tz.setAbsoluteHour n).setAbsoluteMinute kNone
      else (tz.setAbsoluteHour (n / 100 : Nat)).setAbsoluteMinute (n % 100 : Nat) }

def legacyKeyword (type : KeywordType) (value : Int) (hasReadNumber : Bool) (s : State) : Option State :=
  if type = .amPm ∧ s.time.isEmpty = false then
    some { s with time := { s.time with hourOffset := value } }
  else if type = .monthName then
    some { s with day := { s.day with namedMonth := value }, scanner := (s.scanner.skipSymbol 45).2 }
  else if type = .timeZoneName ∧ hasReadNumber = true then some { s with tz := .set value }
  else if hasReadNumber then none
  else some s

/-- One turn of the loop of `Parse`: whether a number was read, and the state. None is false. -/
def legacyToken (token : DateToken) (hasReadNumber : Bool) (s : State) : Option (Bool × State) :=
  match token with
  | .number n _ => (legacyNumber n s).map fun s => (true, s)
  | .keyword type value _ => (legacyKeyword type value hasReadNumber s).map fun s => (hasReadNumber, s)
  | token =>
    if token.isAsciiSign && (s.tz.isUTC || !s.time.isEmpty) then
      some (true, legacySign (if token.isSymbol 43 then 1 else -1) s)
    else if (token.isAsciiSign || token.isSymbol 41) && hasReadNumber then none
    else some (hasReadNumber, s)

/-- Every turn but the last one takes a character. -/
def legacyLoop : Nat → DateToken → Bool → State → Option State
  | 0, _, _, _ => none
  | turns + 1, token, hasReadNumber, s =>
    if token = .endOfInput then some s
    else
      match legacyToken token hasReadNumber s with
      | none => none
      | some (hasReadNumber, s) =>
        legacyLoop turns s.scanner.peek hasReadNumber { s with scanner := s.scanner.next }

/-! ## Parse -/

def write (wide : Bool) (s : State) : Option Output :=
  match s.day.write wide, s.time.write, s.tz.write wide with
  | some (year, month, day), some (hour, minute, second, millisecond), some utcOffset =>
    some ⟨year, month, day, hour, minute, second, millisecond, utcOffset⟩
  | _, _, _ => none

def start (str : List Nat) : State :=
  ⟨tokenizer ⟨1, str⟩, ⟨[], kNone, false⟩, ⟨[], kNone⟩, ⟨kNone, kNone, kNone⟩⟩

def parse (wide : Bool) (str : List Nat) : Option Output :=
  match parseES5DateTime (start str) with
  | (token, s) =>
    if token = .invalid then none
    else
      match legacyLoop (str.length + 2) token (!s.day.isEmpty) s with
      | none => none
      | some s => write wide s

end W16.DateParsing
