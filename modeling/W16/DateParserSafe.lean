import W16.DateTokens

/-!
# The ints of the date parser

Everything `Parse` computes fits in an int but the offset, whose hours are a numeral that no one
compares with a clock on the way of the legacy dates.
-/
namespace W16.DateParsing

open List

open DateTimes (Digit value value_lt)
open StringNumbers (isDigit)

set_option linter.dupNamespace false

def IntFits (n : Int) : Prop := -2 ^ 31 ≤ n ∧ n ≤ 2 ^ 31 - 1

/-! ## The ints that are computed -/

/-- `x - lo`, for the bounds that a value is compared with. -/
def BetweenFits (x : Int) : Prop := ∀ lo : Int, 0 ≤ lo → lo ≤ 50 → IntFits (x - lo)

/-- The loop that reads a numeral. -/
def NumeralFits (n i : Nat) : List Nat → Prop
  | [] => True
  | c :: cs => isDigit c = true → (i < kMaxSignificantDigits → IntFits (n * 10) ∧ IntFits (n * 10 + c)) ∧
      NumeralFits (if i < kMaxSignificantDigits then n * 10 + (c - 48) else n) (i + 1) cs

/-- `ReadMilliseconds`, with the factors of its loop. -/
def MillisecondsFit (number length : Nat) : Prop :=
  (length = 1 → IntFits (number * 100)) ∧ (length = 2 → IntFits (number * 10)) ∧
    ∀ k : Nat, k ≤ min length kMaxSignificantDigits - 3 → IntFits (10 ^ k)

/-- What is done with the value of a token: a sign, a comparison, a scaling. -/
def TokenFits : DateToken → Prop
  | .number value length => IntFits (-value) ∧ BetweenFits value ∧ MillisecondsFit value length
  | .keyword _ value _ => IntFits (-value) ∧ BetweenFits value
  | _ => True

def DayFits (day : DayComposer) : Prop :=
  (∀ x ∈ day.comp, BetweenFits x) ∧ BetweenFits day.namedMonth ∧
    (between day.fields.1 0 49 = true → IntFits (day.fields.1 + 2000)) ∧
    (between day.fields.1 50 99 = true → IntFits (day.fields.1 + 1900)) ∧
    (DayComposer.isMonth day.fields.2.1 = true → IntFits (day.fields.2.1 - 1))

def TimeFits (time : TimeComposer) : Prop :=
  (∀ x ∈ time.comp, BetweenFits x) ∧
    (time.hourOffset ≠ kNone → TimeComposer.isHour12 ((TimeComposer.fill time.comp).getD 0 0) = true →
      IntFits ((TimeComposer.fill time.comp).getD 0 0 % 12 + time.hourOffset))

namespace TimeZoneComposer

def hours (tz : TimeZoneComposer) : Int := if tz.hour = kNone then 0 else tz.hour

def minutes (tz : TimeZoneComposer) : Int := if tz.minute = kNone then 0 else tz.minute

end TimeZoneComposer

def OffsetFits (tz : TimeZoneComposer) : Prop :=
  tz.sign ≠ kNone → IntFits (tz.hours * 3600) ∧ IntFits (tz.minutes * 60) ∧
    IntFits (tz.hours * 3600 + tz.minutes * 60) ∧ IntFits (tz.sign * (tz.hours * 3600 + tz.minutes * 60))

/-- `day.Write(out) && time.Write(out) && tz.Write(out)` -/
def WriteFits (wide : Bool) (s : State) : Prop :=
  DayFits s.day ∧ (s.day.write wide ≠ none → TimeFits s.time ∧ (s.time.write ≠ none → OffsetFits s.tz))

/-! ## Tokens -/

/-- What is known of the value of a token. -/
def TokenOk : DateToken → Prop
  | .number value length => value < 10 ^ min length kMaxSignificantDigits
  | .keyword type value _ => -8 ≤ value ∧ value ≤ 12 ∧ (type = .amPm → value = 0 ∨ value = 12)
  | _ => True

variable {length n m : Nat} {scanner : DateStringTokenizer} {day : DayComposer}
  {time : TimeComposer} {tz : TimeZoneComposer} {s s' : State}

theorem number_lt {value : Nat} (h : value < 10 ^ min length kMaxSignificantDigits) : value < 10 ^ 9 :=
  lt_of_lt_of_le h (Nat.pow_le_pow_right (by decide) (min_le_right _ _))

theorem lookup_ok (pre : List Nat) (len : Nat) : -8 ≤ (lookup pre len).2 ∧ (lookup pre len).2 ≤ 12 ∧
      ((lookup pre len).1 = .amPm → (lookup pre len).2 = 0 ∨ (lookup pre len).2 = 12) := by
  have hall : ∀ entry ∈ keywordTable, -8 ≤ entry.2.2 ∧ entry.2.2 ≤ 12 ∧
      (entry.2.1 = .amPm → entry.2.2 = 0 ∨ entry.2.2 = 12) := by decide
  rw [lookup]
  split
  case h_1 entry hfind => exact hall entry (mem_of_find?_eq_some hfind)
  case h_2 => decide

theorem scan_ok (p : Nat) (r : List Nat) : TokenOk (scan ⟨p, r⟩).1 := by
  have hscan := scanned p r
  generalize scan ⟨p, r⟩ = result at hscan
  cases hscan with
  | ended | symbol | space | unknown => trivial
  | word => exact lookup_ok _ _
  | @number ds r' hr hne hds hstop =>
    have hlt := @value_lt (ds.take kMaxSignificantDigits) fun c hc => hds c (mem_of_mem_take hc)
    rwa [length_take, min_comm] at hlt

theorem readUnsignedNumeralLoop_rest (r : List Nat) :
    ∀ p n i, (readUnsignedNumeralLoop p n i r).2.rest.length ≤ r.length := by
  induction r with
  | nil => simp [readUnsignedNumeralLoop]
  | cons c cs ih =>
    intro p n i
    rw [readUnsignedNumeralLoop]
    split
    · exact (ih _ _ _).trans (Nat.le_succ _)
    · exact le_rfl

theorem readWordLoop_rest (r : List Nat) :
    ∀ p start len size, (readWordLoop p start len size r).2.2.rest.length ≤ r.length := by
  induction r with
  | nil => simp [readWordLoop]
  | cons c cs ih =>
    intro p start len size
    rw [readWordLoop]
    split
    · exact (ih _ _ _ _).trans (Nat.le_succ _)
    · exact le_rfl

theorem skipParenthesesLoop_rest (r : List Nat) :
    ∀ p balance, (skipParenthesesLoop p balance r).rest.length ≤ r.length - 1 := by
  induction r with
  | nil => simp [skipParenthesesLoop]
  | cons c cs ih =>
    intro p balance
    rw [skipParenthesesLoop]
    generalize (if c = 41 then balance - 1 else if c = 40 then balance + 1 else balance) = balance
    split
    · exact (ih _ _).trans (Nat.sub_le _ _)
    · simp

/-- A token that is not the end takes a character. -/
theorem scan_rest (reader : InputReader) :
    (scan reader).1 = .endOfInput ∨ (scan reader).2.rest.length < reader.rest.length := by
  obtain ⟨p, r⟩ := reader
  by_cases hend : Ended r
  · rw [scan_ended hend]
    exact .inl rfl
  obtain ⟨c, cs, rfl⟩ : ∃ c cs, r = c :: cs := by
    cases r with
    | nil => exact (hend rfl).elim
    | cons c cs => exact ⟨c, cs, rfl⟩
  have hisEnd : InputReader.isEnd ⟨p, c :: cs⟩ = false := decide_eq_false hend
  refine .inr (Nat.lt_succ_of_le ?_)
  rw [scan, hisEnd, if_neg Bool.false_ne_true]
  by_cases hdigit : InputReader.isAsciiDigit ⟨p, c :: cs⟩ = true
  · have hc : isDigit c = true := hdigit
    rw [if_pos hdigit]
    show (readUnsignedNumeralLoop p 0 0 (c :: cs)).2.rest.length ≤ _
    rw [readUnsignedNumeralLoop, if_pos hc]
    exact readUnsignedNumeralLoop_rest _ _ _ _
  rw [if_neg hdigit]
  split
  · exact le_rfl
  by_cases hletter : InputReader.isAsciiAlphaOrAbove ⟨p, c :: cs⟩ = true
  · have hc : c ≥ 65 := of_decide_eq_true hletter
    rw [if_pos hletter]
    show (readWordLoop p [] 0 kPrefixLength (c :: cs)).2.2.rest.length ≤ _
    rw [readWordLoop, if_pos hc]
    exact readWordLoop_rest _ _ _ _ _
  rw [if_neg hletter]
  split
  · exact le_rfl
  split
  · exact skipParenthesesLoop_rest _ _ _
  · exact le_rfl

/-- The characters that are left behind the token that was peeked, and one for the token. -/
def left (scanner : DateStringTokenizer) : Nat :=
  if scanner.peek = .endOfInput then 0 else scanner.reader.rest.length + 1

/-- A tokenizer somewhere in the text. -/
structure Stands (n : Nat) (scanner : DateStringTokenizer) : Prop where
  scans : ∃ p r, scanner = tok p r
  left_le : left scanner ≤ n

theorem Stands.peek_ok (h : Stands n scanner) : TokenOk scanner.peek := by
  obtain ⟨p, r, rfl⟩ := h.scans
  exact scan_ok p r

theorem left_tok_le (p : Nat) (r : List Nat) : left (tok p r) ≤ r.length := by
  unfold left
  split
  · exact Nat.zero_le _
  case isFalse hne => exact (scan_rest ⟨p, r⟩).resolve_left hne

theorem Stands.next (h : Stands n scanner) : Stands (n - 1) scanner.next := by
  refine ⟨⟨scanner.reader.position, scanner.reader.rest, rfl⟩, ?_⟩
  by_cases hend : scanner.peek = .endOfInput
  · obtain ⟨p, r, rfl⟩ := h.scans
    have hr : Ended r := ended_of_peek hend
    have hnext : (tok p r).next = tok p r := (tok_next (scan_ended hr)).2
    rw [hnext, left, if_pos hend]
    exact Nat.zero_le _
  · have hle := h.left_le
    rw [left, if_neg hend] at hle
    exact (left_tok_le _ _).trans (Nat.le_sub_of_add_le hle)

theorem Stands.mono (h : Stands n scanner) (hnm : n ≤ m) : Stands m scanner :=
  ⟨h.scans, h.left_le.trans hnm⟩

theorem Stands.skip (h : Stands n scanner) : Stands n scanner.next :=
  h.next.mono (Nat.sub_le n 1)

theorem Stands.number_lt {v : Nat} (h : Stands n scanner)
    (hv : scanner.peek = .number v length) : v < 10 ^ 9 := by
  have hok := h.peek_ok
  rw [hv] at hok
  exact W16.DateParsing.number_lt hok

/-! ## What the composers hold -/

structure DayComposer.Ok (day : DayComposer) : Prop where
  comp : ∀ x ∈ day.comp, -10 ^ 9 ≤ x ∧ x ≤ 10 ^ 9
  month : -10 ^ 9 ≤ day.namedMonth ∧ day.namedMonth ≤ kNone

structure TimeComposer.Ok (time : TimeComposer) : Prop where
  comp : ∀ x ∈ time.comp, -10 ^ 9 ≤ x ∧ x ≤ 10 ^ 9
  offset : time.hourOffset = kNone ∨ time.hourOffset = 0 ∨ time.hourOffset = 12

structure TimeZoneComposer.Ok (tz : TimeZoneComposer) : Prop where
  sign : tz.sign = kNone ∨ tz.sign = 1 ∨ tz.sign = -1
  hour : 0 ≤ tz.hour
  minute : tz.minute = kNone ∨ 0 ≤ tz.minute ∧ tz.minute ≤ 99

theorem DayComposer.Ok.add (h : day.Ok) {n : Int} (hlo : -10 ^ 9 ≤ n)
    (hhi : n ≤ 10 ^ 9) : (day.add n).2.Ok := by
  unfold DayComposer.add
  split
  · refine ⟨fun x hx => ?_, h.month⟩
    rcases mem_append.1 hx with hx | hx
    · exact h.comp x hx
    · rw [mem_singleton.1 hx]
      exact ⟨hlo, hhi⟩
  · exact h

theorem TimeComposer.Ok.add (h : time.Ok) {n : Int} (hlo : -10 ^ 9 ≤ n)
    (hhi : n ≤ 10 ^ 9) : (time.add n).2.Ok := by
  unfold TimeComposer.add
  split
  · refine ⟨fun x hx => ?_, h.offset⟩
    rcases mem_append.1 hx with hx | hx
    · exact h.comp x hx
    · rw [mem_singleton.1 hx]
      exact ⟨hlo, hhi⟩
  · exact h

theorem TimeComposer.Ok.addFinal (h : time.Ok) {n : Int} (hlo : -10 ^ 9 ≤ n)
    (hhi : n ≤ 10 ^ 9) : (time.addFinal n).Ok := by
  unfold TimeComposer.addFinal
  split
  · refine ⟨fun x hx => ?_, (h.add hlo hhi).offset⟩
    rcases mem_append.1 hx with hx | hx
    · exact (h.add hlo hhi).comp x hx
    · rw [eq_of_mem_replicate hx]
      decide
  · exact h

theorem TimeZoneComposer.Ok.setSign (h : tz.Ok) (sign : Int) : (tz.setSign sign).Ok := by
  refine ⟨.inr ?_, h.hour, h.minute⟩
  unfold TimeZoneComposer.setSign
  simp only
  split <;> simp

/-- A state of `Parse` with so many characters to go. -/
structure Good (n : Nat) (s : State) : Prop where
  stands : Stands n s.scanner
  day : s.day.Ok
  time : s.time.Ok
  tz : s.tz.Ok

theorem Good.skip (h : Good n s) : Good n { s with scanner := s.scanner.next } :=
  ⟨h.stands.skip, h.day, h.time, h.tz⟩

/-- A token to go on with. -/
def Goes (n : Nat) (result : DateToken × State) : Prop := TokenOk result.1 ∧ Good n result.2

/-- The token that was not handled. -/
theorem Good.unhandled (h : Good n s) : Goes n (s.scanner.peek, { s with scanner := s.scanner.next }) :=
  ⟨h.stands.peek_ok, h.skip⟩

theorem Good.skipSymbol (h : Good n s) (c : Nat) : Stands n (s.scanner.skipSymbol c).2 := by
  unfold DateStringTokenizer.skipSymbol
  split
  · exact h.stands.skip
  · exact h.stands

/-- The turns of the loop, and what it ends with: none where `Parse` returns false. -/
inductive LegacyRun : DateToken → Bool → State → Option State → Prop
  | ended {read : Bool} {s : State} : LegacyRun .endOfInput read s (some s)
  | failed {token : DateToken} {read : Bool} {s : State} : token ≠ .endOfInput →
      legacyToken token read s = none → LegacyRun token read s none
  | turn {token : DateToken} {read read' : Bool} {s s' : State} {result : Option State} :
      token ≠ .endOfInput → legacyToken token read s = some (read', s') →
      LegacyRun s'.scanner.peek read' { s' with scanner := s'.scanner.next } result →
      LegacyRun token read s result

/-- What the tokens of a text leave in the composers. -/
def composed (str : List Nat) : Option State :=
  match parseES5DateTime (start str) with
  | (token, s) =>
    if token = .invalid then none else legacyLoop (str.length + 2) token (!s.day.isEmpty) s

/-- `Parse` comes to its end. -/
def Terminates (str : List Nat) : Prop :=
  match parseES5DateTime (start str) with
  | (token, s) => token = .invalid ∨ LegacyRun token (!s.day.isEmpty) s (composed str)

structure OutputOk (tz : TimeZoneComposer) (out : Output) : Prop where
  month : 0 ≤ out.month ∧ out.month ≤ 11
  day : 1 ≤ out.day ∧ out.day ≤ 31
  hour : 0 ≤ out.hour ∧ out.hour ≤ 23
  minute : 0 ≤ out.minute ∧ out.minute ≤ 59
  second : 0 ≤ out.second ∧ out.second ≤ 59
  millisecond : 0 ≤ out.millisecond ∧ out.millisecond ≤ 999
  utcOffset : out.utcOffset =
    if tz.sign = kNone then none else some (tz.sign * (tz.hours * 3600 + tz.minutes * 60))

structure Safe (wide : Bool) (str : List Nat) : Prop where
  terminates : Terminates str
  numerals : ∀ reader : InputReader, NumeralFits 0 0 reader.rest
  tokens : ∀ reader, TokenFits (scan reader).1
  writes : ∀ s, composed str = some s → WriteFits wide s
  output : ∀ out, parse wide str = some out → ∃ s, composed str = some s ∧ OutputOk s.tz out

end W16.DateParsing
