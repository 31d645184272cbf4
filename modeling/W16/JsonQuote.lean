import W16.JsonStrings

/-!
# Quoting JSON strings

`QuoteJsonString` and its two writers, with `int` lengths. A string that is written knows the space
that was allocated for it.
-/
namespace W16.JsonQuoting

open List

open JsonParsing (Source)

/-! ## Tables -/

def kQuoteTableLength : Nat := 128
def kJsonQuotesCharactersPerEntry : Nat := 8

def jsonQuotesRows : List String :=
  ["\\u0000  \\u0001  \\u0002  \\u0003  ", "\\u0004  \\u0005  \\u0006  \\u0007  ",
   "\\b      \\t      \\n      \\u000b  ",
   "\\f      \\r      \\u000e  \\u000f  ",
   "\\u0010  \\u0011  \\u0012  \\u0013  ",
   "\\u0014  \\u0015  \\u0016  \\u0017  ",
   "\\u0018  \\u0019  \\u001a  \\u001b  ",
   "\\u001c  \\u001d  \\u001e  \\u001f  ",
   "        !       \\\"      #       ",
   "$       %       &       '       ",
   "(       )       *       +       ",
   ",       -       .       /       ",
   "0       1       2       3       ",
   "4       5       6       7       ",
   "8       9       :       ;       ",
   "<       =       >       ?       ",
   "@       A       B       C       ",
   "D       E       F       G       ",
   "H       I       J       K       ",
   "L       M       N       O       ",
   "P       Q       R       S       ",
   "T       U       V       W       ",
   "X       Y       Z       [       ",
   "\\\\      ]       ^       _       ",
   "`       a       b       c       ",
   "d       e       f       g       ",
   "h       i       j       k       ",
   "l       m       n       o       ",
   "p       q       r       s       ",
   "t       u       v       w       ",
   "x       y       z       \x7b       ",
   "|       \x7d       ~       \x7f       "]

def jsonQuotes : List Nat := jsonQuotesRows.flatMap fun row => row.toList.map Char.toNat

def jsonQuoteLengths : List Nat :=
  [6, 6, 6, 6, 6, 6, 6, 6, 2, 2, 2, 6, 2, 2, 6, 6, 6, 6, 6, 6, 6, 6, 6, 6, 6, 6, 6, 6, 6, 6, 6, 6,
   1, 1, 2, 1, 1, 1, 1, 1,
   1, 1, 1, 1, 1, 1, 1, 1,
   1, 1, 1, 1, 1, 1, 1, 1,
   1, 1, 1, 1, 1, 1, 1, 1,
   1, 1, 1, 1, 1, 1, 1, 1,
   1, 1, 1, 1, 1, 1, 1, 1,
   1, 1, 1, 1, 1, 1, 1, 1,
   1, 1, 1, 1, 2, 1, 1, 1,
   1, 1, 1, 1, 1, 1, 1, 1,
   1, 1, 1, 1, 1, 1, 1, 1,
   1, 1, 1, 1, 1, 1, 1, 1,
   1, 1, 1, 1, 1, 1, 1, 1]

def jsonQuoteLength (c : Nat) : Nat := jsonQuoteLengths.getD c 0

/-- What is at an entry, and after it. -/
def replacement (c : Nat) : List Nat := jsonQuotes.drop (c * kJsonQuotesCharactersPerEntry)

/-! ## Allocation -/

/-- A target with pointers of four or eight bytes, and what new space takes. -/
structure Heap where
  wide : Bool
  inNewSpace : Int → Bool

/-- The string of a request, or none where it was refused. -/
inductive Outcome where
  | outOfMemory
  | string (allocated : Int) (written : List Nat)

def kMaxSize : Int := 512 * 2 ^ 20 - 1

def Heap.kHeaderSize (heap : Heap) : Int := if heap.wide then 24 else 12

/-- `kMaxLength` of `SeqAsciiString` and of `SeqTwoByteString`. -/
def Heap.kMaxLength (heap : Heap) (oneByte : Bool) : Int :=
  if oneByte then kMaxSize - heap.kHeaderSize else (kMaxSize - heap.kHeaderSize) / 2

/-- Only lengths that no string has are refused. -/
def Heap.allocateRawString (heap : Heap) (oneByte : Bool) (length : Int) : Bool :=
  !(length < 0 || length > heap.kMaxLength oneByte)

/-! ## Writers -/

def kMaxGuaranteedNewSpaceString : Int := 32 * 1024
def kJsonQuoteWorstCaseBlowup : Int := 6
def kSpaceForQuotesAndComma : Int := 3

/-- The value of an `int`. -/
def int (n : Int) : Int := n.bmod (2 ^ 32)

variable (heap : Heap) (source : Source)

def commaChars (comma : Bool) : List Nat := if comma then [44] else []

def quotedLengthLoop : List Nat → Int → Int
  | [], quotedLength => quotedLength
  | c :: cs, quotedLength =>
    if source.oneByte = false ∧ c ≥ kQuoteTableLength then quotedLengthLoop cs (int (quotedLength + 1))
    else quotedLengthLoop cs (int (quotedLength + jsonQuoteLength c))

/-- The characters that the slow writer puts in place of each one. -/
def slowWriteLoop : List Nat → List Nat
  | [] => []
  | c :: cs =>
    if source.oneByte = false ∧ c ≥ kQuoteTableLength then c :: slowWriteLoop cs
    else (replacement c).take (jsonQuoteLength c) ++ slowWriteLoop cs

def slowQuoteJsonString (comma : Bool) : Outcome :=
  let kSpaceForQuotes : Int := 2 + (if comma then 1 else 0)
  let quotedLength := quotedLengthLoop source source.chars kSpaceForQuotes
  if heap.allocateRawString source.oneByte quotedLength then
    .string quotedLength (commaChars comma ++ 34 :: (slowWriteLoop source source.chars ++ [34]))
  else .outOfMemory

/-- The cells that are written for a character, from the cursor on. -/
def writeCells (c : Nat) : List Nat :=
  let len := jsonQuoteLength c
  (replacement c).getD 0 0 :: if len > 1 then
      (replacement c).getD 1 0 :: if len > 2 then ((replacement c).drop 2).take 4 else []
    else []

/-- The cursor moves over as many cells as the table says. -/
def writeLoop : List Nat → List Nat
  | [] => []
  | c :: cs =>
    if source.oneByte = false ∧ c ≥ kQuoteTableLength then c :: writeLoop cs
    else (writeCells c).take (jsonQuoteLength c) ++ writeLoop cs

def writeQuoteJsonString : List Nat := 34 :: (writeLoop source source.chars ++ [34])

def worstCaseLength : Int :=
  int (source.chars.length * kJsonQuoteWorstCaseBlowup + kSpaceForQuotesAndComma)

def quoteJsonString (comma : Bool) : Outcome :=
  if worstCaseLength source > kMaxGuaranteedNewSpaceString then slowQuoteJsonString heap source comma
  else if heap.allocateRawString source.oneByte (worstCaseLength source) then
    if heap.inNewSpace (worstCaseLength source) then
      .string (worstCaseLength source) (commaChars comma ++ writeQuoteJsonString source)
    else slowQuoteJsonString heap source comma
  else .outOfMemory

/-! ## The tables -/

/-- A character of a string literal, for one of the forms that the table has. -/
def isCharacter (t : List Nat) (c : Nat) : Bool :=
  match t with
  | [d] => d = c ∧ 32 ≤ c ∧ c ≠ 34 ∧ c ≠ 92
  | [92, e] => Json.escape e = some c
  | [92, 117, i, j, k, l] =>
    match Json.hexDigit i, Json.hexDigit j, Json.hexDigit k, Json.hexDigit l with
    | some i, some j, some k, some l => ((i * 16 + j) * 16 + k) * 16 + l = c
    | _, _, _, _ => false
  | _ => false

theorem character_of_isCharacter {t : List Nat} {c : Nat} (h : isCharacter t c = true) :
    Json.Character t c := by
  unfold isCharacter at h
  split at h
  · obtain ⟨rfl, h32, h34, h92⟩ := of_decide_eq_true h
    exact .plain h32 h34 h92
  · exact .escape (of_decide_eq_true h)
  · split at h
    · next hi hj hk hl =>
      obtain rfl := of_decide_eq_true h
      exact .unicode hi hj hk hl
    · cases h
  · cases h

/-- The length of a character in a literal. -/
def quotedLength (c : Nat) : Nat :=
  if c = 34 ∨ c = 92 then 2
  else if 32 ≤ c then 1
  else if c = 8 ∨ c = 9 ∨ c = 10 ∨ c = 12 ∨ c = 13 then 2
  else 6

/-- Both tables agree with each other, with both writers and with the grammar. -/
theorem tables_agree : ∀ c < 128, jsonQuoteLength c = quotedLength c ∧
    ((replacement c).take (jsonQuoteLength c)).length = quotedLength c ∧
    isCharacter ((replacement c).take (jsonQuoteLength c)) c = true ∧
    (writeCells c).take (jsonQuoteLength c) = (replacement c).take (jsonQuoteLength c) := by
  unfold writeCells replacement jsonQuotes jsonQuotesRows
  simp only [flatMap_cons, flatMap_nil]
  repeat rw [String.toList_ofList]
  decide +kernel

/-! ## What is written -/

open JsonParsing (scanJsonString scanJsonString_spec cursor)

variable {heap source}

/-- The length of all characters in a literal. -/
def quotedLengths (cs : List Nat) : Nat := (cs.map quotedLength).sum

theorem quotedLength_bounds (c : Nat) : 1 ≤ quotedLength c ∧ quotedLength c ≤ 6 := by
  unfold quotedLength
  grind

theorem quotedLengths_bounds (cs : List Nat) :
    cs.length ≤ quotedLengths cs ∧ quotedLengths cs ≤ 6 * cs.length := by
  induction cs with
  | nil => exact ⟨le_rfl, le_rfl⟩
  | cons c cs ih =>
    have hc := quotedLength_bounds c
    have hsum : quotedLengths (c :: cs) = quotedLength c + quotedLengths cs := sum_cons
    rw [hsum, length_cons]
    omega

theorem quotedLength_of_ge {c : Nat} (h : kQuoteTableLength ≤ c) : quotedLength c = 1 := by
  have htable : kQuoteTableLength = 128 := rfl
  rw [quotedLength, if_neg (by omega), if_pos (by omega)]

/-- Characters that are not written as they are have an entry. -/
theorem lt_of_not_plain {c : Nat} {cs : List Nat} (hvalid : ∀ c ∈ cs, c ∈ source.chars) (hc : c ∈ cs)
    (h : ¬(source.oneByte = false ∧ c ≥ kQuoteTableLength)) : c < 128 := by
  have hbound := source.valid c (hvalid c hc)
  by_cases hone : source.oneByte = true
  · rw [if_pos hone] at hbound
    exact hbound
  · exact Nat.lt_of_not_le fun hge => h ⟨Bool.eq_false_iff.2 hone, hge⟩

theorem writers_agree : ∀ cs : List Nat, (∀ c ∈ cs, c ∈ source.chars) →
    writeLoop source cs = slowWriteLoop source cs ∧
    (slowWriteLoop source cs).length = quotedLengths cs ∧
    Json.Characters (slowWriteLoop source cs) cs := by
  intro cs
  induction cs with
  | nil => exact fun _ => ⟨rfl, rfl, .nil⟩
  | cons c cs ih =>
    intro hvalid
    obtain ⟨heq, hlen, hchars⟩ := ih fun d hd => hvalid d (mem_cons_of_mem _ hd)
    have hsum : quotedLengths (c :: cs) = quotedLength c + quotedLengths cs := sum_cons
    rw [writeLoop, slowWriteLoop, heq, hsum]
    by_cases hplain : source.oneByte = false ∧ c ≥ kQuoteTableLength
    · have hge : 128 ≤ c := hplain.2
      rw [if_pos hplain, if_pos hplain, length_cons, hlen, quotedLength_of_ge hplain.2]
      exact ⟨rfl, add_comm _ _, .cons (t := [c]) (.plain (by omega) (by omega) (by omega)) hchars⟩
    · obtain ⟨_, hlength, hchar, hcells⟩ :=
        tables_agree c (lt_of_not_plain hvalid (mem_cons_self ..) hplain)
      rw [if_neg hplain, if_neg hplain, hcells, length_append, hlength, hlen]
      exact ⟨rfl, rfl, .cons (character_of_isCharacter hchar) hchars⟩

/-! ## Lengths -/

theorem int_of_lt {n : Int} (h0 : 0 ≤ n) (hlt : n < 2 ^ 31) : int n = n :=
  Int.bmod_eq_of_le (by omega) (by omega)

theorem quotedLengthLoop_eq : ∀ (cs : List Nat) (q : Int), (∀ c ∈ cs, c ∈ source.chars) → int q = q →
    quotedLengthLoop source cs q = int (q + quotedLengths cs) := by
  intro cs
  induction cs with
  | nil =>
    intro q _ hq
    rw [quotedLengthLoop, show q + (quotedLengths [] : Int) = q from Int.add_zero q, hq]
  | cons c cs ih =>
    intro q hvalid hq
    have hvalid' : ∀ d ∈ cs, d ∈ source.chars := fun d hd => hvalid d (mem_cons_of_mem _ hd)
    have hsum : quotedLengths (c :: cs) = quotedLength c + quotedLengths cs := sum_cons
    have hstep : ∀ n : Int, int (int (q + n) + quotedLengths cs) = int (q + n + quotedLengths cs) :=
      fun n => Int.bmod_add_bmod
    have hidem : ∀ n : Int, int (int n) = int n := fun n => Int.bmod_bmod
    rw [quotedLengthLoop, hsum]
    by_cases hplain : source.oneByte = false ∧ c ≥ kQuoteTableLength
    · rw [if_pos hplain, ih _ hvalid' (hidem _), hstep, quotedLength_of_ge hplain.2]
      push_cast
      rw [Int.add_assoc]
    · obtain ⟨hlen, _⟩ := tables_agree c (lt_of_not_plain hvalid (mem_cons_self ..) hplain)
      rw [if_neg hplain, ih _ hvalid' (hidem _), hstep, hlen]
      push_cast
      rw [Int.add_assoc]

/-- The length of the literal with its quotes and the comma. -/
def literalLength (source : Source) (comma : Bool) : Nat :=
  (commaChars comma).length + 2 + quotedLengths source.chars

theorem slowQuoteJsonString_eq (heap : Heap) (source : Source) (comma : Bool) :
    slowQuoteJsonString heap source comma =
      if heap.allocateRawString source.oneByte (int (literalLength source comma)) then
        .string (int (literalLength source comma))
          (commaChars comma ++ 34 :: (slowWriteLoop source source.chars ++ [34]))
      else .outOfMemory := by
  have hlen : quotedLengthLoop source source.chars (2 + (if comma then 1 else 0)) =
      int (literalLength source comma) := by
    rw [quotedLengthLoop_eq _ _ (fun c hc => hc) (by cases comma <;> decide)]
    unfold literalLength commaChars
    cases comma <;> simp
  rw [slowQuoteJsonString, hlen]

theorem written_length (source : Source) (comma : Bool) :
    (commaChars comma ++ 34 :: (slowWriteLoop source source.chars ++ [34])).length =
      literalLength source comma := by
  have hlen := (writers_agree source.chars fun c hc => hc).2.1
  simp only [length_append, length_cons, length_nil, hlen, literalLength]
  omega

theorem allocateRawString_iff {oneByte : Bool} {n : Int} :
    heap.allocateRawString oneByte n = true ↔ 0 ≤ n ∧ n ≤ heap.kMaxLength oneByte := by
  unfold Heap.allocateRawString
  simp

theorem kMaxLength_bounds (heap : Heap) (oneByte : Bool) :
    32 * 1024 ≤ heap.kMaxLength oneByte ∧ heap.kMaxLength oneByte < 2 ^ 29 := by
  have hmax : kMaxSize = 536870911 := rfl
  unfold Heap.kMaxLength Heap.kHeaderSize
  omega

/-! ## Quoting and scanning -/

/-- A string is quoted: both writers have the same characters for it and room for them, these are a
literal, and the scanner takes the literal for the string. -/
structure Quoted (heap : Heap) (source : Source) (comma : Bool) (allocated : Int) (literal : List Nat) :
    Prop where
  result : quoteJsonString heap source comma = .string allocated (commaChars comma ++ literal)
  fits : ((commaChars comma ++ literal).length : Int) ≤ allocated
  worstCase : allocated ≤ 6 * source.chars.length + 3
  fast : writeQuoteJsonString source = literal
  slow : slowQuoteJsonString heap source comma =
    .string (commaChars comma ++ literal).length (commaChars comma ++ literal)
  text : ∃ t, literal = 34 :: (t ++ [34]) ∧ Json.Characters t source.chars
  scan : ∀ s : Source, s.chars = literal → (scanJsonString s (cursor [] literal)).1 = some source.chars

/-- A string is quoted if no `int` overflows in its worst case and its literal is a string. -/
theorem quoted_iff (heap : Heap) (source : Source) (comma : Bool) :
    (∃ allocated literal, Quoted heap source comma allocated literal) ↔ 6 * source.chars.length + 3 < 2 ^ 31 ∧
        (literalLength source comma : Int) ≤ heap.kMaxLength source.oneByte := by
  obtain ⟨heq, hlen, hchars⟩ := writers_agree source.chars fun c hc => hc
  have hbounds := quotedLengths_bounds source.chars
  have hmax := kMaxLength_bounds heap source.oneByte
  have hliteral : literalLength source comma = (commaChars comma).length + 2 + quotedLengths source.chars :=
    rfl
  have hcomma : (commaChars comma).length ≤ 1 := by cases comma <;> decide
  have hspace : kMaxGuaranteedNewSpaceString = 32768 := rfl
  have hworst : worstCaseLength source = int (6 * source.chars.length + 3) := by
    rw [worstCaseLength, Int.mul_comm]
    rfl
  constructor
  · rintro ⟨allocated, literal, h⟩
    have hslow := h.slow
    rw [slowQuoteJsonString_eq] at hslow
    split at hslow
    · next halloc =>
      injection hslow with hallocated hwritten
      have hlength : (commaChars comma ++ literal).length = literalLength source comma := by
        rw [← hwritten, written_length]
      rw [hlength] at hallocated
      rw [hallocated] at halloc
      obtain ⟨_, hle⟩ := allocateRawString_iff.1 halloc
      by_contra hover
      have hresult := h.result
      have hnegative : int (6 * source.chars.length + 3) = 6 * source.chars.length + 3 - 2 ^ 32 := by
        rw [int, ← Int.sub_bmod_right]
        exact Int.bmod_eq_of_le (by omega) (by omega)
      rw [quoteJsonString, hworst, hnegative, if_neg (by omega), if_neg ?_] at hresult
      · cases hresult
      · rw [allocateRawString_iff]
        omega
    · cases hslow
  · rintro ⟨hworstLt, hle⟩
    have hint : int (literalLength source comma) = literalLength source comma :=
      int_of_lt (by omega) (by omega)
    have hworst' : worstCaseLength source = 6 * source.chars.length + 3 := by
      rw [hworst, int_of_lt (by omega) (by omega)]
    have hslow : slowQuoteJsonString heap source comma = .string (literalLength source comma)
        (commaChars comma ++ 34 :: (slowWriteLoop source source.chars ++ [34])) := by
      rw [slowQuoteJsonString_eq, hint, if_pos (allocateRawString_iff.2 ⟨by omega, hle⟩)]
    have hfast : writeQuoteJsonString source = 34 :: (slowWriteLoop source source.chars ++ [34]) := by
      rw [writeQuoteJsonString, heq]
    have hquoted : ∀ allocated : Int, quoteJsonString heap source comma =
        .string allocated (commaChars comma ++ 34 :: (slowWriteLoop source source.chars ++ [34])) →
        (literalLength source comma : Int) ≤ allocated → allocated ≤ 6 * source.chars.length + 3 →
        Quoted heap source comma allocated (34 :: (slowWriteLoop source source.chars ++ [34])) := by
      intro allocated hresult hfits hallocated
      refine ⟨hresult, by rwa [written_length], hallocated, hfast, by rw [written_length, hslow],
        ⟨_, rfl, hchars⟩, fun s hs => ?_⟩
      have hs' : s.chars = [] ++ 34 :: (slowWriteLoop source source.chars ++ [34]) := hs
      rw [(scanJsonString_spec hs').complete _ _ _ rfl hchars]
      rfl
    by_cases hbig : worstCaseLength source > kMaxGuaranteedNewSpaceString
    · exact ⟨_, _, hquoted (literalLength source comma)
        (by rw [quoteJsonString, if_pos hbig, hslow]) (Int.le_refl _) (by omega)⟩
    · by_cases hnew : heap.inNewSpace (worstCaseLength source) = true
      · refine ⟨_, _, hquoted (worstCaseLength source) ?_ (by omega) (by omega)⟩
        rw [quoteJsonString, if_neg hbig, if_pos (allocateRawString_iff.2 ⟨by omega, by omega⟩),
          if_pos hnew, hfast]
      · refine ⟨_, _, hquoted (literalLength source comma) ?_ (Int.le_refl _) (by omega)⟩
        rw [quoteJsonString, if_neg hbig, if_pos (allocateRawString_iff.2 ⟨by omega, by omega⟩),
          if_neg hnew, hslow]

/-- A string of the letter a. -/
def letters (n : Nat) : Source := ⟨true, replicate n 97, fun c hc => by
  rw [eq_of_mem_replicate hc]
  decide⟩

/-- From a length of 357913941 on the space for the worst case is a negative number. -/
theorem letters_not_quoted : ¬ ∀ (heap : Heap) (source : Source) (comma : Bool),
    (literalLength source comma : Int) ≤ heap.kMaxLength source.oneByte →
    ∃ allocated literal, Quoted heap source comma allocated literal := by
  intro h
  have hlength : (letters 357913941).chars.length = 357913941 := length_replicate
  have hliteral : literalLength (letters 357913941) false = 357913943 := by
    have hsum : quotedLengths (letters 357913941).chars = 357913941 := by
      rw [quotedLengths, letters, map_replicate, sum_replicate_nat]
      rfl
    rw [literalLength, hsum]
    rfl
  obtain ⟨allocated, literal, hquoted⟩ := h ⟨true, fun _ => true⟩ (letters 357913941) false
    (by rw [hliteral]; decide)
  have hresult := hquoted.result
  have hworst : worstCaseLength (letters 357913941) = -2147483647 := by
    rw [worstCaseLength, hlength]
    decide
  rw [quoteJsonString, hworst, if_neg (by decide), if_neg (by decide)] at hresult
  cases hresult

end W16.JsonQuoting
