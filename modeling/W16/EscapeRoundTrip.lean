import Mathlib

/-!
# Escaping strings

`Runtime_URIEscape` and `Runtime_URIUnescape` measure the result in one pass and write it in
another one. Reads and writes out of range fail.
-/
namespace W16.EscapeStrings

def kMaxLength : Nat := 2 ^ 30 - 1

def kMaxAsciiCharCode : Int := 0x7F

inductive Failure where
  | outOfMemory
  | outside
  | unfinished
  deriving DecidableEq, Repr

/-- `Get` of a string of code units. -/
def get (source : List Nat) (index : Nat) : Except Failure Nat :=
  match source[index]? with
  | some character => .ok character
  | none => .error .outside

/-- `Set` of a string, whose characters are bytes or code units. -/
def set (ascii : Bool) (destination : List Nat) (index : Nat) (value : Int) : Except Failure (List Nat) :=
  if index < destination.length then
    .ok (destination.set index (value % if ascii then 256 else 65536).toNat)
  else .error .outside

section Escape

def kNotEscaped : List Nat := [ 0, 0, 0, 0, 0, 0, 0, 0, 0, 0, 0, 0, 0, 0, 0, 0,
    0, 0, 0, 0, 0, 0, 0, 0, 0, 0, 0, 0, 0, 0, 0, 0,
    0, 0, 0, 0, 0, 0, 0, 0, 0, 0, 1, 1, 0, 1, 1, 1,
    1, 1, 1, 1, 1, 1, 1, 1, 1, 1, 0, 0, 0, 0, 0, 0,
    1, 1, 1, 1, 1, 1, 1, 1, 1, 1, 1, 1, 1, 1, 1, 1,
    1, 1, 1, 1, 1, 1, 1, 1, 1, 1, 1, 0, 0, 0, 0, 1,
    0, 1, 1, 1, 1, 1, 1, 1, 1, 1, 1, 1, 1, 1, 1, 1,
    1, 1, 1, 1, 1, 1, 1, 1, 1, 1, 1, 0, 0, 0, 0, 0,
    0, 0, 0, 0, 0, 0, 0, 0, 0, 0, 0, 0, 0, 0, 0, 0,
    0, 0, 0, 0, 0, 0, 0, 0, 0, 0, 0, 0, 0, 0, 0, 0,
    0, 0, 0, 0, 0, 0, 0, 0, 0, 0, 0, 0, 0, 0, 0, 0,
    0, 0, 0, 0, 0, 0, 0, 0, 0, 0, 0, 0, 0, 0, 0, 0,
    0, 0, 0, 0, 0, 0, 0, 0, 0, 0, 0, 0, 0, 0, 0, 0,
    0, 0, 0, 0, 0, 0, 0, 0, 0, 0, 0, 0, 0, 0, 0, 0,
    0, 0, 0, 0, 0, 0, 0, 0, 0, 0, 0, 0, 0, 0, 0, 0,
    0, 0, 0, 0, 0, 0, 0, 0, 0, 0, 0, 0, 0, 0, 0, 0]

def isNotEscaped (character : Nat) : Bool := kNotEscaped.getD character 0 ≠ 0

/-- The characters of `0123456789ABCDEF`. -/
def hexChars : List Nat :=
  [0x30, 0x31, 0x32, 0x33, 0x34, 0x35, 0x36, 0x37, 0x38, 0x39, 0x41, 0x42, 0x43, 0x44, 0x45, 0x46]

def hexChar (digit : Nat) : Nat := hexChars.getD digit 0

/-- The first pass. -/
def measureEscape : List Nat → Nat → Except Failure Nat
  | [], escapedLength => .ok escapedLength
  | character :: rest, escapedLength =>
    let escapedLength :=
      if character ≥ 256 then escapedLength + 6
      else if isNotEscaped character then escapedLength + 1
      else escapedLength + 3
    if escapedLength > kMaxLength then .error .outOfMemory else measureEscape rest escapedLength

/-- The second pass. -/
def writeEscape : List Nat → List Nat → Nat → Except Failure (List Nat × Nat)
  | [], destination, destPosition => .ok (destination, destPosition)
  | chr :: rest, destination, destPosition =>
    if chr ≥ 256 then do
      let destination ← set true destination destPosition 0x25
      let destination ← set true destination (destPosition + 1) 0x75
      let destination ← set true destination (destPosition + 2) (hexChar (chr >>> 12))
      let destination ← set true destination (destPosition + 3) (hexChar ((chr >>> 8) &&& 0xf))
      let destination ← set true destination (destPosition + 4) (hexChar ((chr >>> 4) &&& 0xf))
      let destination ← set true destination (destPosition + 5) (hexChar (chr &&& 0xf))
      writeEscape rest destination (destPosition + 6)
    else if isNotEscaped chr then do
      let destination ← set true destination destPosition chr
      writeEscape rest destination (destPosition + 1)
    else do
      let destination ← set true destination destPosition 0x25
      let destination ← set true destination (destPosition + 1) (hexChar (chr >>> 4))
      let destination ← set true destination (destPosition + 2) (hexChar (chr &&& 0xf))
      writeEscape rest destination (destPosition + 3)

def uriEscape (source : List Nat) : Except Failure (List Nat) := do
  let escapedLength ← measureEscape source 0
  if escapedLength = source.length then return source
  let (destination, _) ← writeEscape source (List.replicate escapedLength 0) 0
  return destination

end Escape

section Unescape

def kHexValue : List Int := [ -1, -1, -1, -1, -1, -1, -1, -1, -1, -1, -1, -1, -1, -1, -1, -1,
    -1, -1, -1, -1, -1, -1, -1, -1, -1, -1, -1, -1, -1, -1, -1, -1,
    -1, -1, -1, -1, -1, -1, -1, -1, -1, -1, -1, -1, -1, -1, -1, -1,
    0, 1, 2, 3, 4, 5, 6, 7, 8, 9, -1, -1, -1, -1, -1, -1,
    -1, 10, 11, 12, 13, 14, 15, -1, -1, -1, -1, -1, -1, -1, -1, -1,
    -1, -1, -1, -1, -1, -1, -1, -1, -1, -1, -1, -1, -1, -1, -1, -1,
    -1, 10, 11, 12, 13, 14, 15]

def twoDigitHex (character1 character2 : Nat) : Int :=
  if character1 > 0x66 then -1
  else
    let hi := kHexValue.getD character1 0
    if hi = -1 then -1
    else if character2 > 0x66 then -1
    else
      let lo := kHexValue.getD character2 0
      if lo = -1 then -1 else hi * 16 + lo

/-- The first condition of `Unescape`, for `%uXXXX`, and the value where it holds. -/
def unescapeLong (source : List Nat) (i length character : Nat) : Except Failure (Option Int) := do
  if character = 0x25 ∧ (i : Int) ≤ length - 6 then
    if (← get source (i + 1)) = 0x75 then
      let hi := twoDigitHex (← get source (i + 2)) (← get source (i + 3))
      if hi ≠ -1 then
        let lo := twoDigitHex (← get source (i + 4)) (← get source (i + 5))
        if lo ≠ -1 then return some (hi * 256 + lo) else return none
      else return none
    else return none
  else return none

/-- The second condition, for `%XX`. -/
def unescapeShort (source : List Nat) (i length character : Nat) : Except Failure (Option Int) := do
  if character = 0x25 ∧ (i : Int) ≤ length - 3 then
    let lo := twoDigitHex (← get source (i + 1)) (← get source (i + 2))
    if lo ≠ -1 then return some lo else return none
  else return none

/-- The value of a character and its step. -/
def unescape (source : List Nat) (i length : Nat) : Except Failure (Int × Nat) := do
  let character ← get source i
  match ← unescapeLong source i length character with
  | some value => return (value, 6)
  | none =>
    match ← unescapeShort source i length character with
    | some value => return (value, 3)
    | none => return (character, 1)

/-- The first pass, with a bound on the number of steps. -/
def measureUnescape (source : List Nat) (length : Nat) : Nat → Nat → Bool → Nat → Except Failure (Bool × Nat)
  | 0, i, ascii, unescapedLength =>
    if i < length then .error .unfinished else .ok (ascii, unescapedLength)
  | fuel + 1, i, ascii, unescapedLength =>
    if i < length then do
      let (value, step) ← unescape source i length
      let ascii := if value > kMaxAsciiCharCode then false else ascii
      measureUnescape source length fuel (i + step) ascii (unescapedLength + 1)
    else .ok (ascii, unescapedLength)

/-- The second pass. -/
def writeUnescape (source : List Nat) (length : Nat) (ascii : Bool) : Nat → Nat → List Nat → Nat →
    Except Failure (List Nat × Nat)
  | 0, i, destination, destPosition =>
    if i < length then .error .unfinished else .ok (destination, destPosition)
  | fuel + 1, i, destination, destPosition =>
    if i < length then do
      let (value, step) ← unescape source i length
      let destination ← set ascii destination destPosition value
      writeUnescape source length ascii fuel (i + step) destination (destPosition + 1)
    else .ok (destination, destPosition)

def uriUnescape (source : List Nat) : Except Failure (List Nat) := do
  let length := source.length
  let (ascii, unescapedLength) ← measureUnescape source length length 0 true 0
  if unescapedLength = length then return source
  let (destination, _) ←
    writeUnescape source length ascii length 0 (List.replicate unescapedLength 0) 0
  return destination

end Unescape

end W16.EscapeStrings

/-!
## Unescaping undoes escaping

Both functions write as many characters as they have measured. What a character is escaped to is
read back as this character.
-/
namespace W16.EscapeStrings

variable {source : List Nat} {i : Nat}

section Unescape

/-- What `unescape` gives for a position in the source. -/
def decode (source : List Nat) (i : Nat) : Int × Nat :=
  let character := fun k => source.getD (i + k) 0
  let hi := twoDigitHex (character 2) (character 3)
  let lo := twoDigitHex (character 4) (character 5)
  let short := twoDigitHex (character 1) (character 2)
  if character 0 = 0x25 ∧ i + 6 ≤ source.length ∧ character 1 = 0x75 ∧ hi ≠ -1 ∧ lo ≠ -1 then
    (hi * 256 + lo, 6)
  else if character 0 = 0x25 ∧ i + 3 ≤ source.length ∧ short ≠ -1 then (short, 3)
  else (character 0, 1)

theorem get_eq {k : Nat} (h : k < source.length) : get source k = .ok (source.getD k 0) := by
  simp [get, h]

theorem unescapeLong_eq (source : List Nat) (i character : Nat) :
    unescapeLong source i source.length character =
      .ok (if character = 0x25 ∧ i + 6 ≤ source.length ∧ source.getD (i + 1) 0 = 0x75 ∧
          twoDigitHex (source.getD (i + 2) 0) (source.getD (i + 3) 0) ≠ -1 ∧
          twoDigitHex (source.getD (i + 4) 0) (source.getD (i + 5) 0) ≠ -1 then
        some (twoDigitHex (source.getD (i + 2) 0) (source.getD (i + 3) 0) * 256 +
          twoDigitHex (source.getD (i + 4) 0) (source.getD (i + 5) 0))
      else none) := by
  rw [unescapeLong]
  by_cases hin : character = 0x25 ∧ (i : Int) ≤ source.length - 6
  · have hread : ∀ k < 6, get source (i + k) = .ok (source.getD (i + k) 0) :=
      fun k hk => get_eq (by omega)
    have hlen : i + 6 ≤ source.length := by omega
    rw [if_pos hin]
    simp only [hread, Nat.reduceLT, bind, Except.bind, pure, Except.pure, hin.1, hlen, true_and]
    grind
  · rw [if_neg hin, if_neg (by omega)]
    rfl

theorem unescapeShort_eq (source : List Nat) (i character : Nat) :
    unescapeShort source i source.length character = .ok (if character = 0x25 ∧ i + 3 ≤ source.length ∧
          twoDigitHex (source.getD (i + 1) 0) (source.getD (i + 2) 0) ≠ -1 then
        some (twoDigitHex (source.getD (i + 1) 0) (source.getD (i + 2) 0))
      else none) := by
  rw [unescapeShort]
  by_cases hin : character = 0x25 ∧ (i : Int) ≤ source.length - 3
  · have hread : ∀ k < 3, get source (i + k) = .ok (source.getD (i + k) 0) :=
      fun k hk => get_eq (by omega)
    have hlen : i + 3 ≤ source.length := by omega
    rw [if_pos hin]
    simp only [hread, Nat.reduceLT, bind, Except.bind, pure, Except.pure, hin.1, hlen, true_and]
    grind
  · rw [if_neg hin, if_neg (by omega)]
    rfl

/-- `Unescape` reads only in the source. -/
theorem unescape_eq (h : i < source.length) : unescape source i source.length = .ok (decode source i) := by
  simp only [unescape, get_eq h, unescapeLong_eq, unescapeShort_eq, bind, Except.bind, pure,
    Except.pure, decode, Nat.add_zero]
  by_cases hlong : source.getD i 0 = 0x25 ∧ i + 6 ≤ source.length ∧ source.getD (i + 1) 0 = 0x75 ∧
      twoDigitHex (source.getD (i + 2) 0) (source.getD (i + 3) 0) ≠ -1 ∧
      twoDigitHex (source.getD (i + 4) 0) (source.getD (i + 5) 0) ≠ -1
  · simp only [if_pos hlong]
  · simp only [if_neg hlong]
    by_cases hshort : source.getD i 0 = 0x25 ∧ i + 3 ≤ source.length ∧
        twoDigitHex (source.getD (i + 1) 0) (source.getD (i + 2) 0) ≠ -1
    · simp only [if_pos hshort]
    · simp only [if_neg hshort]

theorem twoDigitHex_bounds (character1 character2 : Nat) : twoDigitHex character1 character2 = -1 ∨
      0 ≤ twoDigitHex character1 character2 ∧ twoDigitHex character1 character2 < 256 := by
  have hvalue : ∀ c ≤ 0x66, kHexValue.getD c 0 = -1 ∨
      0 ≤ kHexValue.getD c 0 ∧ kHexValue.getD c 0 < 16 := by decide
  simp only [twoDigitHex]
  grind

/-- A step goes on and stays in the source; a step of one character gives this character. -/
theorem decode_spec (hsrc : ∀ c ∈ source, c < 65536) (h : i < source.length) :
    0 < (decode source i).2 ∧ i + (decode source i).2 ≤ source.length ∧
      0 ≤ (decode source i).1 ∧ (decode source i).1 < 65536 ∧
      ((decode source i).2 = 1 → (decode source i).1 = source.getD i 0) := by
  have hchar : source.getD i 0 < 65536 := by
    simp [h, hsrc]
  have hhex := twoDigitHex_bounds
  rw [decode]
  grind

end Unescape

section Passes

/-- The values of the characters from a position on. -/
def values (source : List Nat) : Nat → Nat → List Int
  | 0, _ => []
  | fuel + 1, i =>
    if i < source.length then
      (decode source i).1 :: values source fuel (i + (decode source i).2)
    else []

theorem measureUnescape_eq (hsrc : ∀ c ∈ source, c < 65536) (fuel i : Nat) (ascii : Bool)
    (unescapedLength : Nat) (hfuel : source.length ≤ i + fuel) :
    measureUnescape source source.length fuel i ascii unescapedLength =
      .ok (ascii && (values source fuel i).all (· ≤ kMaxAsciiCharCode),
        unescapedLength + (values source fuel i).length) := by
  induction fuel generalizing i ascii unescapedLength with
  | zero =>
    rw [measureUnescape, if_neg (by omega)]
    simp [values]
  | succ fuel ih =>
    by_cases h : i < source.length
    · have hstep := decode_spec hsrc h
      rw [measureUnescape, if_pos h, unescape_eq h, values, if_pos h]
      simp only [bind, Except.bind]
      rw [ih _ _ _ (by omega), List.all_cons, List.length_cons, Nat.add_assoc, Nat.add_comm 1]
      by_cases hvalue : (decode source i).1 ≤ kMaxAsciiCharCode
      · have hgt : ¬(decode source i).1 > kMaxAsciiCharCode := by omega
        simp [hvalue, hgt]
      · have hgt : (decode source i).1 > kMaxAsciiCharCode := by omega
        simp [hvalue, hgt]
    · rw [measureUnescape, if_neg h, values, if_neg h]
      simp

/-- A write in range changes one character. -/
theorem set_eq {destination : List Nat} {index : Nat} (ascii : Bool) (value : Int)
    (h : index < destination.length) : set ascii destination index value =
      .ok (destination.set index (value % if ascii then 256 else 65536).toNat) := by
  rw [set, if_pos h]

/-- What is left of a destination when some characters have been written. -/
def filled (destination : List Nat) (destPosition : Nat) (written : List Nat) : List Nat :=
  destination.take destPosition ++ written ++ destination.drop (destPosition + written.length)

theorem filled_nil (destination : List Nat) (destPosition : Nat) :
    filled destination destPosition [] = destination := by
  simp [filled]

/-- The characters behind the first one go into the destination that has the first one. -/
theorem filled_cons {destination : List Nat} {destPosition : Nat} (character : Nat)
    (written : List Nat) (h : destPosition < destination.length) :
    filled destination destPosition (character :: written) =
      filled (destination.set destPosition character) (destPosition + 1) written := by
  have hdrop : (destination.set destPosition character).drop (destPosition + 1 + written.length) =
      destination.drop (destPosition + 1 + written.length) := by
    apply List.ext_getElem?
    grind
  have htake : (destination.set destPosition character).take (destPosition + 1) =
      destination.take destPosition ++ [character] := by
    simp [List.take_add_one, List.take_set_of_le, h]
  rw [filled, filled, hdrop, htake, List.length_cons, Nat.add_assoc, Nat.add_comm 1]
  simp

/-- A character as it is stored. -/
def stored (ascii : Bool) (value : Int) : Nat := (value % if ascii then 256 else 65536).toNat

theorem writeUnescape_eq (hsrc : ∀ c ∈ source, c < 65536) (ascii : Bool) (fuel i : Nat)
    (destination : List Nat) (destPosition : Nat) (hfuel : source.length ≤ i + fuel)
    (hdest : destPosition + (values source fuel i).length ≤ destination.length) :
    writeUnescape source source.length ascii fuel i destination destPosition =
      .ok (filled destination destPosition ((values source fuel i).map (stored ascii)),
        destPosition + (values source fuel i).length) := by
  induction fuel generalizing i destination destPosition with
  | zero =>
    rw [writeUnescape, if_neg (by omega)]
    simp [values, filled_nil]
  | succ fuel ih =>
    by_cases h : i < source.length
    · have hstep := decode_spec hsrc h
      rw [values, if_pos h, List.length_cons] at hdest
      rw [writeUnescape, if_pos h, unescape_eq h, values, if_pos h]
      simp only [bind, Except.bind]
      rw [set_eq _ _ (by omega)]
      simp only
      rw [ih _ _ _ (by omega) (by rw [List.length_set]; omega), List.map_cons,
        filled_cons _ _ (by omega), List.length_cons, Nat.add_assoc, Nat.add_comm 1]
      rfl
    · rw [writeUnescape, if_neg h, values, if_neg h]
      simp [filled_nil]

theorem filled_replicate (written : List Nat) :
    filled (List.replicate written.length 0) 0 written = written := by
  simp [filled]

/-- No more characters are written than there are in the source, and as many only where every
step is one character. -/
theorem values_length (hsrc : ∀ c ∈ source, c < 65536) (fuel i : Nat) (hi : i ≤ source.length) :
    (values source fuel i).length ≤ source.length - i ∧ ((values source fuel i).length = source.length - i →
        (values source fuel i).map Int.toNat = source.drop i) := by
  induction fuel generalizing i with
  | zero =>
    grind [values, List.drop_eq_nil_of_le]
  | succ fuel ih =>
    by_cases h : i < source.length
    · have hstep := decode_spec hsrc h
      have ih := ih (i + (decode source i).2) hstep.2.1
      rw [values, if_pos h, List.length_cons]
      refine ⟨by omega, fun hlen => ?_⟩
      have hone : (decode source i).2 = 1 := by omega
      have hvalue := hstep.2.2.2.2 hone
      rw [hone] at ih hlen ⊢
      rw [List.map_cons, ih.2 (by omega), List.drop_eq_getElem_cons h, hvalue,
        List.getD_eq_getElem?_getD, List.getElem?_eq_getElem h]
      rfl
    simp_all [values, if_neg]

/-- What is stored is the value, in a string of bytes where all values are small. -/
theorem values_stored (hsrc : ∀ c ∈ source, c < 65536) (fuel i : Nat) (ascii : Bool)
    (hascii : ascii = true → (values source fuel i).all (· ≤ kMaxAsciiCharCode) = true) :
    (values source fuel i).map (stored ascii) = (values source fuel i).map Int.toNat := by
  induction fuel generalizing i with
  | zero => rfl
  | succ fuel ih =>
    by_cases h : i < source.length
    · have hstep := decode_spec hsrc h
      rw [values, if_pos h] at hascii ⊢
      have hrest := ih _ fun hb => by
        have := hascii hb
        rw [List.all_cons, Bool.and_eq_true] at this
        exact this.2
      rw [List.map_cons, List.map_cons, hrest]
      congr 1
      cases ascii with
      | false =>
        simp only [stored, Bool.false_eq_true, if_false]
        omega
      | true =>
        have hsmall := hascii rfl
        rw [List.all_cons, Bool.and_eq_true, decide_eq_true_eq] at hsmall
        have hle := hsmall.1
        simp only [kMaxAsciiCharCode] at hle
        simp only [stored, if_true]
        omega
    · rw [values, if_neg h]
      rfl

/-- The second pass of unescaping writes as many characters as the first one has counted. -/
theorem unescape_passes (hsrc : ∀ c ∈ source, c < 65536) :
    ∃ ascii, measureUnescape source source.length source.length 0 true 0 =
        .ok (ascii, (values source source.length 0).length) ∧
      writeUnescape source source.length ascii source.length 0
          (List.replicate (values source source.length 0).length 0) 0 =
        .ok ((values source source.length 0).map Int.toNat, (values source source.length 0).length) := by
  have hmeas := measureUnescape_eq hsrc source.length 0 true 0 (by omega)
  rw [Bool.true_and, Nat.zero_add] at hmeas
  refine ⟨_, hmeas, ?_⟩
  rw [writeUnescape_eq hsrc _ _ _ _ _ (by omega) (by rw [List.length_replicate]; omega),
    values_stored hsrc _ _ _ fun h => h, Nat.zero_add]
  have hfill := filled_replicate ((values source source.length 0).map Int.toNat)
  rw [List.length_map] at hfill
  rw [hfill]

/-- Unescaping gives the values, also where it returns the source. -/
theorem uriUnescape_eq (hsrc : ∀ c ∈ source, c < 65536) :
    uriUnescape source = .ok ((values source source.length 0).map Int.toNat) := by
  obtain ⟨ascii, hmeas, hwrite⟩ := unescape_passes hsrc
  simp only [uriUnescape, hmeas, bind, Except.bind, pure, Except.pure]
  simp_all [values_length]

end Passes

section Escape

/-- What a character is escaped to. -/
def escaped (chr : Nat) : List Nat :=
  if chr ≥ 256 then
    [0x25, 0x75, hexChar (chr >>> 12), hexChar ((chr >>> 8) &&& 0xf),
      hexChar ((chr >>> 4) &&& 0xf), hexChar (chr &&& 0xf)]
  else if isNotEscaped chr then [chr]
  else [0x25, hexChar (chr >>> 4), hexChar (chr &&& 0xf)]

/-- The length that the first pass computes. -/
def escapedLength (source : List Nat) : Nat := (source.flatMap escaped).length

theorem measureEscape_eq (source : List Nat) (n : Nat) (hlimit : n + escapedLength source ≤ kMaxLength) :
    measureEscape source n = .ok (n + escapedLength source) := by
  induction source generalizing n with
  | nil => rfl
  | cons c rest ih =>
    have hcons : escapedLength (c :: rest) = (escaped c).length + escapedLength rest := by
      simp [escapedLength]
    rw [hcons] at hlimit ⊢
    have hadd : (if c ≥ 256 then n + 6 else if isNotEscaped c then n + 1 else n + 3) =
        n + (escaped c).length := by
      rw [escaped]
      split_ifs <;> rfl
    rw [measureEscape, hadd, if_neg (by omega), ih _ (by omega), Nat.add_assoc]

theorem hexChar_lt (digit : Nat) : hexChar digit < 128 := by
  by_cases h : digit < 16
  · revert digit
    decide
  simp_all [hexChar, hexChars]

theorem isNotEscaped_lt {chr : Nat} (h : isNotEscaped chr = true) : chr < 128 ∧ chr ≠ 0x25 := by
  have htable : ∀ p ∈ kNotEscaped.zipIdx, p.1 ≠ 0 → p.2 < 128 ∧ p.2 ≠ 0x25 := by
    decide +kernel
  rw [isNotEscaped, List.getD_eq_getElem?_getD, decide_eq_true_eq] at h
  cases hget : kNotEscaped[chr]? with
  | none =>
    rw [hget] at h
    exact absurd rfl h
  | some n =>
    rw [hget] at h
    exact htable (n, chr) (List.mk_mem_zipIdx_iff_getElem?.2 hget) h

/-- A write of a character of ASCII, and what follows it. -/
theorem set_bind {α : Type} {destination : List Nat} {index : Nat} {value : Int} (hpos : 0 ≤ value)
    (hascii : value < 128) (h : index < destination.length) (f : List Nat → Except Failure α) :
    (set true destination index value >>= f) = f (destination.set index value.toNat) := by
  have hstored : (value % 256).toNat = value.toNat := by omega
  rw [set_eq _ _ h, if_pos rfl, hstored]
  rfl

theorem writeEscape_eq (source destination : List Nat) (destPosition : Nat)
    (hdest : destPosition + escapedLength source ≤ destination.length) :
    writeEscape source destination destPosition = .ok (filled destination destPosition (source.flatMap escaped),
        destPosition + escapedLength source) := by
  induction source generalizing destination destPosition with
  | nil => simp [writeEscape, filled_nil, escapedLength]
  | cons chr rest ih =>
    have hcons : escapedLength (chr :: rest) = (escaped chr).length + escapedLength rest := by
      simp [escapedLength]
    rw [hcons] at hdest ⊢
    have hhex : ∀ digit, (0 : Int) ≤ hexChar digit ∧ (hexChar digit : Int) < 128 := by
      intro digit
      have := hexChar_lt digit
      omega
    rw [writeEscape, List.flatMap_cons]
    by_cases hlarge : chr ≥ 256
    · have hesc : escaped chr = [0x25, 0x75, hexChar (chr >>> 12),
          hexChar ((chr >>> 8) &&& 0xf), hexChar ((chr >>> 4) &&& 0xf), hexChar (chr &&& 0xf)] := by
        rw [escaped, if_pos hlarge]
      rw [hesc] at hdest ⊢
      simp only [List.length_cons, List.length_nil, Nat.zero_add, Nat.reduceAdd] at hdest ⊢
      rw [if_pos hlarge, set_bind (by decide) (by decide) (by omega),
        set_bind (by decide) (by decide) (by simp only [List.length_set]; omega),
        set_bind (hhex _).1 (hhex _).2 (by simp only [List.length_set]; omega),
        set_bind (hhex _).1 (hhex _).2 (by simp only [List.length_set]; omega),
        set_bind (hhex _).1 (hhex _).2 (by simp only [List.length_set]; omega),
        set_bind (hhex _).1 (hhex _).2 (by simp only [List.length_set]; omega),
        ih _ _ (by simp only [List.length_set]; omega)]
      simp only [List.cons_append, List.nil_append, Nat.add_assoc, Int.toNat_natCast]
      rw [filled_cons _ _ (by omega), filled_cons _ _ (by simp only [List.length_set]; omega),
        filled_cons _ _ (by simp only [List.length_set]; omega),
        filled_cons _ _ (by simp only [List.length_set]; omega),
        filled_cons _ _ (by simp only [List.length_set]; omega),
        filled_cons _ _ (by simp only [List.length_set]; omega)]
      rfl
    · by_cases hplain : isNotEscaped chr = true
      · have hesc : escaped chr = [chr] := by rw [escaped, if_neg hlarge, if_pos hplain]
        have hascii := (isNotEscaped_lt hplain).1
        rw [hesc, List.length_singleton] at hdest ⊢
        rw [if_neg hlarge, if_pos hplain, set_bind (by omega) (by omega) (by omega),
          ih _ _ (by rw [List.length_set]; omega), List.singleton_append,
          filled_cons _ _ (by omega), Nat.add_assoc, Int.toNat_natCast]
      · have hesc : escaped chr = [0x25, hexChar (chr >>> 4), hexChar (chr &&& 0xf)] := by
          rw [escaped, if_neg hlarge, if_neg hplain]
        rw [hesc] at hdest ⊢
        simp only [List.length_cons, List.length_nil, Nat.zero_add, Nat.reduceAdd] at hdest ⊢
        rw [if_neg hlarge, if_neg hplain, set_bind (by decide) (by decide) (by omega),
          set_bind (hhex _).1 (hhex _).2 (by simp only [List.length_set]; omega),
          set_bind (hhex _).1 (hhex _).2 (by simp only [List.length_set]; omega),
          ih _ _ (by simp only [List.length_set]; omega)]
        simp only [List.cons_append, List.nil_append, Nat.add_assoc, Int.toNat_natCast]
        rw [filled_cons _ _ (by omega), filled_cons _ _ (by simp only [List.length_set]; omega),
          filled_cons _ _ (by simp only [List.length_set]; omega)]
        rfl

end Escape

section RoundTrip

theorem twoDigitHex_hexChar {a b : Nat} (ha : a < 16) (hb : b < 16) :
    twoDigitHex (hexChar a) (hexChar b) = (a * 16 + b : Nat) := by
  have htable : ∀ a < 16, ∀ b < 16, twoDigitHex (hexChar a) (hexChar b) = (a * 16 + b : Nat) := by
    decide +kernel
  exact htable a ha b hb

theorem hexChar_ne_u {a : Nat} (ha : a < 16) : hexChar a ≠ 0x75 := by
  revert a
  decide

theorem and_15 (n : Nat) : n &&& 0xf = n % 16 := Nat.and_two_pow_sub_one_eq_mod n 4

theorem getD_middle (before middle after : List Nat) {k : Nat} (h : k < middle.length) :
    (before ++ middle ++ after).getD (before.length + k) 0 = middle.getD k 0 := by
  simp [List.getElem?_append_right, List.getElem?_append_left, h]

/-- What a character is escaped to is read back in one step. -/
theorem decode_escaped {chr : Nat} (hchr : chr < 65536) (before after : List Nat) :
    decode (before ++ escaped chr ++ after) before.length = ((chr : Int), (escaped chr).length) := by
  have hread : ∀ k, k < (escaped chr).length →
      (before ++ escaped chr ++ after).getD (before.length + k) 0 = (escaped chr).getD k 0 :=
    fun k hk => getD_middle before (escaped chr) after hk
  have hlen : (before ++ escaped chr ++ after).length =
      before.length + (escaped chr).length + after.length := by
    rw [List.length_append, List.length_append]
  simp only [decode, hlen]
  by_cases hlarge : chr ≥ 256
  · have hesc : escaped chr = [0x25, 0x75, hexChar (chr >>> 12),
        hexChar ((chr >>> 8) &&& 0xf), hexChar ((chr >>> 4) &&& 0xf), hexChar (chr &&& 0xf)] := by
      rw [escaped, if_pos hlarge]
    have hsix : (escaped chr).length = 6 := by rw [hesc]; rfl
    have hhi : twoDigitHex (hexChar (chr >>> 12)) (hexChar ((chr >>> 8) &&& 0xf)) = (chr / 256 : Nat) := by
      rw [and_15, Nat.shiftRight_eq_div_pow, Nat.shiftRight_eq_div_pow,
        twoDigitHex_hexChar (by omega) (by omega)]
      omega
    have hlo : twoDigitHex (hexChar ((chr >>> 4) &&& 0xf)) (hexChar (chr &&& 0xf)) = (chr % 256 : Nat) := by
      rw [and_15, and_15, Nat.shiftRight_eq_div_pow, twoDigitHex_hexChar (by omega) (by omega)]
      omega
    rw [hread 0 (by omega), hread 1 (by omega), hread 2 (by omega), hread 3 (by omega),
      hread 4 (by omega), hread 5 (by omega), hsix, hesc]
    simp only [List.getD_cons_zero, List.getD_cons_succ, hhi, hlo]
    rw [if_pos ⟨trivial, by omega, trivial, by omega, by omega⟩, Prod.mk.injEq]
    omega
  · by_cases hplain : isNotEscaped chr = true
    · have hesc : escaped chr = [chr] := by rw [escaped, if_neg hlarge, if_pos hplain]
      have hpercent := (isNotEscaped_lt hplain).2
      have hone : (escaped chr).length = 1 := by rw [hesc]; rfl
      grind
    · have hesc : escaped chr = [0x25, hexChar (chr >>> 4), hexChar (chr &&& 0xf)] := by
        rw [escaped, if_neg hlarge, if_neg hplain]
      have hthree : (escaped chr).length = 3 := by rw [hesc]; rfl
      have hshort : twoDigitHex (hexChar (chr >>> 4)) (hexChar (chr &&& 0xf)) = (chr : Nat) := by
        rw [and_15, Nat.shiftRight_eq_div_pow, twoDigitHex_hexChar (by omega) (by omega)]
        omega
      have hnotu : hexChar (chr >>> 4) ≠ 0x75 := by
        exact hexChar_ne_u (by omega)
      have hread0 := hread 0 (by omega)
      have hread1 := hread 1 (by omega)
      have hread2 := hread 2 (by omega)
      rw [hthree]
      rw [hesc] at hread0 hread1 hread2 ⊢
      simp only [List.getD_cons_zero, List.getD_cons_succ] at hread0 hread1 hread2
      rw [hread0, hread1, hread2, hshort, if_neg (fun h => hnotu h.2.2.1), if_pos ⟨rfl, by omega, by omega⟩]

/-- The values of an escaped text are the characters. -/
theorem values_escaped {s : List Nat} (hs : ∀ c ∈ s, c < 65536) (before : List Nat) (fuel : Nat)
    (hfuel : (s.flatMap escaped).length ≤ fuel) :
    (values (before ++ s.flatMap escaped) fuel before.length).map Int.toNat = s := by
  induction s generalizing before fuel with
  | nil => cases fuel <;> simp [values]
  | cons chr rest ih =>
    have hpos : 0 < (escaped chr).length := by
      rw [escaped]
      split_ifs <;> simp
    rw [List.flatMap_cons, List.length_append] at hfuel
    obtain ⟨fuel, rfl⟩ : ∃ f, fuel = f + 1 := ⟨fuel - 1, by omega⟩
    have hdec := decode_escaped (hs chr (by simp)) before (rest.flatMap escaped)
    have hrest := ih (fun c hc => hs c (by simp [hc])) (before ++ escaped chr) fuel (by omega)
    rw [List.length_append] at hrest
    rw [List.flatMap_cons, ← List.append_assoc, values,
      if_pos (by simp only [List.length_append]; omega), hdec, List.map_cons, hrest]
    rfl

theorem escaped_lt {chr : Nat} (hchr : chr < 65536) : ∀ c ∈ escaped chr, c < 65536 := by
  have hhex := hexChar_lt
  intro c hc
  rw [escaped] at hc
  grind

/-- As many characters as before means that no character is escaped. -/
theorem escaped_same {s : List Nat} : s.length ≤ escapedLength s ∧
    (escapedLength s = s.length → s.flatMap escaped = s) := by
  induction s with
  | nil => simp [escapedLength]
  | cons chr rest ih =>
    have hcons : escapedLength (chr :: rest) = (escaped chr).length + escapedLength rest := by
      simp [escapedLength]
    rw [hcons, List.length_cons, List.flatMap_cons]
    have hcases : escaped chr = [chr] ∨ 3 ≤ (escaped chr).length := by
      rw [escaped]
      split_ifs <;> simp
    grind

/-- The second pass of escaping writes as many characters as the first one has counted. -/
theorem escape_passes (s : List Nat) (hlimit : escapedLength s ≤ kMaxLength) :
    measureEscape s 0 = .ok (escapedLength s) ∧ writeEscape s (List.replicate (escapedLength s) 0) 0 =
        .ok (s.flatMap escaped, escapedLength s) := by
  have hmeas := measureEscape_eq s 0 (by omega)
  have hwrite := writeEscape_eq s (List.replicate (escapedLength s) 0) 0 (by simp)
  have hfill := filled_replicate (s.flatMap escaped)
  simp_all [escapedLength]

theorem uriEscape_eq (s : List Nat) (hlimit : escapedLength s ≤ kMaxLength) :
    uriEscape s = .ok (s.flatMap escaped) := by
  obtain ⟨hmeas, hwrite⟩ := escape_passes s hlimit
  simp only [uriEscape, hmeas, bind, Except.bind, pure, Except.pure]
  simp_all [escaped_same]

/-- Unescaping undoes escaping; in both functions the second pass writes as many characters as the
first one has counted, and leaves the text as it is when that is the length of the source; and
`Unescape` reads only in the source. -/
theorem uriUnescape_uriEscape (s : List Nat) (hs : ∀ c ∈ s, c < 65536) : (escapedLength s ≤ kMaxLength →
      (∃ e, uriEscape s = .ok e ∧ uriUnescape e = .ok s) ∧
      ∃ n d, measureEscape s 0 = .ok n ∧ writeEscape s (List.replicate n 0) 0 = .ok (d, n) ∧
        (n = s.length → d = s)) ∧
    (∃ ascii n d, measureUnescape s s.length s.length 0 true 0 = .ok (ascii, n) ∧
      writeUnescape s s.length ascii s.length 0 (List.replicate n 0) 0 = .ok (d, n) ∧
      (n = s.length → d = s)) ∧
    ∀ i < s.length, ∃ value step, unescape s i s.length = .ok (value, step) := by
  refine ⟨fun hlimit => ⟨⟨s.flatMap escaped, uriEscape_eq s hlimit, ?_⟩, ?_⟩, ?_, fun i hi => ?_⟩
  · have hescaped : ∀ c ∈ s.flatMap escaped, c < 65536 := by
      intro c hc
      obtain ⟨chr, hchr, hc⟩ := List.mem_flatMap.1 hc
      exact escaped_lt (hs chr hchr) c hc
    have hvalues := values_escaped hs [] _ (Nat.le_refl _)
    rw [uriUnescape_eq hescaped]
    exact congrArg _ hvalues
  · obtain ⟨hmeasure, hwrite⟩ := escape_passes s hlimit
    exact ⟨_, _, hmeasure, hwrite, escaped_same.2⟩
  · obtain ⟨ascii, hmeasure, hwrite⟩ := unescape_passes hs
    refine ⟨ascii, _, _, hmeasure, hwrite, fun hlength => ?_⟩
    rw [(values_length hs s.length 0 (Nat.zero_le _)).2 (by omega), List.drop_zero]
  · exact ⟨_, _, unescape_eq hi⟩

theorem uriUnescape_uriEscape_percent : (escapedLength [0x25, 0x75, 0x20AC] ≤ kMaxLength →
      (∃ e, uriEscape [0x25, 0x75, 0x20AC] = .ok e ∧ uriUnescape e = .ok [0x25, 0x75, 0x20AC]) ∧
      ∃ n d, measureEscape [0x25, 0x75, 0x20AC] 0 = .ok n ∧
        writeEscape [0x25, 0x75, 0x20AC] (List.replicate n 0) 0 = .ok (d, n) ∧
        (n = 3 → d = [0x25, 0x75, 0x20AC])) ∧
    (∃ ascii n d, measureUnescape [0x25, 0x75, 0x20AC] 3 3 0 true 0 = .ok (ascii, n) ∧
      writeUnescape [0x25, 0x75, 0x20AC] 3 ascii 3 0 (List.replicate n 0) 0 = .ok (d, n) ∧
      (n = 3 → d = [0x25, 0x75, 0x20AC])) ∧
    ∀ i < 3, ∃ value step, unescape [0x25, 0x75, 0x20AC] i 3 = .ok (value, step) :=
  uriUnescape_uriEscape [0x25, 0x75, 0x20AC] (by decide)

end RoundTrip

end W16.EscapeStrings
