import W16.Border
import Mathlib.Data.List.Basic

/-!
# String search

`StringSearch` looks for a pattern with one of several strategies and may change it during a
search. The tables of the Boyer-Moore strategies are kept in the isolate.
-/
namespace W16.StringSearches

set_option linter.dupNamespace false

def kBMMaxShift : Nat := 250
def kAsciiAlphabetSize : Nat := 128
def kUC16AlphabetSize : Nat := 256
def kBMMinPatternLength : Nat := 7
def kMaxAsciiCharCodeU : Nat := 0x7f

/-- The size of a character in bytes, where those of one byte are ASCII. -/
inductive Width where
  | one | two
  deriving DecidableEq

def Width.Fits (w : Width) (c : Nat) : Prop :=
  match w with
  | .one => c ≤ kMaxAsciiCharCodeU
  | .two => c < 65536

/-- `static_cast<SubjectChar>` -/
def Width.cast (w : Width) (c : Nat) : Nat :=
  match w with
  | .one => c % 256
  | .two => c % 65536

inductive Strategy where
  | failSearch
  | singleCharSearch
  | linearSearch
  | initialSearch
  | boyerMooreHorspoolSearch
  | boyerMooreSearch
  deriving DecidableEq

/-- The tables in the isolate. -/
structure Tables where
  badChar : List Int
  goodSuffixShift : List Int
  suffix : List Nat

structure StringSearch where
  pattern : List Nat
  start : Nat
  strategy : Strategy
  tables : Tables

/-- The element of a string or table. -/
def get (subject : List Nat) (i : Int) : Nat := subject.getD i.toNat 0

/-- The first place of the character among `n` characters from `i` on. -/
def memchr (subject : List Nat) (i c : Nat) : Nat → Option Nat
  | 0 => none
  | n + 1 => if subject.getD i 0 = c then some i else memchr subject (i + 1) c n

section

variable (patternChar subjectChar : Width)

/-- The constructor, which leaves the tables of the isolate alone. -/
def newStringSearch (pattern : List Nat) (tables : Tables) : StringSearch :=
  { pattern := pattern
    start := pattern.length - kBMMaxShift
    strategy :=
      if patternChar = .two ∧ subjectChar = .one ∧
          ¬pattern.all (fun c => decide (c ≤ kMaxAsciiCharCodeU)) = true then .failSearch
      else if pattern.length < kBMMinPatternLength then
        if pattern.length = 1 then .singleCharSearch else .linearSearch
      else .initialSearch
    tables := tables }

/-- `AlphabetSize` -/
def alphabetSize : Nat :=
  match patternChar with
  | .one => kAsciiAlphabetSize
  | .two => kUC16AlphabetSize

/-- `CharOccurrence` -/
def charOccurrence (badCharOccurrence : List Int) (charCode : Nat) : Int :=
  if subjectChar = .one then badCharOccurrence.getD charCode 0
  else if patternChar = .one then
    if charCode > kMaxAsciiCharCodeU then -1 else badCharOccurrence.getD charCode 0
  else badCharOccurrence.getD (charCode % kUC16AlphabetSize) 0

/-! ## Short patterns -/

def singleCharSearch (s : StringSearch) (subject : List Nat) (index : Nat) : Int :=
  let patternFirstChar := s.pattern.getD 0 0
  let found c := match memchr subject index c (subject.length - index) with
    | none => -1
    | some i => (i : Int)
  if subjectChar = .one ∧ patternChar = .one then found patternFirstChar
  else if patternChar = .two ∧ subjectChar = .one ∧ patternFirstChar > kMaxAsciiCharCodeU then -1
  else found (subjectChar.cast patternFirstChar)

/-- `CharCompare`, with the rest of the pattern and the place in the subject. -/
def charCompare (subject : List Nat) : List Nat → Nat → Bool
  | [], _ => true
  | c :: pattern, i => if c ≠ subject.getD i 0 then false else charCompare subject pattern (i + 1)

/-- The loop of `LinearSearch`. -/
def linearLoop (s : StringSearch) (subject : List Nat) : Nat → Nat → Option Int
  | 0, _ => none
  | fuel + 1, i =>
    let patternFirstChar := s.pattern.getD 0 0
    let n : Int := subject.length - s.pattern.length
    if (i : Int) ≤ n then
      if subjectChar = .one ∧ patternChar = .one then
        match memchr subject i patternFirstChar (n - i + 1).toNat with
        | none => some (-1)
        | some pos =>
          if charCompare subject s.pattern.tail (pos + 1) then some pos
          else linearLoop s subject fuel (pos + 1)
      else if subject.getD i 0 ≠ patternFirstChar then linearLoop s subject fuel (i + 1)
      else if charCompare subject s.pattern.tail (i + 1) then some i
      else linearLoop s subject fuel (i + 1)
    else some (-1)

/-! ## Tables -/

/-- `PopulateBoyerMooreHorspoolTable` -/
def populateBoyerMooreHorspoolTable (s : StringSearch) : StringSearch :=
  let tableSize := alphabetSize patternChar
  let first : Int := if s.start = 0 then -1 else s.start - 1
  let table := List.replicate tableSize first ++ s.tables.badChar.drop tableSize
  let table := (List.range' s.start (s.pattern.length - 1 - s.start)).foldl (fun table i =>
    let c := s.pattern.getD i 0
    let bucket := match patternChar with
      | .one => c
      | .two => c % alphabetSize patternChar
    table.set bucket (i : Int)) table
  { s with tables := { s.tables with badChar := table } }

end

/-- The variables of `PopulateBoyerMooreTable`. -/
structure Populating where
  i : Nat
  suffix : Nat
  shiftTable : List Int
  suffixTable : List Nat

section

variable (pattern : List Nat) (start : Nat)

/-- `if (shift_table[suffix] == length) shift_table[suffix] = value` -/
def setShift (shiftTable : List Int) (suffix : Nat) (value : Int) : List Int :=
  if shiftTable.getD (suffix - start) 0 = (pattern.length : Int) - start then
    shiftTable.set (suffix - start) value
  else shiftTable

/-- The loop over the suffixes before which another character than `c` stands. -/
def fallBack (c : Nat) : Nat → Populating → Option Populating
  | 0, _ => none
  | fuel + 1, p =>
    if p.suffix ≤ pattern.length ∧ c ≠ pattern.getD (p.suffix - 1) 0 then
      fallBack c fuel { p with
          shiftTable := setShift pattern start p.shiftTable p.suffix ((p.suffix : Int) - p.i)
          suffix := p.suffixTable.getD (p.suffix - start) 0 }
    else some p

/-- `suffix_table[--i] = --suffix` -/
def stepBack (p : Populating) : Populating :=
  { p with
    i := p.i - 1
    suffix := p.suffix - 1
    suffixTable := p.suffixTable.set (p.i - 1 - start) (p.suffix - 1) }

/-- The loop that runs while there is no suffix to extend. -/
def skipOthers (lastChar : Nat) : Nat → Populating → Option Populating
  | 0, _ => none
  | fuel + 1, p =>
    if p.i > start ∧ pattern.getD (p.i - 1) 0 ≠ lastChar then
      skipOthers lastChar fuel { p with
          shiftTable := setShift pattern start p.shiftTable pattern.length ((pattern.length : Int) - p.i)
          i := p.i - 1
          suffixTable := p.suffixTable.set (p.i - 1 - start) pattern.length }
    else some p

/-- The loop that finds the suffixes. -/
def findSuffixes : Nat → Populating → Option Populating
  | 0, _ => none
  | fuel + 1, p =>
    if p.i > start then
      (fallBack pattern start (pattern.getD (p.i - 1) 0) (fuel + 1) p).bind fun p =>
        let p := stepBack start p
        if p.suffix = pattern.length then
          (skipOthers pattern start (pattern.getD (pattern.length - 1) 0) (fuel + 1) p).bind fun p =>
            findSuffixes fuel (if p.i > start then stepBack start p else p)
        else findSuffixes fuel p
    else some p

/-- The loop that uses the suffixes of the whole pattern. -/
def useSuffixes (p : Populating) : Populating :=
  (List.range' start (pattern.length + 1 - start)).foldl (fun p i =>
    { p with
      shiftTable := setShift pattern start p.shiftTable i ((p.suffix : Int) - start)
      suffix := if i = p.suffix then p.suffixTable.getD (p.suffix - start) 0 else p.suffix }) p

end

/-- `PopulateBoyerMooreTable` -/
def populateBoyerMooreTable (fuel : Nat) (s : StringSearch) : Option StringSearch :=
  let patternLength := s.pattern.length
  let length := patternLength - s.start
  let shiftTable := (List.replicate length (length : Int) ++
    s.tables.goodSuffixShift.drop length).set (patternLength - s.start) 1
  let suffixTable := s.tables.suffix.set (patternLength - s.start) (patternLength + 1)
  (findSuffixes s.pattern s.start fuel ⟨patternLength, patternLength + 1, shiftTable, suffixTable⟩).map fun p =>
      let p := if p.suffix < patternLength then useSuffixes s.pattern s.start p else p
      { s with tables :=
        { s.tables with goodSuffixShift := p.shiftTable, suffix := p.suffixTable } }

/-! ## Long patterns -/

/-- `while (j >= 0 && pattern[j] == subject[index + j]) j--`, from the place before the last
argument. -/
def matchBack (pattern subject : List Nat) (index : Int) : Nat → Int
  | 0 => -1
  | j + 1 =>
    if pattern.getD j 0 = get subject (index + j) then matchBack pattern subject index j else j

section

variable (patternChar subjectChar : Width)

/-- The loop that compares the last character, in both Boyer-Moore searches. The result is the
index and the badness, or `none` where the search returns `-1`. -/
def skipToLastChar (s : StringSearch) (subject : List Nat) : Nat → Int → Int → Option (Option (Int × Int))
  | 0, _, _ => none
  | fuel + 1, index, badness =>
    let j : Int := s.pattern.length - 1
    let c := get subject (index + j)
    if get s.pattern j ≠ c then
      let shift := j - charOccurrence patternChar subjectChar s.tables.badChar c
      if index + shift > (subject.length : Int) - s.pattern.length then some none
      else skipToLastChar s subject fuel (index + shift) (badness + (1 - shift))
    else some (some (index, badness))

/-- `BoyerMooreSearch` -/
def boyerMooreSearch (s : StringSearch) (subject : List Nat) : Nat → Int → Option Int
  | 0, _ => none
  | fuel + 1, index =>
    if index ≤ (subject.length : Int) - s.pattern.length then
      match skipToLastChar patternChar subjectChar s subject (fuel + 1) index 0 with
      | none => none
      | some none => some (-1)
      | some (some (index, _)) =>
        let j := matchBack s.pattern subject index s.pattern.length
        if j < 0 then some index
        else if j < s.start then
          boyerMooreSearch s subject fuel (index + ((s.pattern.length : Int) - 1 -
            charOccurrence patternChar subjectChar s.tables.badChar
              (subjectChar.cast (get s.pattern ((s.pattern.length : Int) - 1)))))
        else
          let gsShift := s.tables.goodSuffixShift.getD ((j + 1).toNat - s.start) 0
          let bcOcc := charOccurrence patternChar subjectChar s.tables.badChar
            (get subject (index + j))
          let shift := j - bcOcc
          boyerMooreSearch s subject fuel (index + if gsShift > shift then gsShift else shift)
    else some (-1)

/-- `BoyerMooreHorspoolSearch` -/
def boyerMooreHorspoolSearch (s : StringSearch) (subject : List Nat) :
    Nat → Int → Int → Option (Int × StringSearch)
  | 0, _, _ => none
  | fuel + 1, index, badness =>
    let lastCharShift := (s.pattern.length : Int) - 1 -
      charOccurrence patternChar subjectChar s.tables.badChar
        (subjectChar.cast (get s.pattern ((s.pattern.length : Int) - 1)))
    if index ≤ (subject.length : Int) - s.pattern.length then
      match skipToLastChar patternChar subjectChar s subject (fuel + 1) index badness with
      | none => none
      | some none => some (-1, s)
      | some (some (index, badness)) =>
        let j := matchBack s.pattern subject index (s.pattern.length - 1)
        if j < 0 then some (index, s)
        else
          let index := index + lastCharShift
          let badness := badness + ((s.pattern.length - j) - lastCharShift)
          if badness > 0 then
            (populateBoyerMooreTable (fuel + 1) s).bind fun s =>
              let s := { s with strategy := .boyerMooreSearch }
              (boyerMooreSearch patternChar subjectChar s subject (fuel + 1) index).map (·, s)
          else boyerMooreHorspoolSearch s subject fuel index badness
    else some (-1, s)

/-- `do … while (j < pattern_length)` from `j`, with the number of characters that are left. -/
def matchForward (pattern subject : List Nat) (i : Nat) : Nat → Nat → Nat
  | 0, j => j
  | n + 1, j =>
    if pattern.getD j 0 ≠ subject.getD (i + j) 0 then j
    else matchForward pattern subject i n (j + 1)

/-- `InitialSearch` -/
def initialSearch (s : StringSearch) (subject : List Nat) : Nat → Nat → Int → Option (Int × StringSearch)
  | 0, _, _ => none
  | fuel + 1, i, badness =>
    let patternFirstChar := s.pattern.getD 0 0
    let n : Int := subject.length - s.pattern.length
    if (i : Int) ≤ n then
      let badness := badness + 1
      if badness ≤ 0 then
        -- the body of the loop at a place with the first character
        let compare (i : Nat) :=
          let j := matchForward s.pattern subject i (s.pattern.length - 1) 1
          if j = s.pattern.length then some ((i : Int), s)
          else initialSearch s subject fuel (i + 1) (badness + j)
        if subjectChar = .one ∧ patternChar = .one then
          match memchr subject i patternFirstChar (n - i + 1).toNat with
          | none => some (-1, s)
          | some pos => compare pos
        else if subject.getD i 0 ≠ patternFirstChar then initialSearch s subject fuel (i + 1) badness
        else compare i
      else
        let s := { populateBoyerMooreHorspoolTable patternChar s with
          strategy := .boyerMooreHorspoolSearch }
        boyerMooreHorspoolSearch patternChar subjectChar s subject (fuel + 1) i (-(s.pattern.length : Int))
    else some (-1, s)

/-- `Search`, which gives the object as it is afterwards. -/
def search (fuel : Nat) (s : StringSearch) (subject : List Nat) (index : Nat) : Option (Int × StringSearch) :=
  match s.strategy with
  | .failSearch => some (-1, s)
  | .singleCharSearch => some (singleCharSearch patternChar subjectChar s subject index, s)
  | .linearSearch => (linearLoop patternChar subjectChar s subject fuel index).map (·, s)
  | .initialSearch =>
    initialSearch patternChar subjectChar s subject fuel index (-10 - (s.pattern.length : Int) * 4)
  | .boyerMooreHorspoolSearch =>
    boyerMooreHorspoolSearch patternChar subjectChar s subject fuel index (-(s.pattern.length : Int))
  | .boyerMooreSearch =>
    (boyerMooreSearch patternChar subjectChar s subject fuel index).map (·, s)

/-- Calls of `Search` one after the other, with their results. -/
def searches (fuel : Nat) : StringSearch → List (List Nat × Nat) → Option (List Int)
  | _, [] => some []
  | s, (subject, index) :: calls =>
    (search patternChar subjectChar fuel s subject index).bind fun r =>
      (searches fuel r.2 calls).map (r.1 :: ·)

end

end W16.StringSearches

/-!
## The tables of the Boyer-Moore searches

The table of bad characters gives the last place of a character before the end of the pattern, or
a later one. The table of good suffixes is filled with the borders of the part of the pattern that
it covers.
-/
namespace W16.StringSearches

open Borders

/-! ## Bad characters -/

/-- What the searches use of the table of bad characters. -/
structure BadChars (patternChar subjectChar : Width) (pattern : List Nat) (table : List Int) : Prop where
  lower : ∀ c, subjectChar.Fits c → -1 ≤ charOccurrence patternChar subjectChar table c
  upper : ∀ c, subjectChar.Fits c → charOccurrence patternChar subjectChar table c + 2 ≤ (pattern.length : Int)
  last : ∀ c, subjectChar.Fits c → ∀ p, p + 1 < pattern.length → pattern.getD p 0 = c →
    (p : Int) ≤ charOccurrence patternChar subjectChar table c

theorem getD_set {α : Type} (l : List α) (i k : Nat) (v d : α) (hi : i < l.length) :
    (l.set i v).getD k d = if k = i then v else l.getD k d := by
  grind

theorem getD_mem {α : Type} {l : List α} {i : Nat} (h : i < l.length) (d : α) : l.getD i d ∈ l := by
  grind

/-- The place of a character of the pattern in the table. -/
def bucket (patternChar : Width) (c : Nat) : Nat :=
  match patternChar with
  | .one => c
  | .two => c % alphabetSize patternChar

variable {patternChar : Width}

theorem bucket_lt {c : Nat} (hc : patternChar.Fits c) : bucket patternChar c < alphabetSize patternChar := by
  cases patternChar with
  | one => exact Nat.lt_succ_of_le hc
  | two => exact Nat.mod_lt _ (by decide)

/-- The table after the places below `i`. -/
structure Occurrences (patternChar : Width) (pattern : List Nat) (start i : Nat) (table : List Int) : Prop where
  lower : ∀ b < alphabetSize patternChar, (start : Int) - 1 ≤ table.getD b 0
  upper : ∀ b < alphabetSize patternChar, table.getD b 0 < i
  last : ∀ p, start ≤ p → p < i → (p : Int) ≤ table.getD (bucket patternChar (pattern.getD p 0)) 0

theorem occurrences_fold {pattern : List Nat} {start : Nat} {table : List Int}
    (hfits : ∀ c ∈ pattern, patternChar.Fits c) (hsize : alphabetSize patternChar ≤ table.length)
    (htable : ∀ b < alphabetSize patternChar, table.getD b 0 = (start : Int) - 1) (n : Nat)
    (hn : start + n ≤ pattern.length) :
    Occurrences patternChar pattern start (start + n) ((List.range' start n).foldl
        (fun table i => table.set (bucket patternChar (pattern.getD i 0)) (i : Int)) table) ∧
    ((List.range' start n).foldl
        (fun table i => table.set (bucket patternChar (pattern.getD i 0)) (i : Int)) table).length =
      table.length := by
  induction n with
  | zero =>
    refine ⟨⟨fun b hb => Int.le_of_eq (htable b hb).symm, fun b hb => ?_, fun p hp hlt => ?_⟩, rfl⟩
    · grind
    · omega
  | succ n ih =>
    obtain ⟨hocc, hlen⟩ := ih (by omega)
    rw [List.range'_concat, Nat.one_mul, List.foldl_append, List.foldl_cons, List.foldl_nil]
    revert hocc hlen
    generalize (List.range' start n).foldl
      (fun table i => table.set (bucket patternChar (pattern.getD i 0)) (i : Int)) table = filled
    intro hocc hlen
    have hc : patternChar.Fits (pattern.getD (start + n) 0) := hfits _ (getD_mem (by omega) 0)
    have hlt := bucket_lt hc
    have hset := fun k => getD_set filled (bucket patternChar (pattern.getD (start + n) 0)) k
      ((start + n : Nat) : Int) 0 (by omega)
    refine ⟨⟨fun b hb => ?_, fun b hb => ?_, fun p hp hpn => ?_⟩, by rw [List.length_set, hlen]⟩
    · rw [hset]
      have := hocc.lower b hb
      split <;> omega
    · rw [hset]
      have := hocc.upper b hb
      split <;> omega
    · rw [hset]
      split
      · omega
      · next hne =>
        have hpn' : p < start + n := by
          grind
        exact hocc.last p hp hpn'

/-- The sizes of the tables in the isolate. -/
structure Tables.Sized (t : Tables) : Prop where
  badChar : t.badChar.length = kUC16AlphabetSize
  goodSuffixShift : t.goodSuffixShift.length = kBMMaxShift + 1
  suffix : t.suffix.length = kBMMaxShift + 1

theorem alphabetSize_le (patternChar : Width) : alphabetSize patternChar ≤ kUC16AlphabetSize := by
  cases patternChar <;> decide

theorem occurrences_populate {s : StringSearch}
    (hfits : ∀ c ∈ s.pattern, patternChar.Fits c) (hsized : s.tables.Sized)
    (hstart : s.start + 1 ≤ s.pattern.length) :
    Occurrences patternChar s.pattern s.start (s.pattern.length - 1)
      (populateBoyerMooreHorspoolTable patternChar s).tables.badChar ∧
    (populateBoyerMooreHorspoolTable patternChar s).tables.Sized := by
  have hsize := alphabetSize_le patternChar
  have hlength : (List.replicate (alphabetSize patternChar) (if s.start = 0 then (-1 : Int) else s.start - 1) ++
        s.tables.badChar.drop (alphabetSize patternChar)).length = kUC16AlphabetSize := by
    rw [List.length_append, List.length_replicate, List.length_drop, hsized.badChar]
    omega
  have hfirst : ∀ b < alphabetSize patternChar, (List.replicate (alphabetSize patternChar)
      (if s.start = 0 then (-1 : Int) else s.start - 1) ++
        s.tables.badChar.drop (alphabetSize patternChar)).getD b 0 = (s.start : Int) - 1 := by
    intro b hb
    rw [List.getD_eq_getElem?_getD, List.getElem?_append_left (by simpa using hb),
      List.getElem?_replicate, if_pos hb, Option.getD_some]
    split <;> omega
  obtain ⟨hocc, hlen⟩ := occurrences_fold hfits (Nat.le_trans hsize (Nat.le_of_eq hlength.symm))
    hfirst (s.pattern.length - 1 - s.start) (by omega)
  rw [show s.start + (s.pattern.length - 1 - s.start) = s.pattern.length - 1 by omega] at hocc
  have heq : (populateBoyerMooreHorspoolTable patternChar s).tables.badChar =
      (List.range' s.start (s.pattern.length - 1 - s.start)).foldl
        (fun table i => table.set (bucket patternChar (s.pattern.getD i 0)) (i : Int))
        (List.replicate (alphabetSize patternChar) (if s.start = 0 then (-1 : Int) else s.start - 1) ++
            s.tables.badChar.drop (alphabetSize patternChar)) := by
    cases patternChar <;> rfl
  refine ⟨hocc, ?_, hsized.goodSuffixShift, hsized.suffix⟩
  rw [heq, hlen, hlength]

/-- The table of bad characters is right for a pattern that is not sent to `FailSearch`. -/
theorem badChars_populate {subjectChar : Width} {s : StringSearch} (hfits : ∀ c ∈ s.pattern, patternChar.Fits c)
    (hsized : s.tables.Sized) (hstart : s.start + 1 < s.pattern.length) :
    BadChars patternChar subjectChar s.pattern
      (populateBoyerMooreHorspoolTable patternChar s).tables.badChar := by
  obtain ⟨⟨hlower, hupper, hlast⟩, -⟩ := occurrences_populate hfits hsized (by omega)
  revert hlower hupper hlast
  generalize (populateBoyerMooreHorspoolTable patternChar s).tables.badChar = table
  intro hlower hupper hlast
  -- an entry of the table that is found for a character
  have hentry : ∀ c b, b < alphabetSize patternChar → (∀ p, p + 1 < s.pattern.length → s.pattern.getD p 0 = c →
        bucket patternChar (s.pattern.getD p 0) = b) →
      -1 ≤ table.getD b 0 ∧ table.getD b 0 + 2 ≤ (s.pattern.length : Int) ∧
        ∀ p, p + 1 < s.pattern.length → s.pattern.getD p 0 = c → (p : Int) ≤ table.getD b 0 := by
    intro c b hb hbucket
    have h₁ := hlower b hb
    have h₂ := hupper b hb
    refine ⟨by omega, by omega, fun p hp hpc => ?_⟩
    rcases Nat.lt_or_ge p s.start with hlt | hge
    · omega
    · have := hlast p hge (by omega)
      rwa [hbucket p hp hpc] at this
  have hall : ∀ c, subjectChar.Fits c → -1 ≤ charOccurrence patternChar subjectChar table c ∧
      charOccurrence patternChar subjectChar table c + 2 ≤ (s.pattern.length : Int) ∧
      ∀ p, p + 1 < s.pattern.length → s.pattern.getD p 0 = c →
        (p : Int) ≤ charOccurrence patternChar subjectChar table c := by
    intro c hc
    cases subjectChar with
    | one =>
      cases patternChar with
      | one => exact hentry c c (Nat.lt_succ_of_le hc) fun p _ hpc => hpc
      | two =>
        refine hentry c c (Nat.lt_of_le_of_lt hc (by decide)) fun p hp hpc => ?_
        rw [hpc]
        exact Nat.mod_eq_of_lt (Nat.lt_of_le_of_lt hc (by decide))
    | two =>
      rw [charOccurrence, if_neg (by decide)]
      cases patternChar with
      | one =>
        rw [if_pos rfl]
        split
        · next hlarge =>
          refine ⟨by omega, by omega, fun p hp hpc => ?_⟩
          have : s.pattern.getD p 0 ≤ kMaxAsciiCharCodeU := hfits _ (getD_mem (by omega) 0)
          omega
        · next hsmall =>
          exact hentry c c (Nat.lt_succ_of_le (Nat.le_of_not_lt hsmall)) fun p _ hpc => hpc
      | two =>
        refine hentry c _ (Nat.mod_lt _ (by decide)) fun p _ hpc => ?_
        rw [hpc]
        rfl
  exact ⟨fun c hc => (hall c hc).1, fun c hc => (hall c hc).2.1, fun c hc => (hall c hc).2.2⟩

end W16.StringSearches
