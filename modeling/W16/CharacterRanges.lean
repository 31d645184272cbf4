import Mathlib.Data.Int.Order.Basic
import Mathlib.Data.List.Basic

/-!
# Character ranges

The ranges of a character class, as the regexp compiler puts them in canonical form, merges and
negates them. A list changes in place; outputs that share a pointer share their list.
-/
namespace W16.CharacterRanges

/-- A `uc16` from an `int`. -/
def uc16 (value : Int) : Nat := (value % 65536).toNat

def kMaxUC16CharCode : Nat := 0xFFFF

def kMaxAsciiCharCode : Nat := 0x7F

/-- Characters from the first to the last one, both included. -/
structure CharacterRange where
  from_ : Nat
  to_ : Nat
  deriving DecidableEq, Repr, Inhabited

namespace CharacterRange

/-- The constructor, with arguments of type `int`. -/
def mk' (from_ to_ : Int) : CharacterRange := ⟨uc16 from_, uc16 to_⟩

def singleton (value : Nat) : CharacterRange := ⟨value, value⟩

def contains (range : CharacterRange) (c : Nat) : Bool := range.from_ ≤ c && c ≤ range.to_

def isValid (range : CharacterRange) : Bool := range.from_ ≤ range.to_

def isEverything (range : CharacterRange) (max : Nat) : Bool := range.from_ = 0 && max ≤ range.to_

end CharacterRange

/-- The loop of `IsCanonical`. -/
def isCanonicalFrom (max : Nat) : List CharacterRange → Bool
  | [] => true
  | range :: rest => if range.from_ ≤ max + 1 then false else isCanonicalFrom range.to_ rest

def isCanonical : List CharacterRange → Bool
  | [] => true
  | range :: rest => isCanonicalFrom range.to_ rest

section Canonicalize

/-- The loop of `MoveRanges` that begins at the end. -/
def moveUp (list : List CharacterRange) (from_ to_ : Nat) : Nat → List CharacterRange
  | 0 => list
  | i + 1 => moveUp (list.set (to_ + i) (list.getD (from_ + i) default)) from_ to_ i

def moveRanges (list : List CharacterRange) (from_ to_ count : Nat) : List CharacterRange :=
  if from_ < to_ then moveUp list from_ to_ count
  else
    (List.range count).foldl (fun l i => l.set (to_ + i) (l.getD (from_ + i) default)) list

/-- The loop of `InsertRangeInCanonicalList`, downwards from the index. -/
def insertPositions (list : List CharacterRange) (insert : CharacterRange) : Nat → Nat → Nat × Nat
  | 0, endPos => (0, endPos)
  | i + 1, endPos =>
    let current := list.getD i default
    if current.from_ > insert.to_ + 1 then insertPositions list insert i i
    else if current.to_ + 1 < insert.from_ then (i + 1, endPos)
    else insertPositions list insert i endPos

def insertRangeInCanonicalList (list : List CharacterRange) (count : Nat)
    (insert : CharacterRange) : List CharacterRange × Nat :=
  let (startPos, endPos) := insertPositions list insert count count
  if startPos = endPos then
    let list :=
      if startPos < count then moveRanges list startPos (startPos + 1) (count - startPos) else list
    (list.set startPos insert, count + 1)
  else if startPos + 1 = endPos then
    let toReplace := list.getD startPos default
    let newFrom := min toReplace.from_ insert.from_
    let newTo := max toReplace.to_ insert.to_
    (list.set startPos ⟨newFrom, newTo⟩, count)
  else
    let newFrom := min (list.getD startPos default).from_ insert.from_
    let newTo := max (list.getD (endPos - 1) default).to_ insert.to_
    let list :=
      if endPos < count then moveRanges list endPos (startPos + 1) (count - endPos) else list
    (list.set startPos ⟨newFrom, newTo⟩, count - (endPos - startPos) + 1)

/-- The first loop of `Canonicalize`: how many ranges behind the first one are canonical. -/
def canonicalPrefix (max : Nat) : List CharacterRange → Nat
  | [] => 0
  | current :: rest =>
    if current.from_ ≤ max + 1 then 0 else canonicalPrefix current.to_ rest + 1

/-- `Canonicalize` of a list. -/
def canonicalize (ranges : List CharacterRange) : List CharacterRange :=
  match ranges with
  | first :: second :: rest =>
    let i := canonicalPrefix first.to_ (second :: rest) + 1
    if i = ranges.length then ranges
    else
      let (list, numCanonical) := (List.range' i (ranges.length - i)).foldl
        (fun (list, numCanonical) read =>
          insertRangeInCanonicalList list numCanonical (list.getD read default)) (ranges, i)
      list.take numCanonical
  | _ => ranges

end Canonicalize

section Merge

/-- The sets a range may come from, as bits. -/
def kInsideNone : Nat := 0
def kInsideFirst : Nat := 1
def kInsideSecond : Nat := 2
def kInsideBoth : Nat := 3

/-- The lists that pointers refer to. -/
abbrev Sets := Nat → List CharacterRange

/-- The three outputs, where `none` is `NULL`. -/
structure Outputs where
  firstSetOnlyOut : Option Nat
  secondSetOnlyOut : Option Nat
  bothSetsOut : Option Nat
  deriving DecidableEq, Repr

/-- What `AddRangeToSet` makes of a list. -/
def addRange (list : List CharacterRange) (range : CharacterRange) : List CharacterRange :=
  match list.getLast? with
  | some lastRange =>
    if (lastRange.to_ : Int) = range.from_ - 1 then
      list.dropLast ++ [⟨lastRange.from_, range.to_⟩]
    else list ++ [range]
  | none => list ++ [range]

def addRangeToSet (sets : Sets) (set : Option Nat) (range : CharacterRange) : Sets :=
  match set with
  | none => sets
  | some p => fun q => if q = p then addRange (sets p) range else sets q

/-- The output for a selector. -/
def Outputs.select (out : Outputs) (selector : Nat) : Option Nat :=
  if selector = kInsideFirst then out.firstSetOnlyOut
  else if selector = kInsideSecond then out.secondSetOnlyOut
  else if selector = kInsideBoth then out.bothSetsOut
  else none

def addRangeToSelectedSet (out : Outputs) (sets : Sets) (selector : Nat) (range : CharacterRange) : Sets :=
  addRangeToSet sets (out.select selector) range

/-- `AddAll`; there is no list behind `NULL`. -/
def addAll (sets : Sets) (set : Option Nat) (list : List CharacterRange) : Option Sets :=
  set.map fun p q => if q = p then sets p ++ list else sets q

/-- What the loop of `Merge` changes, with the rest of the inputs. -/
structure Sweep where
  first : List CharacterRange
  second : List CharacterRange
  from_ : Int
  to_ : Int
  state : Nat
  sets : Sets

/-- The next range is the smallest one of both inputs. -/
def Sweep.next (s : Sweep) : Option (CharacterRange × Nat × Sweep) :=
  match s.first, s.second with
  | [], [] => none
  | r :: first, [] => some (r, kInsideFirst, { s with first })
  | [], r :: second => some (r, kInsideSecond, { s with second })
  | r :: first, r' :: second =>
    if r.from_ < r'.from_ then some (r, kInsideFirst, { s with first })
    else some (r', kInsideSecond, { s with second })

/-- What the loop does with the next range. -/
def Sweep.step (out : Outputs) (s : Sweep) (nextRange : CharacterRange) (rangeSource : Nat) : Sweep :=
  let add := addRangeToSelectedSet out
  if s.to_ < nextRange.from_ then
    { s with
      sets := add s.sets s.state (.mk' s.from_ s.to_)
      from_ := nextRange.from_
      to_ := nextRange.to_
      state := rangeSource }
  else
    let sets :=
      if s.from_ < nextRange.from_ then
        add s.sets s.state (.mk' s.from_ (nextRange.from_ - 1))
      else s.sets
    if s.to_ < nextRange.to_ then
      { s with
        sets := add sets (s.state ||| rangeSource) (.mk' nextRange.from_ s.to_)
        from_ := s.to_ + 1
        to_ := nextRange.to_
        state := rangeSource }
    else
      { s with
        sets := add sets (s.state ||| rangeSource) (.mk' nextRange.from_ nextRange.to_)
        from_ := nextRange.to_ + 1
        state := if (nextRange.to_ : Int) = s.to_ then kInsideNone else s.state }

/-- The loop of `Merge`, with a bound on the number of ranges. -/
def Sweep.run (out : Outputs) : Nat → Sweep → Sweep
  | 0, s => s
  | fuel + 1, s =>
    match s.next with
    | none => s
    | some (nextRange, rangeSource, s) => run out fuel (s.step out nextRange rangeSource)

/-- `Merge`; there is no result where `NULL` is dereferenced. -/
def merge (first second : List CharacterRange) (out : Outputs) (sets : Sets) : Option Sets :=
  if first = [] then addAll sets out.secondSetOnlyOut second
  else if second = [] then addAll sets out.firstSetOnlyOut first
  else
    let s := Sweep.run out (first.length + second.length) ⟨first, second, 0, -1, kInsideNone, sets⟩
    some (addRangeToSelectedSet out s.sets s.state (.mk' s.from_ s.to_))

end Merge

/-- The loop of `Negate`. -/
def negateFrom (from_ : Nat) : List CharacterRange → List CharacterRange × Nat
  | [] => ([], from_)
  | range :: rest =>
    let (negated, last) := negateFrom range.to_ rest
    (.mk' (from_ + 1) (range.from_ - 1) :: negated, last)

/-- `Negate`, which adds the ranges to an empty list. -/
def negate (ranges : List CharacterRange) : List CharacterRange :=
  let (negated, from_) :=
    match ranges with
    | range :: rest => if range.from_ = 0 then negateFrom range.to_ rest else negateFrom 0 ranges
    | [] => negateFrom 0 []
  if from_ < kMaxUC16CharCode then negated ++ [CharacterRange.mk' (from_ + 1) kMaxUC16CharCode] else negated

section CaseEquivalents

/-- The tables of the isolate: `jsregexp_canonrange` and `jsregexp_uncanonicalize`. -/
structure CaseTables where
  canonrange : Nat → List Nat
  uncanonicalize : Nat → List Nat

/-- What the loop adds for a block. -/
def addBlock (T : CaseTables) (bottom top pos blockEnd : Nat) (ranges : List CharacterRange) :
    List CharacterRange :=
  let end_ := if blockEnd > top then top else blockEnd
  (T.uncanonicalize blockEnd).foldl (fun ranges (c : Nat) =>
    let rangeFrom := uc16 ((c : Int) - ((blockEnd : Int) - pos))
    let rangeTo := uc16 ((c : Int) - ((blockEnd : Int) - end_))
    if bottom ≤ rangeFrom && rangeTo ≤ top then ranges
    else ranges ++ [⟨rangeFrom, rangeTo⟩]) ranges

/-- The loop over the blocks, with a bound on the number of positions. -/
def addBlocks (T : CaseTables) (bottom top : Nat) : Nat → Nat → List CharacterRange → List CharacterRange
  | 0, _, ranges => ranges
  | fuel + 1, pos, ranges =>
    if pos < top then
      let blockEnd := ((T.canonrange pos).head?).getD pos
      let end_ := if blockEnd > top then top else blockEnd
      addBlocks T bottom top fuel (end_ + 1) (addBlock T bottom top pos blockEnd ranges)
    else ranges

def CharacterRange.addCaseEquivalents (T : CaseTables) (range : CharacterRange) (isAscii : Bool)
    (ranges : List CharacterRange) : List CharacterRange :=
  let bottom := range.from_
  if isAscii && bottom > kMaxAsciiCharCode then ranges
  else
    let top := if isAscii && range.to_ > kMaxAsciiCharCode then kMaxAsciiCharCode else range.to_
    if top = bottom then
      (T.uncanonicalize bottom).foldl (fun ranges (chr : Nat) =>
        if chr ≠ bottom then ranges ++ [CharacterRange.singleton (uc16 chr)] else ranges) ranges
    else addBlocks T bottom top (top + 1) bottom ranges

end CaseEquivalents

end W16.CharacterRanges
