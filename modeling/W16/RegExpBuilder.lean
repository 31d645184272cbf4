import W16.RegExpScanner

/-!
# Building the tree of a pattern

`ParseDisjunction` with `RegExpBuilder`, which merges text and leaves out what matches only the
empty string, and with a builder that has one node for each production of the grammar.
-/
namespace W16.RegExps

set_option linter.dupNamespace false

section Lists

/-- The last element is kept apart. There is none only in an empty list. -/
structure BufferedZoneList (α : Type) where
  list : List α
  last : Option α
  buffered : last = none → list = []

namespace BufferedZoneList

variable {α : Type}

def empty : BufferedZoneList α := ⟨[], none, fun _ => rfl⟩

def add (l : BufferedZoneList α) (value : α) : BufferedZoneList α :=
  ⟨l.list ++ l.last.toList, some value, fun h => nomatch h⟩

/-- The last element, and the list without it. -/
def removeLast (l : BufferedZoneList α) : Option (α × BufferedZoneList α) :=
  l.last.map fun result =>
    (result, ⟨l.list.dropLast, l.list.getLast?, fun h => by rw [List.getLast?_eq_none_iff.1 h]; rfl⟩)

def getList (l : BufferedZoneList α) : List α := l.list ++ l.last.toList

end BufferedZoneList

def RegExpTrees.ofList : List RegExpTree → RegExpTrees
  | [] => .nil
  | tree :: trees => .cons tree (ofList trees)

end Lists

section MaxMatch

/-- The maximum of a sum that is no more than `kInfinity`. -/
def addMaxMatch (maxMatch nodeMaxMatch : Nat) : Nat :=
  if kInfinity - maxMatch < nodeMaxMatch then kInfinity else maxMatch + nodeMaxMatch

mutual

/-- `max_match`, by that of the captures that back references name. -/
def RegExpTree.maxMatch (captures : Nat → Option Nat) : RegExpTree → Nat
  | .empty => 0
  | .text elements => textLength elements
  | .assertion _ => 0
  | .backReference index => (captures index).getD 0
  | .capture body _ => body.maxMatch captures
  | .lookahead _ _ _ _ => 0
  | .quantifier body _ max _ =>
    if max > 0 ∧ body.maxMatch captures > kInfinity / max then kInfinity
    else max * body.maxMatch captures
  | .alternative nodes => nodes.sumMaxMatch captures 0
  | .disjunction alternatives => alternatives.greatestMaxMatch captures 0

def RegExpTrees.sumMaxMatch (captures : Nat → Option Nat) : RegExpTrees → Nat → Nat
  | .nil, maxMatch => maxMatch
  | .cons node nodes, maxMatch =>
    nodes.sumMaxMatch captures (addMaxMatch maxMatch (node.maxMatch captures))

def RegExpTrees.greatestMaxMatch (captures : Nat → Option Nat) : RegExpTrees → Nat → Nat
  | .nil, maxMatch => maxMatch
  | .cons alternative alternatives, maxMatch =>
    alternatives.greatestMaxMatch captures (max maxMatch (alternative.maxMatch captures))

end

end MaxMatch

section Builder

/-- An element of `text_` is a tree that is text. -/
structure RegExpBuilder where
  pendingEmpty : Bool
  characters : Option (List Nat)
  terms : BufferedZoneList RegExpTree
  text : BufferedZoneList (List TextElement)
  alternatives : BufferedZoneList RegExpTree

namespace RegExpBuilder

def new : RegExpBuilder := ⟨false, none, .empty, .empty, .empty⟩

variable (b : RegExpBuilder)

def flushCharacters : RegExpBuilder :=
  let b := { b with pendingEmpty := false }
  match b.characters with
  | some characters => { b with characters := none, text := b.text.add [.atom characters] }
  | none => b

def flushText : RegExpBuilder :=
  let b := b.flushCharacters
  match b.text.getList with
  | [] => b
  | [text] => { b with terms := b.terms.add (.text text), text := .empty }
  | text => { b with terms := b.terms.add (.text text.flatten), text := .empty }

def addCharacter (c : Nat) : RegExpBuilder :=
  { b with pendingEmpty := false, characters := some (b.characters.getD [] ++ [c]) }

def addEmpty : RegExpBuilder := { b with pendingEmpty := true }

def addAtom : RegExpTree → RegExpBuilder
  | .empty => b.addEmpty
  | .text elements =>
    let b := b.flushCharacters
    { b with text := b.text.add elements }
  | term =>
    let b := b.flushText
    { b with terms := b.terms.add term }

def addAssertion (type : AssertionType) : RegExpBuilder :=
  let b := b.flushText
  { b with terms := b.terms.add (.assertion type) }

def flushTerms : RegExpBuilder :=
  let b := b.flushText
  let alternative : RegExpTree :=
    match b.terms.getList with
    | [] => .empty
    | [term] => term
    | terms => .alternative (.ofList terms)
  { b with alternatives := b.alternatives.add alternative, terms := .empty }

def newAlternative : RegExpBuilder := b.flushTerms

def toRegExp : RegExpTree :=
  match b.flushTerms.alternatives.getList with
  | [] => .empty
  | [alternative] => alternative
  | alternatives => .disjunction (.ofList alternatives)

/-- No builder where an assertion or nothing comes before the quantifier. -/
def addQuantifierToAtom (captures : Nat → Option Nat) (quantifier : Quantifier) : Option RegExpBuilder :=
  let quantified (atom : RegExpTree) : RegExpTree :=
    .quantifier atom quantifier.min quantifier.max quantifier.isGreedy
  if b.pendingEmpty then some { b with pendingEmpty := false }
  else
    match b.characters with
    | some characters =>
      let charVector := characters.drop (characters.length - 1)
      let b :=
        if characters.length > 1 then { b with text := b.text.add [.atom characters.dropLast] }
        else b
      let b := { b with characters := none }.flushText
      some { b with terms := b.terms.add (quantified (.text [.atom charVector])) }
    | none =>
      match b.text.removeLast with
      | some (elements, text) =>
        let b := { b with text := text }.flushText
        some { b with terms := b.terms.add (quantified (.text elements)) }
      | none =>
        b.terms.removeLast.map fun (atom, terms) =>
          if atom.maxMatch captures = 0 then
            if quantifier.min = 0 then { b with terms := terms }
            else { b with terms := terms.add atom }
          else { b with terms := terms.add (quantified atom) }

end RegExpBuilder

end Builder

section Actions

/-- What an atom is before it is added. -/
inductive Atom where
  | character (c : Nat)
  | backReference (index : Nat)
  | tree (t : RegExpTree)

/-- What the parser does with a builder. An atom is added with its quantifier. -/
structure Actions (β : Type) where
  new : β
  addTerm : (Nat → Option Nat) → β → Atom → Option Quantifier → Option β
  addAssertion : β → AssertionType → β
  newAlternative : β → β
  toRegExp : β → RegExpTree

/-- A reference to a group that is not closed yet adds nothing. -/
def RegExpBuilder.add (captures : Nat → Option Nat) (b : RegExpBuilder) : Atom → RegExpBuilder
  | .character c => b.addCharacter c
  | .backReference index =>
    if (captures index).isNone then b.addEmpty else b.addAtom (.backReference index)
  | .tree t => b.addAtom t

def builderActions : Actions RegExpBuilder where
  new := .new
  addTerm captures b atom quantifier :=
    match quantifier with
    | none => some (b.add captures atom)
    | some quantifier => (b.add captures atom).addQuantifierToAtom captures quantifier
  addAssertion := RegExpBuilder.addAssertion
  newAlternative := RegExpBuilder.newAlternative
  toRegExp := RegExpBuilder.toRegExp

/-- The alternatives before the last one, and the terms of the last one. -/
structure ProductionBuilder where
  alternatives : List RegExpTree
  terms : List RegExpTree

def Atom.toTree : Atom → RegExpTree
  | .character c => .text [.atom [c]]
  | .backReference index => .backReference index
  | .tree t => t

/-- A term as the grammar has it. -/
def Atom.term (atom : Atom) : Option Quantifier → RegExpTree
  | none => atom.toTree
  | some quantifier =>
    .quantifier atom.toTree quantifier.min quantifier.max quantifier.isGreedy

namespace ProductionBuilder

def alternative (b : ProductionBuilder) : RegExpTree := .alternative (.ofList b.terms)

def toRegExp (b : ProductionBuilder) : RegExpTree :=
  .disjunction (.ofList (b.alternatives ++ [b.alternative]))

end ProductionBuilder

/-- `Disjunction`, `Alternative`, `Term` and `Atom` of the grammar, with nothing left out. -/
def productionActions : Actions ProductionBuilder where
  new := ⟨[], []⟩
  addTerm _ b atom quantifier := some { b with terms := b.terms ++ [atom.term quantifier] }
  addAssertion b type := { b with terms := b.terms ++ [.assertion type] }
  newAlternative b := ⟨b.alternatives ++ [b.alternative], []⟩
  toRegExp := ProductionBuilder.toRegExp

end Actions

section Parser

/-- What is parsed between two parentheses, or between the ends of the pattern. -/
structure RegExpParserState (β : Type) where
  builder : β
  groupType : SubexpressionType
  captureIndex : Nat

/-- `captures_` has the maximum length of each group that is closed. The stored states are those
around the current one. -/
structure Parse (β : Type) where
  parser : RegExpParser
  captures : List (Option Nat)
  state : RegExpParserState β
  stored : List (RegExpParserState β)

/-- The capture with an index, which is 1 for the first one. -/
def lookup (captures : List (Option Nat)) : Nat → Option Nat
  | 0 => none
  | index + 1 => (captures[index]?).join

variable {β : Type} (actions : Actions β)

/-- The result of a subexpression as an atom. -/
def RegExpParserState.close (state : RegExpParserState β) (body : RegExpTree)
    (endCaptureIndex : Nat) : RegExpTree :=
  match state.groupType with
  | .capture => .capture body state.captureIndex
  | .positiveLookahead =>
    .lookahead body true (endCaptureIndex - state.captureIndex) state.captureIndex
  | .negativeLookahead =>
    .lookahead body false (endCaptureIndex - state.captureIndex) state.captureIndex
  | _ => body

/-- The captures with the one that is closed. -/
def RegExpParserState.closeCapture (state : RegExpParserState β) (body : RegExpTree)
    (captures : List (Option Nat)) : List (Option Nat) :=
  if state.groupType = .capture then
    captures.set (state.captureIndex - 1) (some (body.maxMatch (lookup captures)))
  else captures

/-- An atom, and the quantifier behind it. -/
def Parse.addTerm (c : Parse β) (atom : Atom) : Except ParseError (RegExpTree ⊕ Parse β) := do
  let (quantifier, parser) ← scanQuantifier c.parser
  match actions.addTerm (lookup c.captures) c.state.builder atom quantifier with
  | none => .error .unreachable
  | some builder =>
    return .inr { c with parser := parser, state := { c.state with builder := builder } }

/-- The state for a subexpression that begins. -/
def Parse.openGroup (c : Parse β) (type : SubexpressionType) : Parse β :=
  let captures := if type = .capture then c.captures ++ [none] else c.captures
  { c with
    captures := captures
    state := ⟨actions.new, type, captures.length⟩
    stored := c.state :: c.stored }

/-- The loop of `ParseDisjunction` once: the tree at the end of the pattern. -/
def Parse.step (c : Parse β) : Except ParseError (RegExpTree ⊕ Parse β) := do
  let (token, parser) ← scan c.captures.length c.parser
  let c := { c with parser := parser }
  match token with
  | .endMarker =>
    if c.stored.length > 0 then .error (.message "Unterminated group")
    else return .inl (actions.toRegExp c.state.builder)
  | .close =>
    match c.stored with
    | [] => .error (.message "Unmatched ')'")
    | previous :: stored =>
      let body := actions.toRegExp c.state.builder
      Parse.addTerm actions { c with
          captures := c.state.closeCapture body c.captures
          state := previous
          stored := stored }
        (.tree (c.state.close body c.captures.length))
  | .bar =>
    return .inr { c with
      state := { c.state with builder := actions.newAlternative c.state.builder } }
  | .assertion type =>
    return .inr { c with
      state := { c.state with builder := actions.addAssertion c.state.builder type } }
  | .group type =>
    if type = .capture ∧ c.captures.length ≥ kMaxCaptures then
      .error (.message "Too many captures")
    else return .inr (c.openGroup actions type)
  | .character character => c.addTerm actions (.character character)
  | .charClass element => c.addTerm actions (.tree (.text [element]))
  | .backReference index => c.addTerm actions (.backReference index)

def Parse.run : Nat → Parse β → Except ParseError RegExpTree
  | 0, _ => .error .outOfFuel
  | fuel + 1, c => do
    match ← c.step actions with
    | .inl tree => return tree
    | .inr c => run fuel c

/-- The state at the beginning of a pattern. -/
def Parse.new (input : List Nat) (multiline : Bool) : Parse β :=
  ⟨RegExpParser.new input multiline, [], ⟨actions.new, .initial, 0⟩, []⟩

/-- The tree that the parser returns for a pattern. -/
def parseDisjunction (fuel : Nat) (input : List Nat) (multiline : Bool) : Except ParseError RegExpTree :=
  Parse.run builderActions fuel (Parse.new builderActions input multiline)

/-- The parse tree of a pattern. -/
def parseTree (fuel : Nat) (input : List Nat) (multiline : Bool) : Except ParseError RegExpTree :=
  Parse.run productionActions fuel (Parse.new productionActions input multiline)

end Parser

end W16.RegExps
