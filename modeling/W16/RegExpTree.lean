import Mathlib

/-!
# Nodes of a regexp

The nodes that a regexp is compiled to, and what it means to run them with backtracking. Nodes are
named by their place in the list of all nodes.
-/
namespace W16.RegExps

set_option linter.dupNamespace false

/-! ## Text -/

structure CharacterRange where
  from_ : Nat
  to_ : Nat
  deriving DecidableEq

def CharacterRange.contains (range : CharacterRange) (c : Nat) : Bool :=
  range.from_ ≤ c && c ≤ range.to_

inductive TextElement where
  | atom (data : List Nat)
  | charClass (ranges : List CharacterRange) (isNegated : Bool)
  deriving DecidableEq

/-- What is fixed while a regexp runs. With `ignoreCase` a character of an atom stands for the
characters that are equal to it but for case. -/
structure Env where
  subject : List Nat
  ignoreCase : Bool
  letters : Nat → List Nat

/-- The test that a character of an atom makes. -/
def Env.acceptsLetter (env : Env) (q c : Nat) : Bool :=
  if env.ignoreCase then (env.letters q).contains c else c == q

def acceptsClass (ranges : List CharacterRange) (isNegated : Bool) (c : Nat) : Bool :=
  ranges.any (·.contains c) != isNegated

/-- The tests that an element makes, one for each character. -/
def TextElement.tests (env : Env) : TextElement → List (Nat → Bool)
  | atom data => data.map env.acceptsLetter
  | charClass ranges isNegated => [acceptsClass ranges isNegated]

/-- The position after characters that pass the tests. -/
def matchTests (subject : List Nat) : List (Nat → Bool) → Nat → Option Nat
  | [], position => some position
  | test :: tests, position =>
    match subject[position]? with
    | some c => if test c then matchTests subject tests (position + 1) else none
    | none => none

def Env.matchText (env : Env) (elements : List TextElement) (position : Nat) : Option Nat :=
  matchTests env.subject (elements.flatMap (·.tests env)) position

/-! ## Nodes -/

inductive AssertionNodeType where
  | atEnd
  | atStart
  | atBoundary
  | atNonBoundary
  | afterNewline
  | afterNonwordCharacter
  | afterWordCharacter
  deriving DecidableEq

inductive ActionType where
  | setRegister (reg : Nat) (value : Int)
  | incrementRegister (reg : Nat)
  | storePosition (reg : Nat) (isCapture : Bool)
  | beginSubmatch (stackPointerRegister positionRegister : Nat)
  | positiveSubmatchSuccess (stackPointerRegister positionRegister clearCount clearFrom : Nat)
  | emptyMatchCheck (startRegister : Nat) (repetitionRegister : Option Nat) (repetitionLimit : Nat)
  | clearCaptures (from_ to_ : Nat)
  deriving DecidableEq

inductive GuardRelation where
  | lt | geq
  deriving DecidableEq

structure Guard where
  reg : Nat
  op : GuardRelation
  value : Nat
  deriving DecidableEq

structure GuardedAlternative where
  node : Nat
  guards : List Guard
  deriving DecidableEq

inductive EndAction where
  | accept
  | backtrack
  | negativeSubmatchSuccess (stackPointerRegister positionRegister clearCount clearStart : Nat)
  deriving DecidableEq

/-- `ChoiceNode` itself or one of its subclasses. -/
inductive ChoiceKind where
  | choice
  | negativeLookahead
  | loop (loopNode continueNode : Nat) (bodyCanBeZeroLength : Bool)
  deriving DecidableEq

inductive Node where
  | text (elements : List TextElement) (onSuccess : Nat)
  | action (type : ActionType) (onSuccess : Nat)
  | assertion (type : AssertionNodeType) (onSuccess : Nat)
  | backReference (startRegister endRegister onSuccess : Nat)
  | endNode (action : EndAction)
  | choice (kind : ChoiceKind) (alternatives : List GuardedAlternative) (notAtStart : Bool)
  deriving DecidableEq

/-! ## One step -/

abbrev Registers := Nat → Int

/-- The current position and the registers. -/
structure State where
  position : Nat
  registers : Registers

def write (registers : Registers) (reg : Nat) (v : Int) : Registers :=
  fun r => if r = reg then v else registers r

@[simp] theorem write_same (registers : Registers) (reg : Nat) (v : Int) :
    write registers reg v reg = v := if_pos rfl

theorem write_other (registers : Registers) {reg r : Nat} (v : Int) (h : r ≠ reg) :
    write registers reg v r = registers r := if_neg h

def State.write (s : State) (reg : Nat) (v : Int) : State :=
  { s with registers := RegExps.write s.registers reg v }

def State.moveTo (s : State) (position : Nat) : State := { s with position := position }

/-- `[0-9A-Z_a-z]` -/
def isWord (c : Nat) : Bool :=
  (48 ≤ c && c ≤ 57) || (65 ≤ c && c ≤ 90) || c == 95 || (97 ≤ c && c ≤ 122)

def isNewline (c : Nat) : Bool := c == 0x0a || c == 0x0d || c == 0x2028 || c == 0x2029

namespace Env

variable (env : Env)

/-- Places outside of the input count as other characters than those tested for. -/
def wordAt (position : Nat) : Bool := (env.subject[position]?).any isWord

def wordBefore (position : Nat) : Bool := position ≠ 0 && env.wordAt (position - 1)

def asserts (position : Nat) : AssertionNodeType → Bool
  | .atEnd => env.subject.length ≤ position
  | .atStart => position == 0
  | .atBoundary => env.wordBefore position != env.wordAt position
  | .atNonBoundary => env.wordBefore position == env.wordAt position
  | .afterNewline => position == 0 || (env.subject[position - 1]?).any isNewline
  | .afterNonwordCharacter => !env.wordBefore position
  | .afterWordCharacter => env.wordBefore position

/-- The position after the text of a capture. A capture that does not take part stands for the
empty text. -/
def matchBackReference (s : State) (startRegister endRegister : Nat) : Option Nat :=
  let start := s.registers startRegister
  let length := s.registers endRegister - start
  if start < 0 ∨ length ≤ 0 then some s.position
  else matchTests env.subject
    (((env.subject.drop start.toNat).take length.toNat).map env.acceptsLetter) s.position

end Env

/-- The effect of an action that begins or ends no submatch. An empty match fails once there have
been enough repetitions. -/
def ActionType.perform (s : State) : ActionType → Option State
  | setRegister reg value => some (s.write reg value)
  | incrementRegister reg => some (s.write reg (s.registers reg + 1))
  | storePosition reg _ => some (s.write reg s.position)
  | beginSubmatch _ _ => none
  | positiveSubmatchSuccess _ _ _ _ => none
  | emptyMatchCheck startRegister repetitionRegister repetitionLimit =>
    if s.registers startRegister = s.position ∧
        (∀ reg ∈ repetitionRegister, (repetitionLimit : Int) ≤ s.registers reg) then none
    else some s
  | clearCaptures from_ to_ => some
    { s with registers := fun r => if from_ ≤ r ∧ r ≤ to_ then -1 else s.registers r }

def ActionType.isSubmatch : ActionType → Bool
  | beginSubmatch _ _ => true
  | positiveSubmatchSuccess _ _ _ _ => true
  | _ => false

def Guard.holds (s : State) (guard : Guard) : Bool :=
  match guard.op with
  | .lt => s.registers guard.reg < guard.value
  | .geq => (guard.value : Int) ≤ s.registers guard.reg

/-! ## Runs -/

/-- The states in which a run comes to the end of the regexp, in this order, and the submatch
whose alternatives have been given up, if the run ends for that reason. -/
structure Result where
  arrivals : List State
  cut : Option Nat

namespace Result

def fail : Result := ⟨[], none⟩

/-- What comes after an alternative that has not given up others. -/
def append (r r' : Result) : Result := ⟨r.arrivals ++ r'.arrivals, r'.cut⟩

/-- After the success of the submatch with this stack pointer register. -/
def commit (reg : Nat) (r : Result) : Result := ⟨r.arrivals, some (r.cut.getD reg)⟩

/-- Where that submatch began. -/
def uncommit (reg : Nat) (r : Result) : Result :=
  ⟨r.arrivals, if r.cut = some reg then none else r.cut⟩

end Result

/-- What can be run: a node, or the alternatives of a choice that are left. -/
inductive Task where
  | node (n : Nat)
  | tries (alternatives : List GuardedAlternative)

/-- Running a node or alternatives to the end of all backtracking. -/
inductive Run (nodes : List Node) (env : Env) : Task → State → Result → Prop where
  | accept {n s} (h : nodes[n]? = some (.endNode .accept)) : Run nodes env (.node n) s ⟨[s], none⟩
  | backtrack {n s} (h : nodes[n]? = some (.endNode .backtrack)) : Run nodes env (.node n) s .fail
  | negativeSubmatchSuccess {n s reg positionRegister clearCount clearStart} (h : nodes[n]? = some (.endNode
        (.negativeSubmatchSuccess reg positionRegister clearCount clearStart))) :
      Run nodes env (.node n) s (Result.fail.commit reg)
  | text {n k s elements position r} (h : nodes[n]? = some (.text elements k))
      (hmatch : env.matchText elements s.position = some position)
      (hrun : Run nodes env (.node k) (s.moveTo position) r) : Run nodes env (.node n) s r
  | textFails {n k s elements} (h : nodes[n]? = some (.text elements k))
      (hmatch : env.matchText elements s.position = none) : Run nodes env (.node n) s .fail
  | action {n k s s' type r} (h : nodes[n]? = some (.action type k)) (hperform : type.perform s = some s')
      (hrun : Run nodes env (.node k) s' r) : Run nodes env (.node n) s r
  | actionFails {n k s type} (h : nodes[n]? = some (.action type k)) (hsub : type.isSubmatch = false)
      (hperform : type.perform s = none) : Run nodes env (.node n) s .fail
  | beginSubmatch {n k s reg positionRegister r}
      (h : nodes[n]? = some (.action (.beginSubmatch reg positionRegister) k))
      (hrun : Run nodes env (.node k) (s.write positionRegister s.position) r) :
      Run nodes env (.node n) s (r.uncommit reg)
  | positiveSubmatchSuccess {n k s reg positionRegister clearCount clearFrom r} (h : nodes[n]? = some (.action
        (.positiveSubmatchSuccess reg positionRegister clearCount clearFrom) k))
      (hrun : Run nodes env (.node k) (s.moveTo (s.registers positionRegister).toNat) r) :
      Run nodes env (.node n) s (r.commit reg)
  | assertion {n k s type r} (h : nodes[n]? = some (.assertion type k))
      (hholds : env.asserts s.position type = true) (hrun : Run nodes env (.node k) s r) :
      Run nodes env (.node n) s r
  | assertionFails {n k s type} (h : nodes[n]? = some (.assertion type k))
      (hholds : env.asserts s.position type = false) : Run nodes env (.node n) s .fail
  | backReference {n k s startRegister endRegister position r}
      (h : nodes[n]? = some (.backReference startRegister endRegister k))
      (hmatch : env.matchBackReference s startRegister endRegister = some position)
      (hrun : Run nodes env (.node k) (s.moveTo position) r) : Run nodes env (.node n) s r
  | backReferenceFails {n k s startRegister endRegister}
      (h : nodes[n]? = some (.backReference startRegister endRegister k))
      (hmatch : env.matchBackReference s startRegister endRegister = none) :
      Run nodes env (.node n) s .fail
  | choice {n s kind alternatives notAtStart r} (h : nodes[n]? = some (.choice kind alternatives notAtStart))
      (hrun : Run nodes env (.tries alternatives) s r) : Run nodes env (.node n) s r
  | none {s} : Run nodes env (.tries []) s .fail
  | guarded {alternative alternatives s r} (hguard : alternative.guards.all (·.holds s) = false)
      (hrun : Run nodes env (.tries alternatives) s r) :
      Run nodes env (.tries (alternative :: alternatives)) s r
  | cut {alternative alternatives s r} (hguard : alternative.guards.all (·.holds s) = true)
      (hrun : Run nodes env (.node alternative.node) s r) (hcut : r.cut.isSome = true) :
      Run nodes env (.tries (alternative :: alternatives)) s r
  | next {alternative alternatives s r r'} (hguard : alternative.guards.all (·.holds s) = true)
      (hrun : Run nodes env (.node alternative.node) s r) (hcut : r.cut = none)
      (hrest : Run nodes env (.tries alternatives) s r') :
      Run nodes env (.tries (alternative :: alternatives)) s (r.append r')

end W16.RegExps

/-!
## Trees and their nodes

`ToNode` of a regexp tree makes the nodes from the end of the regexp to its beginning.
-/
namespace W16.RegExps

/-- `RegExpTree::kInfinity` -/
def kInfinity : Nat := 2147483647

inductive AssertionType where
  | startOfLine | startOfInput | endOfLine | endOfInput | boundary | nonBoundary
  deriving DecidableEq

/- An atom or a character class on its own is a text with one element. -/
mutual

inductive RegExpTree where
  | empty
  | text (elements : List TextElement)
  | assertion (type : AssertionType)
  | backReference (index : Nat)
  | capture (body : RegExpTree) (index : Nat)
  | lookahead (body : RegExpTree) (isPositive : Bool) (captureCount captureFrom : Nat)
  | quantifier (body : RegExpTree) (min max : Nat) (isGreedy : Bool)
  | alternative (nodes : RegExpTrees)
  | disjunction (alternatives : RegExpTrees)

inductive RegExpTrees where
  | nil
  | cons (tree : RegExpTree) (trees : RegExpTrees)

end

def startRegister (index : Nat) : Nat := index * 2
def endRegister (index : Nat) : Nat := index * 2 + 1

/-! ## Properties of trees -/

/-- A value of type `int`, which wraps around. -/
def wrapInt (x : Int) : Int := (x + 2147483648) % 4294967296 - 2147483648

/-- `Interval`, where `none` is the empty one. -/
abbrev Interval := Option (Nat × Nat)

def Interval.union : Interval → Interval → Interval
  | i, none => i
  | none, i => i
  | some (from_, to_), some (from', to') => some (min from_ from', max to_ to')

def textLength (elements : List TextElement) : Nat :=
  (elements.map fun
    | .atom data => data.length
    | .charClass _ _ => 1).sum

mutual

/-- `min_match`, in the arithmetic of `int`. -/
def RegExpTree.minMatch : RegExpTree → Int
  | .empty => 0
  | .text elements => wrapInt (textLength elements)
  | .assertion _ => 0
  | .backReference _ => 0
  | .capture body _ => body.minMatch
  | .lookahead _ _ _ _ => 0
  | .quantifier body min _ _ => wrapInt (min * body.minMatch)
  | .alternative nodes => nodes.sumMinMatch
  | .disjunction .nil => 0
  | .disjunction (.cons tree trees) => trees.leastMinMatch tree.minMatch

/-- The sum over the nodes of an alternative. -/
def RegExpTrees.sumMinMatch : RegExpTrees → Int
  | .nil => 0
  | .cons tree trees => wrapInt (tree.minMatch + trees.sumMinMatch)

/-- The minimum over the alternatives of a disjunction. -/
def RegExpTrees.leastMinMatch : RegExpTrees → Int → Int
  | .nil, least => least
  | .cons tree trees, least => trees.leastMinMatch (min least tree.minMatch)

end

mutual

/-- `CaptureRegisters` -/
def RegExpTree.captureRegisters : RegExpTree → Interval
  | .capture body index =>
    Interval.union (some (startRegister index, endRegister index)) body.captureRegisters
  | .lookahead body _ _ _ => body.captureRegisters
  | .quantifier body _ _ _ => body.captureRegisters
  | .alternative nodes => nodes.captureRegisters
  | .disjunction alternatives => alternatives.captureRegisters
  | _ => none

/-- `ListCaptureRegisters` -/
def RegExpTrees.captureRegisters : RegExpTrees → Interval
  | .nil => none
  | .cons tree trees => Interval.union tree.captureRegisters trees.captureRegisters

end

/-! ## Making nodes -/

def kMaxRegister : Nat := 65535
def kMaxExpansionFactor : Nat := 6
def kMaxUnrolledMinMatches : Nat := 3
def kMaxUnrolledMaxMatches : Nat := 3

/-- The part of `RegExpCompiler` that changes while nodes are made, and `FLAG_regexp_optimization`. -/
structure RegExpCompiler where
  nodes : List Node
  nextRegister : Nat
  currentExpansionFactor : Nat
  regexpOptimization : Bool
  deriving DecidableEq

/-- The node that has been made and the compiler afterwards. There is no result when the regexp is
too big, since its nodes are not used then. -/
abbrev Made := Option (RegExpCompiler × Nat)

namespace RegExpCompiler

/-- `AllocateRegister` -/
def allocateRegister (c : RegExpCompiler) : Option (RegExpCompiler × Nat) :=
  if c.nextRegister ≥ kMaxRegister then none
  else some ({ c with nextRegister := c.nextRegister + 1 }, c.nextRegister)

def newNode (c : RegExpCompiler) (node : Node) : RegExpCompiler × Nat :=
  ({ c with nodes := c.nodes ++ [node] }, c.nodes.length)

/-- A register where one is needed. -/
def allocateRegisterIf (c : RegExpCompiler) (needed : Bool) : Option (RegExpCompiler × Nat) :=
  if needed then c.allocateRegister else some (c, 0)

/-- A new node before `n` where one is needed. -/
def newNodeIf (c : RegExpCompiler) (needed : Bool) (node : Node) (n : Nat) : RegExpCompiler × Nat :=
  if needed then c.newNode node else (c, n)

def setNode (c : RegExpCompiler) (n : Nat) (node : Node) : RegExpCompiler :=
  { c with nodes := c.nodes.set n node }

/-- `RegExpExpansionLimiter`: whether it is ok to expand, and the factor inside. -/
def limiter (c : RegExpCompiler) (factor : Nat) : Bool × Nat :=
  let saved := c.currentExpansionFactor
  if saved ≤ kMaxExpansionFactor then
    if factor > kMaxExpansionFactor then (false, kMaxExpansionFactor + 1)
    else (decide (saved * factor ≤ kMaxExpansionFactor), saved * factor)
  else (false, saved)

end RegExpCompiler

open RegExpCompiler

/-- Makes the nodes before the node that is given. -/
abbrev ToNode := Nat → RegExpCompiler → Made

/-- The body unrolled in front of a node, `n` times. -/
def unrollMin (body : ToNode) : Nat → ToNode
  | 0, answer, c => some (c, answer)
  | n + 1, answer, c => (body answer c).bind fun (c, answer) => unrollMin body n answer c

/-- Optional matches of the body, `n` times. -/
def unrollMax (body : ToNode) (isGreedy notAtStart : Bool) (onSuccess : Nat) : Nat → ToNode
  | 0, answer, c => some (c, answer)
  | n + 1, answer, c =>
    (body answer c).bind fun (c, bodyNode) =>
      let alternatives : List GuardedAlternative :=
        if isGreedy then [⟨bodyNode, []⟩, ⟨onSuccess, []⟩] else [⟨onSuccess, []⟩, ⟨bodyNode, []⟩]
      let (c, alternation) := c.newNode (.choice .choice alternatives notAtStart)
      unrollMax body isGreedy notAtStart onSuccess n alternation c

/-- The quantifier as a loop. -/
def loopToNode (min max : Nat) (isGreedy : Bool) (body : ToNode) (bodyMinMatch : Int)
    (captureRegisters : Interval) (notAtStart : Bool) : ToNode := fun onSuccess c =>
  let bodyCanBeEmpty : Bool := bodyMinMatch == 0
  let hasMin : Bool := min > 0
  let hasMax : Bool := max < kInfinity
  let needsCounter := hasMin || hasMax
  (c.allocateRegisterIf bodyCanBeEmpty).bind fun (c, bodyStartReg) =>
  (c.allocateRegisterIf needsCounter).bind fun (c, regCtr) =>
  let center := c.newNode (.choice (.loop 0 0 bodyCanBeEmpty) [] notAtStart)
  let increment := center.1.newNodeIf needsCounter (.action (.incrementRegister regCtr) center.2)
    center.2
  let loopReturn := increment.1.newNodeIf bodyCanBeEmpty
    (.action (.emptyMatchCheck bodyStartReg (if needsCounter then some regCtr else none) min)
      increment.2) increment.2
  (body loopReturn.2 loopReturn.1).bind fun (c, bodyNode) =>
  let store := c.newNodeIf bodyCanBeEmpty (.action (.storePosition bodyStartReg false) bodyNode)
    bodyNode
  let clear := store.1.newNodeIf captureRegisters.isSome
    (.action (.clearCaptures (captureRegisters.getD (0, 0)).1 (captureRegisters.getD (0, 0)).2) store.2)
    store.2
  let bodyAlt : GuardedAlternative := ⟨clear.2, if hasMax then [⟨regCtr, .lt, max⟩] else []⟩
  let restAlt : GuardedAlternative := ⟨onSuccess, if hasMin then [⟨regCtr, .geq, min⟩] else []⟩
  let alternatives := if isGreedy then [bodyAlt, restAlt] else [restAlt, bodyAlt]
  let c := clear.1.setNode center.2
    (.choice (.loop clear.2 onSuccess bodyCanBeEmpty) alternatives notAtStart)
  some (c.newNodeIf needsCounter (.action (.setRegister regCtr 0) center.2) center.2)

/-- The static `ToNode` of `RegExpQuantifier`, after the forced matches have been unrolled or not. -/
def restToNode (min max : Nat) (isGreedy : Bool) (body : ToNode) (bodyMinMatch : Int)
    (captureRegisters : Interval) (notAtStart : Bool) : ToNode := fun onSuccess c =>
  let limited := c.limiter max
  if bodyMinMatch ≠ 0 ∧ c.regexpOptimization = true ∧ captureRegisters = none ∧
      max ≤ kMaxUnrolledMaxMatches ∧ min = 0 ∧ limited.1 = true then
    (unrollMax body isGreedy notAtStart onSuccess max onSuccess
      { c with currentExpansionFactor := limited.2 }).map fun made =>
        ({ made.1 with currentExpansionFactor := c.currentExpansionFactor }, made.2)
  else loopToNode min max isGreedy body bodyMinMatch captureRegisters notAtStart onSuccess c

/-- The static `ToNode` of `RegExpQuantifier`. -/
def quantifierToNode (min max : Nat) (isGreedy : Bool) (body : ToNode) (bodyMinMatch : Int)
    (captureRegisters : Interval) : ToNode := fun onSuccess c =>
  if max = 0 then some (c, onSuccess)
  else
    let limited := c.limiter (min + if max ≠ min then 1 else 0)
    if bodyMinMatch ≠ 0 ∧ c.regexpOptimization = true ∧ captureRegisters = none ∧
        min > 0 ∧ min ≤ kMaxUnrolledMinMatches ∧ limited.1 = true then
      let newMax := if max = kInfinity then max else max - min
      let inner := { c with currentExpansionFactor := limited.2 }
      let made :=
        if newMax = 0 then some (inner, onSuccess)
        else restToNode 0 newMax isGreedy body bodyMinMatch captureRegisters true onSuccess inner
      (made.bind fun (c, answer) => unrollMin body min answer c).map fun made =>
        ({ made.1 with currentExpansionFactor := c.currentExpansionFactor }, made.2)
    else restToNode min max isGreedy body bodyMinMatch captureRegisters false onSuccess c

/-- The class escape `n`. -/
def newlineRanges : List CharacterRange := [⟨0x0a, 0x0a⟩, ⟨0x0d, 0x0d⟩, ⟨0x2028, 0x2029⟩]

/-- `ToNode` of `RegExpAssertion`. -/
def assertionToNode (type : AssertionType) : ToNode := fun onSuccess c =>
  match type with
  | .startOfLine => some (c.newNode (.assertion .afterNewline onSuccess))
  | .startOfInput => some (c.newNode (.assertion .atStart onSuccess))
  | .boundary => some (c.newNode (.assertion .atBoundary onSuccess))
  | .nonBoundary => some (c.newNode (.assertion .atNonBoundary onSuccess))
  | .endOfInput => some (c.newNode (.assertion .atEnd onSuccess))
  | .endOfLine => do
    let (c, stackPointerRegister) ← c.allocateRegister
    let (c, positionRegister) ← c.allocateRegister
    let (c, success) := c.newNode
      (.action (.positiveSubmatchSuccess stackPointerRegister positionRegister 0 0) onSuccess)
    let (c, newlineMatcher) := c.newNode (.text [.charClass newlineRanges false] success)
    let (c, endOfLine) := c.newNode
      (.action (.beginSubmatch stackPointerRegister positionRegister) newlineMatcher)
    let (c, atEnd) := c.newNode (.assertion .atEnd onSuccess)
    return c.newNode (.choice .choice [⟨endOfLine, []⟩, ⟨atEnd, []⟩] false)

/-- `ToNode` of `RegExpLookahead`. -/
def lookaheadToNode (body : ToNode) (isPositive : Bool) (captureCount captureFrom : Nat) : ToNode :=
    fun onSuccess c => do
  let (c, stackPointerRegister) ← c.allocateRegister
  let (c, positionRegister) ← c.allocateRegister
  let registerCount := captureCount * 2
  let registerStart := 2 + captureFrom * 2
  if isPositive then
    let (c, success) := c.newNode (.action (.positiveSubmatchSuccess stackPointerRegister
      positionRegister registerCount registerStart) onSuccess)
    let (c, bodyNode) ← body success c
    return c.newNode (.action (.beginSubmatch stackPointerRegister positionRegister) bodyNode)
  else
    let (c, success) := c.newNode (.endNode (.negativeSubmatchSuccess stackPointerRegister
      positionRegister registerCount registerStart))
    let (c, bodyNode) ← body success c
    let (c, choiceNode) := c.newNode
      (.choice .negativeLookahead [⟨bodyNode, []⟩, ⟨onSuccess, []⟩] false)
    return c.newNode (.action (.beginSubmatch stackPointerRegister positionRegister) choiceNode)

/-- `ToNode` of `RegExpCapture`. -/
def captureToNode (body : ToNode) (index : Nat) : ToNode := fun onSuccess c => do
  let (c, storeEnd) := c.newNode (.action (.storePosition (endRegister index) true) onSuccess)
  let (c, bodyNode) ← body storeEnd c
  return c.newNode (.action (.storePosition (startRegister index) true) bodyNode)

mutual

def RegExpTree.toNode : RegExpTree → ToNode
  | .empty => fun onSuccess c => some (c, onSuccess)
  | .text elements => fun onSuccess c => some (c.newNode (.text elements onSuccess))
  | .assertion type => assertionToNode type
  | .backReference index => fun onSuccess c =>
    some (c.newNode (.backReference (startRegister index) (endRegister index) onSuccess))
  | .capture body index => captureToNode body.toNode index
  | .lookahead body isPositive captureCount captureFrom =>
    lookaheadToNode body.toNode isPositive captureCount captureFrom
  | .quantifier body min max isGreedy =>
    quantifierToNode min max isGreedy body.toNode body.minMatch body.captureRegisters
  | .alternative nodes => nodes.sequenceToNode
  | .disjunction alternatives => fun onSuccess c =>
    (alternatives.alternativesToNode onSuccess c).map fun (c, nodes) =>
      c.newNode (.choice .choice (nodes.map (⟨·, []⟩)) false)

/-- The loop of `RegExpAlternative`, which begins with the last node. -/
def RegExpTrees.sequenceToNode : RegExpTrees → ToNode
  | .nil => fun current c => some (c, current)
  | .cons tree trees => fun current c =>
    (trees.sequenceToNode current c).bind fun (c, current) => tree.toNode current c

/-- The nodes of all alternatives of a disjunction. -/
def RegExpTrees.alternativesToNode : RegExpTrees → Nat → RegExpCompiler → Option (RegExpCompiler × List Nat)
  | .nil => fun _ c => some (c, [])
  | .cons tree trees => fun onSuccess c =>
    (tree.toNode onSuccess c).bind fun (c, n) =>
      (trees.alternativesToNode onSuccess c).map fun (c, nodes) => (c, n :: nodes)

end

end W16.RegExps
