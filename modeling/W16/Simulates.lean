import Mathlib.Data.List.Basic
import Mathlib.Tactic.Common

/-!
# Environments and simulates

`HEnvironment` keeps the values of a function's variables and of its expression stack, and
of what happened since the last simulate only two counts and the indices assigned to.
`CreateSimulate` turns these into an `HSimulate`, and `DoSimulate` applies it to the
environment as it was.
-/
namespace W16.Simulates

open List Option

set_option linter.dupNamespace false

/-- A value is `none` where the source has `NULL`. -/
structure HEnvironment (V : Type) where
  values_ : List (Option V)
  assigned_variables_ : List Nat
  parameter_count_ : Nat
  specials_count_ : Nat
  local_count_ : Nat
  pop_count_ : Nat
  push_count_ : Nat
  ast_id_ : Int
  deriving DecidableEq, Repr

/-- The entries of `values_`, each with its entry of `assigned_indexes_` (`kNoIndex` is
`none`). -/
structure HSimulate (V : Type) where
  ast_id_ : Int
  pop_count_ : Nat
  entries : List (Option Nat × Option V)
  deriving DecidableEq, Repr

variable {V : Type}

namespace HEnvironment

variable (env : HEnvironment V)

/-- The constructor: no values yet, one special, and an expression stack of some height. -/
def initialized (parameter_count local_count stack_height : Nat) (ast_id : Int) : HEnvironment V where
  values_ := replicate (parameter_count + 1 + local_count + stack_height) none
  assigned_variables_ := []
  parameter_count_ := parameter_count
  specials_count_ := 1
  local_count_ := local_count
  pop_count_ := 0
  push_count_ := 0
  ast_id_ := ast_id

def length : Nat := env.values_.length

def first_expression : Nat := env.parameter_count_ + env.specials_count_ + env.local_count_

def hasExpressionAt (index : Int) : Bool := index ≥ env.first_expression

def lookup (index : Nat) : Option (Option V) :=
  match env.values_[index]? with
  | some (some value) => some (some value)
  | _ => none

def bind (index : Nat) (value : Option V) : Option (HEnvironment V) :=
  if value.isSome ∧ index < env.length then
    some { env with
      assigned_variables_ :=
        if index ∈ env.assigned_variables_ then env.assigned_variables_
        else env.assigned_variables_ ++ [index]
      values_ := env.values_.set index value }
  else none

def push (value : Option V) : Option (HEnvironment V) :=
  if value.isSome then
    some { env with push_count_ := env.push_count_ + 1, values_ := env.values_ ++ [value] }
  else none

/-- `Pop()`, whose assertions are that the expression stack is there and not empty. -/
def pop : Option (Option V × HEnvironment V) :=
  if env.first_expression < env.length then
    let popped := if env.push_count_ > 0 then { env with push_count_ := env.push_count_ - 1 }
      else { env with pop_count_ := env.pop_count_ + 1 }
    env.values_.getLast?.map fun value =>
      (value, { popped with values_ := env.values_.dropLast })
  else none

def drop (env : HEnvironment V) : Nat → Option (HEnvironment V)
  | 0 => some env
  | count + 1 => env.pop.bind fun popped => popped.2.drop count

def expressionStackAt (index_from_top : Nat) : Option (Option V) :=
  let index : Int := env.length - index_from_top - 1
  if env.hasExpressionAt index then env.values_[index.toNat]? else none

def setExpressionStackAt (index_from_top : Nat) (value : Option V) : Option (HEnvironment V) :=
  let count := index_from_top + 1
  let index : Int := env.length - count
  if env.hasExpressionAt index then
    -- The elements above the one that is set count as popped and pushed again.
    let adjusted := if env.push_count_ < count then
        { env with pop_count_ := env.pop_count_ + (count - env.push_count_), push_count_ := count }
      else env
    some { adjusted with values_ := env.values_.set index.toNat value }
  else none

def clearHistory : HEnvironment V :=
  { env with pop_count_ := 0, push_count_ := 0, assigned_variables_ := [] }

/-- The first loop of `CreateSimulate`, from `i = push_count - 1` down. -/
def pushedValues : Nat → Option (List (Option Nat × Option V))
  | 0 => some []
  | i + 1 => (env.expressionStackAt i).bind fun value =>
      (pushedValues i).map fun entries => (none, value) :: entries

/-- The second loop of `CreateSimulate`. -/
def assignedValues : List Nat → Option (List (Option Nat × Option V))
  | [] => some []
  | index :: rest => (env.lookup index).bind fun value =>
      (assignedValues rest).map fun entries => (some index, value) :: entries

def createSimulate (ast_id : Int) : Option (HSimulate V × HEnvironment V) :=
  (env.pushedValues env.push_count_).bind fun pushed =>
    (env.assignedValues env.assigned_variables_).map fun assigned =>
      (⟨ast_id, env.pop_count_, pushed ++ assigned⟩, env.clearHistory)

/-- One turn of the loop of `DoSimulate`. -/
def replayValue (env : HEnvironment V) (entry : Option Nat × Option V) : Option (HEnvironment V) :=
  match entry.1 with
  | some index => env.bind index entry.2
  | none => env.push entry.2

def doSimulate (instr : HSimulate V) : Option (HEnvironment V) :=
  ({ env with ast_id_ := instr.ast_id_ }.drop instr.pop_count_).bind fun dropped =>
    instr.entries.foldlM replayValue dropped

end HEnvironment

/-- What the graph builder does to an environment between simulates. -/
inductive Op (V : Type) where
  | bind (index : Nat) (value : V)
  | push (value : V)
  | pop
  | drop (count : Nat)
  | setExpressionStackAt (index_from_top : Nat) (value : V)
  deriving DecidableEq, Repr

/-- `none` when an assertion fails: an index out of range or a pop of an empty stack. -/
def Op.run (env : HEnvironment V) : Op V → Option (HEnvironment V)
  | .bind index value => env.bind index (some value)
  | .push value => env.push (some value)
  | .pop => env.pop.map Prod.snd
  | .drop count => env.drop count
  | .setExpressionStackAt index value => env.setExpressionStackAt index (some value)

def runAll (env : HEnvironment V) (ops : List (Op V)) : Option (HEnvironment V) :=
  ops.foldlM Op.run env

/-- The expression stack is there and holds no `NULL`. -/
structure Ready (env : HEnvironment V) : Prop where
  length : env.first_expression ≤ env.values_.length
  stack : ∀ i, env.first_expression ≤ i → env.values_[i]? ≠ some none

/-- What the history of `env` says of the environment at the last simulate. -/
structure Since (start env : HEnvironment V) : Prop where
  first : env.first_expression = start.first_expression
  pops : env.first_expression + env.pop_count_ ≤ start.values_.length
  pushes : env.first_expression + env.push_count_ ≤ env.values_.length
  balance : env.values_.length + env.pop_count_ = start.values_.length + env.push_count_
  kept : ∀ i, i + env.push_count_ < env.values_.length → i ∉ env.assigned_variables_ →
    env.values_[i]? = start.values_[i]?
  stack : ∀ i, env.first_expression ≤ i → env.values_[i]? ≠ some none
  assigned : ∀ i ∈ env.assigned_variables_, env.values_[i]? ≠ some none

namespace HEnvironment

variable {env : HEnvironment V}

/-- What `pop` does, with the count it adjusts. -/
theorem pop_cases {popped : Option V × HEnvironment V} (h : env.pop = some popped) :
    env.first_expression < env.values_.length ∧ popped.2.first_expression = env.first_expression ∧
      popped.2.values_ = env.values_.dropLast ∧
      popped.2.assigned_variables_ = env.assigned_variables_ ∧
      (0 < env.push_count_ ∧ popped.2.push_count_ + 1 = env.push_count_ ∧ popped.2.pop_count_ = env.pop_count_ ∨
        env.push_count_ = 0 ∧ popped.2.push_count_ = 0 ∧ popped.2.pop_count_ = env.pop_count_ + 1) := by
  unfold pop at h
  split at h
  case isFalse => cases h
  case isTrue hlt =>
    obtain ⟨value, -, rfl⟩ := map_eq_some_iff.1 h
    refine ⟨hlt, ?_, rfl, ?_, ?_⟩
    · split <;> rfl
    · split <;> rfl
    grind

theorem pop_isSome (h : env.first_expression < env.values_.length) : ∃ popped, env.pop = some popped := by
  have hne : env.values_ ≠ [] := by
    intro hnil
    simp [hnil] at h
  simp [pop, length, h, getLast?_eq_some_getLast hne]

/-- What `setExpressionStackAt` does: the elements from the one it sets count as pushed. -/
theorem setExpressionStackAt_cases {env' : HEnvironment V} {index_from_top : Nat}
    {value : Option V} (h : env.setExpressionStackAt index_from_top value = some env') :
    env.first_expression + (index_from_top + 1) ≤ env.values_.length ∧
      env'.first_expression = env.first_expression ∧
      env'.values_ = env.values_.set (env.values_.length - (index_from_top + 1)) value ∧
      env'.assigned_variables_ = env.assigned_variables_ ∧
      env'.push_count_ = max env.push_count_ (index_from_top + 1) ∧
      env'.pop_count_ = env.pop_count_ + (index_from_top + 1 - env.push_count_) := by
  simp only [setExpressionStackAt] at h
  split at h
  case isFalse => cases h
  case isTrue hat =>
    have hindex : ((env.length : Int) - (index_from_top + 1 : Nat)).toNat =
        env.values_.length - (index_from_top + 1) := by
      simp only [length]
      omega
    simp only [hasExpressionAt, length, ge_iff_le, decide_eq_true_eq] at hat
    obtain rfl := some.inj h
    rw [hindex]
    by_cases hfew : env.push_count_ < index_from_top + 1
    · rw [if_pos hfew]
      exact ⟨by omega, rfl, rfl, rfl, by simp only; omega, rfl⟩
    · rw [if_neg hfew]
      exact ⟨by omega, rfl, rfl, rfl, by simp only; omega, by simp only; omega⟩

/-- `drop` takes values off the end when there are enough expressions. -/
theorem drop_values (count : Nat) (h : env.first_expression + count ≤ env.values_.length) :
    ∃ dropped, env.drop count = some dropped ∧
      dropped.values_ = env.values_.take (env.values_.length - count) := by
  induction count generalizing env with
  | zero => exact ⟨env, rfl, by simp⟩
  | succ count ih =>
    obtain ⟨popped, hpop⟩ := @pop_isSome _ env (by omega)
    obtain ⟨-, hfirst, hvals, -⟩ := pop_cases hpop
    have hlen : popped.2.values_.length = env.values_.length - 1 := by
      rw [hvals, length_dropLast]
    obtain ⟨dropped, hdrop, hdropped⟩ := @ih popped.2 (by omega)
    refine ⟨dropped, ?_, ?_⟩
    · rw [drop, hpop, bind_some, hdrop]
    · rw [hdropped, hlen, hvals, dropLast_eq_take, take_take]
      congr 1
      omega

/-- The pushed values are the top of the stack, deepest first. -/
theorem pushedValues_eq (count : Nat) (h : env.first_expression + count ≤ env.values_.length) :
    env.pushedValues count =
      some ((env.values_.drop (env.values_.length - count)).map fun value => (none, value)) := by
  induction count with
  | zero => simp [pushedValues]
  | succ count ih =>
    have hlt : env.values_.length - (count + 1) < env.values_.length := by omega
    have hindex : ((env.length : Int) - count - 1).toNat = env.values_.length - (count + 1) := by
      simp only [length]
      omega
    have hexpression : env.expressionStackAt count = some env.values_[env.values_.length - (count + 1)] := by
      have hat : env.hasExpressionAt (env.length - count - 1) = true := by
        simp only [hasExpressionAt, length, ge_iff_le, decide_eq_true_eq]
        omega
      rw [expressionStackAt, if_pos hat, hindex, getElem?_eq_getElem hlt]
    have hnext : env.values_.length - (count + 1) + 1 = env.values_.length - count := by omega
    rw [pushedValues, hexpression, bind_some, ih (by omega), drop_eq_getElem_cons hlt, hnext]
    rfl

/-- Replaying pushed values appends them. -/
theorem replay_pushed (pushed : List (Option V)) (hne : ∀ value ∈ pushed, value ≠ none) :
    ∃ replayed, (pushed.map fun value => (none, value)).foldlM replayValue env = some replayed ∧
      replayed.values_ = env.values_ ++ pushed := by
  induction pushed generalizing env with
  | nil => exact ⟨env, rfl, by simp⟩
  | cons value rest ih =>
    obtain ⟨v, rfl⟩ := ne_none_iff_exists'.1 (hne value mem_cons_self)
    obtain ⟨replayed, hrest, hvals⟩ :=
      @ih { env with push_count_ := env.push_count_ + 1, values_ := env.values_ ++ [some v] }
        fun value hvalue => hne value (mem_cons_of_mem _ hvalue)
    simp [replayValue, push, hrest, hvals]

/-- Replaying the assigned values makes the environment agree at their indices. -/
theorem replay_assigned {current : HEnvironment V} (assigned : List Nat)
    {entries : List (Option Nat × Option V)} (h : env.assignedValues assigned = some entries)
    (hlen : current.values_.length = env.values_.length) :
    ∃ replayed, entries.foldlM replayValue current = some replayed ∧
      (∀ i ∈ assigned, replayed.values_[i]? = env.values_[i]?) ∧
      ∀ i ∉ assigned, replayed.values_[i]? = current.values_[i]? := by
  induction assigned generalizing entries current with
  | nil =>
    cases h
    exact ⟨current, rfl, by simp, by simp⟩
  | cons index rest ih =>
    obtain ⟨value, hlook, h⟩ := bind_eq_some_iff.1 h
    obtain ⟨others, hoth, rfl⟩ := map_eq_some_iff.1 h
    obtain ⟨v, hv, rfl⟩ : ∃ v, env.values_[index]? = some (some v) ∧ value = some v := by
      unfold lookup at hlook
      grind
    have hindex : index < current.values_.length := by
      grind
    obtain ⟨bound, hbound⟩ : ∃ bound, current.bind index (some v) = some bound := by
      simp [bind, length, hindex]
    have hvals : bound.values_ = current.values_.set index (some v) := by
      simp only [bind, length, isSome_some, hindex, and_self, if_true] at hbound
      rw [← some.inj hbound]
    obtain ⟨replayed, hreplay, hin, hout⟩ :=
      @ih bound others hoth (by rw [hvals, length_set, hlen])
    have hsame : ∀ i, i ≠ index → bound.values_[i]? = current.values_[i]? := by
      grind
    refine ⟨replayed, ?_, ?_, ?_⟩
    · simp [replayValue, hbound, hreplay]
    · grind
    grind

/-- Every index assigned to that is still in range can be looked up. -/
theorem assignedValues_isSome (assigned : List Nat)
    (h : ∀ i ∈ assigned, i < env.values_.length ∧ env.values_[i]? ≠ some none) :
    ∃ entries, env.assignedValues assigned = some entries := by
  induction assigned with
  | nil => exact ⟨[], rfl⟩
  | cons index rest ih =>
    obtain ⟨entries, hent⟩ := ih fun i hi => h i (mem_cons_of_mem _ hi)
    obtain ⟨hlt, hne⟩ := h index mem_cons_self
    rw [getElem?_eq_getElem hlt] at hne
    obtain ⟨v, hv⟩ := ne_none_iff_exists'.1 fun hnone => hne (congrArg some hnone)
    have hlook : env.lookup index = some (some v) := by
      simp [lookup, getElem?_eq_getElem hlt, hv]
    exact ⟨_, by rw [assignedValues, hlook, bind_some, hent]; rfl⟩

end HEnvironment

namespace Since

variable {start env env' : HEnvironment V}

theorem refl (h : Ready env) : Since env env.clearHistory where
  first := rfl
  pops := h.length
  pushes := h.length
  balance := rfl
  kept := fun _ _ _ => rfl
  stack := h.stack
  assigned := fun _ hi => absurd hi not_mem_nil

theorem bind {index : Nat} {value : V} (h : Since start env)
    (hbind : env.bind index (some value) = some env') : Since start env' := by
  unfold HEnvironment.bind at hbind
  split at hbind
  case isFalse => cases hbind
  case isTrue hindex =>
    obtain rfl := some.inj hbind
    have hmem : ∀ i, i ∈ (if index ∈ env.assigned_variables_ then env.assigned_variables_
        else env.assigned_variables_ ++ [index]) ↔ i = index ∨ i ∈ env.assigned_variables_ := by
      intro i
      split
      case isTrue hin => simp_all
      case isFalse => simp [or_comm]
    have hset : ∀ i : Nat, env.values_[i]? ≠ some none →
        (env.values_.set index (some value))[i]? ≠ some none := by
      grind
    constructor
    case first => exact h.first
    case pops => exact h.pops
    case pushes => simpa [HEnvironment.first_expression] using h.pushes
    case balance => simpa using h.balance
    case kept =>
      intro i hi hout
      rw [hmem, not_or] at hout
      have hother := getElem?_set_ne (l := env.values_) (a := some value) (Ne.symm hout.1)
      exact hother.trans (h.kept i (by simpa using hi) hout.2)
    case stack => exact fun i hi => hset i (h.stack i hi)
    case assigned =>
      intro i hi
      cases (hmem i).1 hi with
      | inl heq =>
        grind
      | inr hin => exact hset i (h.assigned i hin)

theorem push {value : V} (h : Since start env) (hpush : env.push (some value) = some env') :
    Since start env' := by
  obtain rfl : { env with
      push_count_ := env.push_count_ + 1, values_ := env.values_ ++ [some value] } = env' := by
    simpa [HEnvironment.push] using hpush
  have happ : ∀ i : Nat, env.values_[i]? ≠ some none → (env.values_ ++ [some value])[i]? ≠ some none := by
    intro i hi
    by_cases hlt : i < env.values_.length
    · rwa [getElem?_append_left hlt]
    · grind
  have hpushes := h.pushes
  have hbalance := h.balance
  constructor
  case first => exact h.first
  case pops => exact h.pops
  case pushes =>
    grind [HEnvironment.first_expression]
  case balance =>
    grind
  case kept =>
    intro i hi hout
    simp only [length_append, length_singleton] at hi
    have hlt : i < env.values_.length := by omega
    exact (getElem?_append_left hlt).trans (h.kept i (by omega) hout)
  case stack => exact fun i hi => happ i (h.stack i hi)
  case assigned => exact fun i hi => happ i (h.assigned i hi)

theorem pop {popped : Option V × HEnvironment V} (h : Since start env)
    (hpop : env.pop = some popped) : Since start popped.2 := by
  obtain ⟨hlt, hfirst, hvals, hasgn, hcounts⟩ := HEnvironment.pop_cases hpop
  have hlen : popped.2.values_.length = env.values_.length - 1 := by
    rw [hvals, length_dropLast]
  have hdrop : ∀ i : Nat, env.values_[i]? ≠ some none → popped.2.values_[i]? ≠ some none := by
    grind
  have hpushes := h.pushes
  have hbalance := h.balance
  constructor
  case first => exact hfirst.trans h.first
  case pops => omega
  case pushes => omega
  case balance => omega
  case kept =>
    intro i hi hout
    rw [hvals, getElem?_dropLast, if_pos (by omega)]
    exact h.kept i (by omega) (hasgn ▸ hout)
  case stack => exact fun i hi => hdrop i (h.stack i (hfirst ▸ hi))
  case assigned => exact fun i hi => hdrop i (h.assigned i (hasgn ▸ hi))

theorem drop {count : Nat} (h : Since start env) (hdrop : env.drop count = some env') : Since start env' := by
  induction count generalizing env with
  | zero => exact some.inj hdrop ▸ h
  | succ count ih =>
    obtain ⟨popped, hpop, hrest⟩ := bind_eq_some_iff.1 hdrop
    exact ih (h.pop hpop) hrest

theorem setExpressionStackAt {index_from_top : Nat} {value : V} (h : Since start env)
    (hset : env.setExpressionStackAt index_from_top (some value) = some env') :
    Since start env' := by
  obtain ⟨hat, hfirst, hvals, hasgn, hpush, hpop⟩ :=
    HEnvironment.setExpressionStackAt_cases hset
  have hlen : env'.values_.length = env.values_.length := by rw [hvals, length_set]
  have hvalue : ∀ i : Nat, env.values_[i]? ≠ some none → env'.values_[i]? ≠ some none := by
    grind
  have hpushes := h.pushes
  have hbalance := h.balance
  constructor
  case first => exact hfirst.trans h.first
  case pops => omega
  case pushes => omega
  case balance => omega
  case kept =>
    -- The element set lies among those that count as pushed.
    intro i hi hout
    rw [hvals, getElem?_set_ne (by omega)]
    exact h.kept i (by omega) (hasgn ▸ hout)
  case stack => exact fun i hi => hvalue i (h.stack i (hfirst ▸ hi))
  case assigned => exact fun i hi => hvalue i (h.assigned i (hasgn ▸ hi))

theorem step {op : Op V} (h : Since start env) (hop : op.run env = some env') : Since start env' := by
  cases op with
  | bind index value => exact h.bind hop
  | push value => exact h.push hop
  | pop =>
    obtain ⟨popped, hpop, rfl⟩ := map_eq_some_iff.1 hop
    exact h.pop hpop
  | drop count => exact h.drop hop
  | setExpressionStackAt index value => exact h.setExpressionStackAt hop

theorem runAll {ops : List (Op V)} (h : Since start env) (hrun : runAll env ops = some env') :
    Since start env' := by
  induction ops generalizing env with
  | nil => exact some.inj hrun ▸ h
  | cons op ops ih =>
    obtain ⟨next, hop, hrest⟩ := bind_eq_some_iff.1 hrun
    exact ih (h.step hop) hrest

/-- The simulate made from the history turns the values at its start into those at its end. -/
theorem replays {base : HEnvironment V} {ast_id : Int}
    {simulate : HSimulate V × HEnvironment V} (h : Since start env)
    (hvals : base.values_ = start.values_)
    (hfirst : base.first_expression = start.first_expression)
    (hcreate : env.createSimulate ast_id = some simulate) :
    ∃ replayed, base.doSimulate simulate.1 = some replayed ∧ replayed.values_ = env.values_ := by
  obtain ⟨pushed, hpushed, hcreate⟩ := bind_eq_some_iff.1 hcreate
  obtain ⟨assigned, hasgn, rfl⟩ := map_eq_some_iff.1 hcreate
  rw [HEnvironment.pushedValues_eq _ h.pushes] at hpushed
  obtain rfl := some.inj hpushed
  have hpushes := h.pushes
  have hbalance := h.balance
  obtain ⟨dropped, hdrop, hdropped⟩ :=
    @HEnvironment.drop_values _ { base with ast_id_ := ast_id } env.pop_count_ (by
        have hle := h.first ▸ h.pops
        simp only [hvals]
        exact hfirst ▸ hle)
  simp only [hvals] at hdropped
  have htop : ∀ value ∈ env.values_.drop (env.values_.length - env.push_count_), value ≠ none := by
    intro value hvalue hnone
    obtain ⟨i, hi⟩ := getElem?_of_mem hvalue
    rw [getElem?_drop] at hi
    exact h.stack _ (by omega) (hnone ▸ hi)
  obtain ⟨stacked, hstack, hstacked⟩ := @HEnvironment.replay_pushed _ dropped _ htop
  rw [hdropped] at hstacked
  have hlen : stacked.values_.length = env.values_.length := by
    grind
  obtain ⟨replayed, hreplay, hin, hout⟩ :=
    HEnvironment.replay_assigned env.assigned_variables_ hasgn hlen
  refine ⟨replayed, ?_, ?_⟩
  · rw [HEnvironment.doSimulate, hdrop, bind_some, foldlM_append, hstack]
    exact hreplay
  · apply ext_getElem?
    intro i
    by_cases hi : i ∈ env.assigned_variables_
    · exact hin i hi
    · rw [hout i hi, hstacked]
      by_cases hlow : i + env.push_count_ < env.values_.length
      · have hbelow : i < start.values_.length - env.pop_count_ := by omega
        rw [getElem?_append_left (by rw [length_take]; omega),
          getElem?_take_of_lt hbelow, h.kept i hlow hi]
      · have hat : (start.values_.take (start.values_.length - env.pop_count_)).length =
            env.values_.length - env.push_count_ := by
          rw [length_take]
          omega
        grind

/-- A simulate can be made when all indices assigned to are still in range. -/
theorem createSimulate_isSome (h : Since start env) (ast_id : Int)
    (hrange : ∀ i ∈ env.assigned_variables_, i < env.values_.length) :
    ∃ simulate, env.createSimulate ast_id = some simulate := by
  obtain ⟨entries, hent⟩ := HEnvironment.assignedValues_isSome env.assigned_variables_
    fun i hi => ⟨hrange i hi, h.assigned i hi⟩
  rw [HEnvironment.createSimulate, HEnvironment.pushedValues_eq _ h.pushes, bind_some, hent]
  exact ⟨_, rfl⟩

end Since

/-- The operation assigns to variables only, as `Bind(Variable*, HValue*)` does. -/
def Op.Variable (first_expression : Nat) : Op V → Prop
  | .bind index _ => index < first_expression
  | _ => True

variable {env env' : HEnvironment V}

theorem drop_assigned {count : Nat} (h : env.drop count = some env') :
    env'.assigned_variables_ = env.assigned_variables_ := by
  induction count generalizing env with
  | zero => exact some.inj h ▸ rfl
  | succ count ih =>
    obtain ⟨popped, hpop, hrest⟩ := bind_eq_some_iff.1 h
    exact (ih hrest).trans (HEnvironment.pop_cases hpop).2.2.2.1

theorem run_assigned {op : Op V} {n : Nat} (hop : op.run env = some env') (hvar : op.Variable n)
    (h : ∀ i ∈ env.assigned_variables_, i < n) : ∀ i ∈ env'.assigned_variables_, i < n := by
  cases op with
  | bind index value =>
    simp only [Op.run, HEnvironment.bind] at hop
    split at hop
    case isFalse => cases hop
    case isTrue =>
      obtain rfl := some.inj hop
      intro i hi
      split at hi
      · exact h i hi
      · cases mem_append.1 hi with
        | inl hin => exact h i hin
        | inr heq => exact mem_singleton.1 heq ▸ hvar
  | push value =>
    exact some.inj hop ▸ h
  | pop =>
    obtain ⟨popped, hpop, rfl⟩ := map_eq_some_iff.1 hop
    exact (HEnvironment.pop_cases hpop).2.2.2.1 ▸ h
  | drop count => exact drop_assigned hop ▸ h
  | setExpressionStackAt index value =>
    exact (HEnvironment.setExpressionStackAt_cases hop).2.2.2.1 ▸ h

theorem runAll_assigned {ops : List (Op V)} {n : Nat} (hrun : runAll env ops = some env')
    (hvar : ∀ op ∈ ops, op.Variable n) (h : ∀ i ∈ env.assigned_variables_, i < n) :
    ∀ i ∈ env'.assigned_variables_, i < n := by
  induction ops generalizing env with
  | nil => exact some.inj hrun ▸ h
  | cons op ops ih =>
    obtain ⟨next, hop, hrest⟩ := bind_eq_some_iff.1 hrun
    exact ih hrest (fun other hother => hvar other (mem_cons_of_mem _ hother))
      (run_assigned hop (hvar op mem_cons_self) h)

/-- Whatever was done to the environment since the last simulate, the next simulate does to the
values. It can be made when only variables were assigned to. -/
theorem simulate_replays (hready : Ready env) {ops : List (Op V)}
    (hrun : runAll env.clearHistory ops = some env') (ast_id : Int) :
    (∀ simulate, env'.createSimulate ast_id = some simulate →
      ∃ replayed, env.doSimulate simulate.1 = some replayed ∧ replayed.values_ = env'.values_) ∧
    ((∀ op ∈ ops, op.Variable env.first_expression) →
      ∃ simulate, env'.createSimulate ast_id = some simulate) := by
  have hsince := (Since.refl hready).runAll hrun
  constructor
  · intro simulate hcreate
    exact hsince.replays rfl rfl hcreate
  · intro hvariable
    apply hsince.createSimulate_isSome
    intro i hi
    have hlt := runAll_assigned hrun hvariable (fun i hi => absurd hi not_mem_nil) i hi
    have hfirst := hsince.first
    have hpushes := hsince.pushes
    omega

/-- A receiver, the context and one expression `1`: it is set to `2` in place, `3` is pushed, and
both are popped again. -/
theorem simulate_replays_in_place :
    let env : HEnvironment Nat := ⟨[some 7, some 8, some 1], [0], 1, 1, 0, 4, 2, 5⟩
    let ops : List (Op Nat) := [.setExpressionStackAt 0 2, .push 3, .bind 1 9, .drop 2, .push 4]
    let env' : HEnvironment Nat := ⟨[some 7, some 9, some 4], [1], 1, 1, 0, 1, 1, 5⟩
    Ready env ∧ runAll env.clearHistory ops = some env' ∧
    (∀ simulate, env'.createSimulate 6 = some simulate → ∃ replayed, env.doSimulate simulate.1 = some replayed ∧
        replayed.values_ = env'.values_) ∧
    ((∀ op ∈ ops, op.Variable env.first_expression) → ∃ simulate, env'.createSimulate 6 = some simulate) := by
  intro env ops env'
  have hready : Ready env := by
    constructor
    · decide
    grind
  have hrun : runAll env.clearHistory ops = some env' := by decide
  exact ⟨hready, hrun, simulate_replays hready hrun 6⟩

/-! ## Runs with many simulates -/

/-- The builder's run: each group of operations ends with a simulate. -/
def build (env : HEnvironment V) : List (List (Op V) × Int) → Option (List (HSimulate V) × HEnvironment V)
  | [] => some ([], env)
  | (ops, ast_id) :: rest =>
    (runAll env ops).bind fun reached => (reached.createSimulate ast_id).bind fun simulate =>
      (build simulate.2 rest).map fun built => (simulate.1 :: built.1, built.2)

end W16.Simulates
