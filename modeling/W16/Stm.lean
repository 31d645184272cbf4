import W16.CellMap
import W16.History
import W16.Transition

/-!
# Transactions over the shared heap

The shared heap maps every tracked object to its fields. A transaction runs
loads and stores; each of them first goes through `RedirectLoad` or
`RedirectStore`, whose test of `aborted_`, lookups, `CreateCopy` and `Add` are
separate steps, and then reads or writes the field through the cell it got.
`CommitTransaction` is one step: it holds `commit_mutex_`, `transactions_mutex_`
and the `mutex_` of every transaction in the list.

A thread has at most one transaction, so the list is the family of the threads'
current transactions. What a transaction read and wrote is recorded in its log,
and the logs of the committed ones in commit order.
-/
namespace W16.Stm

open History

set_option linter.dupNamespace false

variable {τ Obj Field Val : Type*}

abbrev Heap (Obj Field Val : Type*) := Store Obj Field Val

/-- What the returned handle points to. -/
inductive Cell where
  | copy | original
  deriving DecidableEq, Repr

/-- Where a transaction is. `terminated` is after `*terminate = true`, when the
script is being stopped. -/
inductive Pc (Obj Field Val : Type*) where
  | ready | terminated
  | loadTest (o : Obj) (f : Field)
  | loadWriteSet (o : Obj) (f : Field)
  | loadReadSet (o : Obj) (f : Field)
  | loadAdd (o : Obj) (f : Field)
  | loadField (o : Obj) (f : Field) (cell : Cell)
  | storeTest (o : Obj) (f : Field) (v : Val)
  | storeWriteSet (o : Obj) (f : Field) (v : Val)
  | createCopy (o : Obj) (f : Field) (v : Val)
  | storeAdd (o : Obj) (f : Field) (v : Val) (copy : Field → Val)
  | storeField (o : Obj) (f : Field) (v : Val)

structure Transaction (Obj Field Val : Type*) where
  aborted : Bool := false
  readSet : CellMap Obj Obj := []
  writeSet : CellMap Obj (Field → Val) := []
  pc : Pc Obj Field Val := .ready
  log : List (Access Obj Field Val) := []

/-- `even` is the static flag of `CommitTransaction`. -/
structure State (τ Obj Field Val : Type*) where
  heap : Heap Obj Field Val
  thread : τ → Option (Transaction Obj Field Val) := fun _ => none
  even : Bool := true
  committed : List (List (Access Obj Field Val)) := []

def initial (τ : Type*) (heap : Heap Obj Field Val) : State τ Obj Field Val := { heap }

variable [DecidableEq τ] [DecidableEq Obj] [DecidableEq Field]

/-- `Transaction::RedirectLoad` and the read through the cell it returns. -/
def redirectLoad (heap : Heap Obj Field Val) (t : Transaction Obj Field Val) :
    Pc Obj Field Val → Option (Transaction Obj Field Val)
  | .loadTest o f => some { t with pc := if t.aborted then .terminated else .loadWriteSet o f }
  | .loadWriteSet o f => some { t with
      pc := if (t.writeSet.getMapping o).isSome then .loadField o f .copy else .loadReadSet o f }
  | .loadReadSet o f => some { t with
      pc := if (t.readSet.getMapping o).isSome then .loadField o f .original else .loadAdd o f }
  | .loadAdd o f => some { t with readSet := t.readSet.addMapping o o, pc := .loadField o f .original }
  | .loadField o f .copy => (t.writeSet.getMapping o).map fun copy =>
    { t with pc := .ready, log := t.log ++ [.load o f (copy f)] }
  | .loadField o f .original =>
    some { t with pc := .ready, log := t.log ++ [.load o f (heap o f)] }
  | _ => none

/-- `Transaction::RedirectStore` and the write through the cell it returns. -/
def redirectStore (heap : Heap Obj Field Val) (t : Transaction Obj Field Val) :
    Pc Obj Field Val → Option (Transaction Obj Field Val)
  | .storeTest o f v => some { t with pc := if t.aborted then .terminated else .storeWriteSet o f v }
  | .storeWriteSet o f v => some { t with
      pc := if (t.writeSet.getMapping o).isSome then .storeField o f v else .createCopy o f v }
  | .createCopy o f v => some { t with pc := .storeAdd o f v (heap o) }
  | .storeAdd o f v copy =>
    some { t with writeSet := t.writeSet.addMapping o copy, pc := .storeField o f v }
  | .storeField o f v => some { t with
      writeSet := t.writeSet.modifyCell o (Function.update · f v)
      pc := .ready
      log := t.log ++ [.store o f v] }
  | _ => none

/-- The next step of the access a transaction is in. -/
def advance (heap : Heap Obj Field Val) (t : Transaction Obj Field Val) : Option (Transaction Obj Field Val) :=
  match t.pc with
  | .ready | .terminated => none
  | .loadTest _ _ | .loadWriteSet _ _ | .loadReadSet _ _ | .loadAdd _ _ | .loadField _ _ _ =>
    redirectLoad heap t t.pc
  | .storeTest _ _ _ | .storeWriteSet _ _ _ | .createCopy _ _ _ | .storeAdd _ _ _ _
  | .storeField _ _ _ => redirectStore heap t t.pc

/-- `t->HasConflicts(other)`: what `t` has read or copied meets the write set of
the other transaction. -/
def hasConflicts (t other : Transaction Obj Field Val) : Bool :=
  t.readSet.intersects other.writeSet || t.writeSet.intersects other.writeSet

/-- A transaction other than the committing one is aborted if it is in conflict. -/
def abortConflict (trans t : Transaction Obj Field Val) : Transaction Obj Field Val :=
  { t with aborted := t.aborted || hasConflicts t trans }

/-- `Transaction::CommitHeap`. -/
def commitHeap (t : Transaction Obj Field Val) (heap : Heap Obj Field Val) : Heap Obj Field Val :=
  t.writeSet.commitChanges Function.update heap

def Pc.commits : Pc Obj Field Val → Bool
  | .ready | .terminated => true
  | _ => false

/-- The transaction is aborted when it commits: by another transaction, or by
`FLAG_stm_aborts` at every other commit. -/
def abortsAtCommit (stmAborts : Bool) (s : State τ Obj Field Val) (t : Transaction Obj Field Val) : Bool :=
  t.aborted || (!s.even && stmAborts)

/-- `STM::StartTransaction`. -/
def startTransaction (s : State τ Obj Field Val) (a : τ) : Option (State τ Obj Field Val) :=
  match s.thread a with
  | none => some { s with thread := Function.update s.thread a (some {}) }
  | some _ => none

/-- `STM::CommitTransaction`, with what it returns. -/
def commitTransaction (stmAborts : Bool) (s : State τ Obj Field Val) (a : τ) :
    Option (Bool × State τ Obj Field Val) :=
  match s.thread a with
  | none => none
  | some t =>
    if t.pc.commits then
      if abortsAtCommit stmAborts s t then
        some (false, { s with thread := Function.update s.thread a none, even := !s.even })
      else
        some (true, { heap := commitHeap t s.heap
                      thread := fun b => if b = a then none else (s.thread b).map (abortConflict t)
                      even := !s.even
                      committed := s.committed ++ [t.log] })
    else none

/-- The accesses a transaction's program makes. -/
inductive Call (Obj Field Val : Type*) where
  | load (o : Obj) (f : Field)
  | store (o : Obj) (f : Field) (v : Val)

def Call.enter : Call Obj Field Val → Pc Obj Field Val
  | .load o f => .loadTest o f
  | .store o f v => .storeTest o f v

def Pc.isReady : Pc Obj Field Val → Bool
  | .ready => true
  | _ => false

/-- What a thread does inside its transaction: make the next access or go on with
the one it is in. `none` for the access means the latter. -/
def transactionStep (heap : Heap Obj Field Val) (t : Transaction Obj Field Val) :
    Option (Call Obj Field Val) → Option (Transaction Obj Field Val)
  | some c => if t.pc.isReady then some { t with pc := c.enter } else none
  | none => advance heap t

inductive Move (τ Obj Field Val : Type*) where
  | start (a : τ)
  | call (a : τ) (c : Call Obj Field Val)
  | advance (a : τ)
  | commit (a : τ)

def mutate (s : State τ Obj Field Val) (a : τ) (c : Option (Call Obj Field Val)) :
    Option (State τ Obj Field Val) :=
  (s.thread a).bind fun t => (transactionStep s.heap t c).map fun t' =>
    { s with thread := Function.update s.thread a (some t') }

def step (stmAborts : Bool) (s : State τ Obj Field Val) : Move τ Obj Field Val → Option (State τ Obj Field Val)
  | .start a => startTransaction s a
  | .call a c => mutate s a (some c)
  | .advance a => mutate s a none
  | .commit a => (commitTransaction stmAborts s a).map (·.2)

end W16.Stm
