import Mathlib.Logic.Function.Basic
import W16.Transition
import W16.RecursiveMutex

/-!
# The allocation, collection and transaction locks of the STM

Threads run `StartTransaction`, allocations, `Heap::CollectGarbage` and
`CommitTransaction` in any order. Every mutex operation, the compare-and-swap
and the read of `need_gc_`, every semaphore operation and every access to
`transactions_` is one step. A thread's program counter says which call it is
in and what it does next; the calls a thread makes are chosen by the schedule,
so a schedule is any interleaving of any programs.

`ASSERT` evaluates its argument in debug builds only, so the build is a
parameter: it decides whether `RemoveElement` in `CommitTransaction` and the
commit of the initial script in `main` are executed at all.
-/
namespace W16.Handshake

open RecursiveMutex

set_option linter.dupNamespace false

abbrev ThreadId := Nat
abbrev TransId := Nat

/-- Where `Heap::CollectGarbage` was called: inside the `AllocationScope` of
`CALL_AND_RETRY`, or directly, as `Runtime::PerformGC` does. -/
inductive Caller where
  | allocation | direct
  deriving DecidableEq, Repr

/-- Where `PauseForGC` returns to. -/
inductive PauseReturn where
  | enterAllocationScope
  | enterCollectionScope (c : Caller)
  deriving DecidableEq, Repr

inductive PauseAt where
  | needGc | resetDoneGC | unlockGC | wait | clear | lockGC
  deriving DecidableEq, Repr

inductive StartAt where
  | lock | add | unlock
  deriving DecidableEq, Repr

inductive EnterAt where
  | compareAndSwap | lock | loop (i : Nat)
  deriving DecidableEq, Repr

inductive LeaveAt where
  | compareAndSwap | loop (i : Nat) | signalDoneGC (i : Nat) (t : TransId) | unlock
  deriving DecidableEq, Repr

inductive CommitAt where
  | unlockGC | commitLock | transactionsLock | lockGC | conflicts | remove
  | transactionsUnlock | commitUnlock
  deriving DecidableEq, Repr

/-- Program counters. `running` is mutator code in a transaction, `inAllocation`
is code under an `AllocationScope`, and `collecting` is the body of
`CollectGarbage` after `EnterCollectionScope` returned true. A thread in
`leave c entered` runs the destructor of `CollectionScope`; `entered` is what
`EnterCollectionScope` returned. -/
inductive Pc where
  | unborn | idle | finished | running | heapLock | inAllocation
  | start (p : StartAt)
  | pause (r : PauseReturn) (p : PauseAt)
  | enter (c : Caller) (p : EnterAt)
  | collecting (c : Caller)
  | leave (c : Caller) (entered : Bool) (p : LeaveAt)
  | commit (p : CommitAt)
  deriving DecidableEq, Repr

/-- A `Transaction`. `started` and `deleted` record that `StartTransaction` has
added it to the list and that `CommitTransaction` has deleted it. -/
structure Transaction where
  gcMutex : Mutex ThreadId := none
  doneGc : Option Nat := none
  started : Bool := false
  deleted : Bool := false
  deriving DecidableEq, Repr

/-- `transaction` is the thread-local pointer. `script` is set while the main
thread has not finished the initial script. `entered` and `left` count the
calls of `EnterCollectionScope` that returned true and the finished calls of
`LeaveCollectionScope`. -/
structure Thread where
  pc : Pc
  transaction : Option TransId := none
  script : Bool := false
  entered : Nat := 0
  left : Nat := 0
  deriving DecidableEq, Repr

/-- The function that dereferences a deleted transaction. -/
inductive Site where
  | commitTransaction | enterCollectionScope | iterate | leaveCollectionScope
  deriving DecidableEq, Repr

/-- The assertions that can be seen to fail: `need_gc_prev_ == 1` on leaving a
collection, `done_gc_ == NULL` on pausing, and the removal from the list. -/
inductive Assertion where
  | needGcPrev | doneGcNull | removeElement
  deriving DecidableEq, Repr

/-- Why a run stops: a failed `ASSERT` of a debug build, or the use of a deleted
transaction, after which nothing is known. -/
inductive Fault where
  | assertion (which : Assertion)
  | useAfterFree (site : Site)
  deriving DecidableEq, Repr

structure State where
  needGc : Bool := false
  heapMutex : Mutex ThreadId := none
  commitMutex : Mutex ThreadId := none
  transactionsMutex : Mutex ThreadId := none
  transactions : List TransId := []
  trans : TransId → Transaction := fun _ => {}
  next : TransId := 0
  thread : ThreadId → Thread
  spawned : Bool := false
  fault : Option Fault := none

/-- The main thread is about to start the transaction of the initial script. -/
def initial : State where
  thread a := if a = 0 then { pc := .idle, script := true } else { pc := .unborn }

@[simp] def State.setThread (s : State) (a : ThreadId) (r : Thread) : State :=
  { s with thread := Function.update s.thread a r }

/-- Move the program counter of `a`. -/
@[simp] def State.goto (s : State) (a : ThreadId) (pc : Pc) : State :=
  s.setThread a { s.thread a with pc := pc }

@[simp] def State.setTrans (s : State) (t : TransId) (r : Transaction) : State :=
  { s with trans := Function.update s.trans t r }

@[simp] def State.fail (s : State) (f : Fault) : State := { s with fault := some f }

/-- The debug build evaluates an assertion and stops when it fails. -/
def State.assert (debug : Bool) (s : State) (which : Assertion) (condition : Bool) (t : State) : State :=
  if debug && !condition then s.fail (.assertion which) else t

def lockGC (s : State) (a : ThreadId) (t : TransId) : Option State :=
  (lock a (s.trans t).gcMutex).map fun m => s.setTrans t { s.trans t with gcMutex := m }

@[simp] def unlockGC (s : State) (a : ThreadId) (t : TransId) : State :=
  s.setTrans t { s.trans t with gcMutex := unlock a (s.trans t).gcMutex }

/-- A transaction that is not paused has no semaphore, and the signal is lost. -/
@[simp] def signalDoneGC (s : State) (t : TransId) : State :=
  s.setTrans t { s.trans t with doneGc := (s.trans t).doneGc.map (· + 1) }

def lockTransactions (s : State) (a : ThreadId) : Option State :=
  (lock a s.transactionsMutex).map fun m => { s with transactionsMutex := m }

@[simp] def unlockTransactions (s : State) (a : ThreadId) : State :=
  { s with transactionsMutex := unlock a s.transactionsMutex }

/-- Where a finished `CollectGarbage` continues. -/
def Caller.resume : Caller → Pc
  | .allocation => .inAllocation
  | .direct => .running

/-- Where a finished `PauseForGC` continues: `EnterAllocationScope` goes on to
lock the heap, `EnterCollectionScope` returns false and the destructor of the
`CollectionScope` runs. -/
def PauseReturn.resume : PauseReturn → Pc
  | .enterAllocationScope => .heapLock
  | .enterCollectionScope c => .leave c false .compareAndSwap

/-- `STM::StartTransaction` up to its lock: the constructor locks the fresh GC
mutex and the new transaction becomes the current one. -/
@[simp] def newTransaction (s : State) (a : ThreadId) : State :=
  let s' := s.setTrans s.next { gcMutex := some (a, 0) }
  { s' with next := s.next + 1 }.setThread a { s.thread a with pc := .start .lock, transaction := some s.next }

def startTransaction (s : State) (a : ThreadId) : StartAt → Option State
  | .lock => (lockTransactions s a).map (·.goto a (.start .add))
  | .add => (s.thread a).transaction.map fun t =>
    { s.setTrans t { s.trans t with started := true } with
      transactions := s.transactions ++ [t] }.goto a (.start .unlock)
  | .unlock => some ((unlockTransactions s a).goto a .running)

def pauseForGC (debug : Bool) (s : State) (a : ThreadId) (r : PauseReturn) : PauseAt → Option State
  | .needGc => some (s.goto a (if s.needGc then .pause r .resetDoneGC else r.resume))
  | .resetDoneGC => (s.thread a).transaction.map fun t =>
    s.assert debug .doneGcNull (s.trans t).doneGc.isNone
      ((s.setTrans t { s.trans t with doneGc := some 0 }).goto a (.pause r .unlockGC))
  | .unlockGC => (s.thread a).transaction.map fun t =>
    (unlockGC s a t).goto a (.pause r .wait)
  | .wait => (s.thread a).transaction.bind fun t =>
    match (s.trans t).doneGc with
    | some (k + 1) =>
      some ((s.setTrans t { s.trans t with doneGc := some k }).goto a (.pause r .clear))
    | _ => none
  | .clear => (s.thread a).transaction.map fun t =>
    (s.setTrans t { s.trans t with doneGc := none }).goto a (.pause r .lockGC)
  | .lockGC => (s.thread a).transaction.bind fun t =>
    (lockGC s a t).map (·.goto a r.resume)

def enterCollectionScope (s : State) (a : ThreadId) (c : Caller) : EnterAt → Option State
  | .compareAndSwap =>
    if s.needGc then some (s.goto a (.pause (.enterCollectionScope c) .needGc))
    else some ({ s with needGc := true }.goto a (.enter c .lock))
  | .lock => (lockTransactions s a).map (·.goto a (.enter c (.loop 0)))
  | .loop i =>
    match s.transactions[i]? with
    | none => some (s.setThread a { s.thread a with pc := .collecting c, entered := (s.thread a).entered + 1 })
    | some t =>
      if some t = (s.thread a).transaction then some (s.goto a (.enter c (.loop (i + 1))))
      else if (s.trans t).deleted then some (s.fail (.useAfterFree .enterCollectionScope))
      else (lockGC s a t).map (·.goto a (.enter c (.loop (i + 1))))

/-- The body of `CollectGarbage`; `STM::Iterate` visits every transaction. -/
def performGarbageCollection (s : State) (a : ThreadId) (c : Caller) : State :=
  if s.transactions.any fun t => (s.trans t).deleted then s.fail (.useAfterFree .iterate)
  else s.goto a (.leave c true .compareAndSwap)

def leaveCollectionScope (debug : Bool) (s : State) (a : ThreadId) (c : Caller) (entered : Bool) :
    LeaveAt → Option State
  | .compareAndSwap =>
    some (s.assert debug .needGcPrev s.needGc ({ s with needGc := false }.goto a (.leave c entered (.loop 0))))
  | .loop i =>
    match s.transactions[i]? with
    | none => some (s.goto a (.leave c entered .unlock))
    | some t =>
      if some t = (s.thread a).transaction then
        some (s.goto a (.leave c entered (.loop (i + 1))))
      else if (s.trans t).deleted then some (s.fail (.useAfterFree .leaveCollectionScope))
      else some ((unlockGC s a t).goto a (.leave c entered (.signalDoneGC i t)))
  | .signalDoneGC i t =>
    if (s.trans t).deleted then some (s.fail (.useAfterFree .leaveCollectionScope))
    else some ((signalDoneGC s t).goto a (.leave c entered (.loop (i + 1))))
  | .unlock => some ((unlockTransactions s a).setThread a
      { s.thread a with pc := c.resume, left := (s.thread a).left + 1 })

/-- `STM::CommitTransaction`. The conflict phase locks every transaction in the
list, and the removal from the list is an argument of `ASSERT`. The commit of
the initial script is followed by the start of the worker threads. -/
def commitTransaction (debug : Bool) (s : State) (a : ThreadId) : CommitAt → Option State
  | .unlockGC => (s.thread a).transaction.map fun t =>
    (unlockGC s a t).goto a (.commit .commitLock)
  | .commitLock => (lock a s.commitMutex).map fun m =>
    { s with commitMutex := m }.goto a (.commit .transactionsLock)
  | .transactionsLock => (lockTransactions s a).map (·.goto a (.commit .lockGC))
  | .lockGC => (s.thread a).transaction.bind fun t =>
    (lockGC s a t).map (·.goto a (.commit .conflicts))
  | .conflicts =>
    if s.transactions.any fun t => (s.trans t).deleted then
      some (s.fail (.useAfterFree .commitTransaction))
    else some (s.goto a (.commit .remove))
  | .remove => (s.thread a).transaction.map fun t =>
    s.assert debug .removeElement (s.transactions.contains t)
      ({ s.setTrans t { s.trans t with deleted := true } with
        transactions := if debug then s.transactions.erase t else s.transactions }.setThread a
        { s.thread a with pc := .commit .transactionsUnlock, transaction := none })
  | .transactionsUnlock => some ((unlockTransactions s a).goto a (.commit .commitUnlock))
  | .commitUnlock =>
    some ({ s with commitMutex := unlock a s.commitMutex
                   spawned := s.spawned || (s.thread a).script }.setThread a
      { s.thread a with pc := .idle, script := false })

/-- The calls a thread's program makes. Whether a commit finds its transaction
aborted depends on the read and write sets, which are not part of this model:
`clearExceptions` is the branch of an aborted one. -/
inductive Call where
  | startTransaction | exit | allocate | collectGarbage | leaveAllocationScope | commitTransaction
  | clearExceptions
  deriving DecidableEq, Repr

/-- A thread makes a call, where its program counter allows one. In a release
build the `ASSERT` around the commit of the initial script makes no call. -/
def call (debug : Bool) (s : State) (a : ThreadId) : Call → Option State
  | .startTransaction =>
    if (s.thread a).pc = .idle then some (newTransaction s a) else none
  | .exit =>
    if (s.thread a).pc = .idle ∧ (s.thread a).script = false then some (s.goto a .finished) else none
  | .allocate =>
    if (s.thread a).pc = .running then some (s.goto a (.pause .enterAllocationScope .needGc)) else none
  | .collectGarbage =>
    if (s.thread a).pc = .inAllocation then some (s.goto a (.enter .allocation .compareAndSwap))
    else if (s.thread a).pc = .running then some (s.goto a (.enter .direct .compareAndSwap))
    else none
  | .leaveAllocationScope =>
    if (s.thread a).pc = .inAllocation then
      some ({ s with heapMutex := unlock a s.heapMutex }.goto a .running)
    else none
  | .commitTransaction =>
    if (s.thread a).pc = .running then
      if (s.thread a).script && !debug then
        some ({ s with spawned := true }.setThread a { s.thread a with pc := .idle, script := false })
      else some (s.goto a (.commit .unlockGC))
    else none
  | .clearExceptions =>
    if (s.thread a).pc = .commit .conflicts then some (s.goto a (.commit .remove)) else none

/-- The next step of the call a thread is in. -/
def advance (debug : Bool) (s : State) (a : ThreadId) : Option State :=
  match (s.thread a).pc with
  | .unborn => if s.spawned then some (s.goto a .idle) else none
  | .idle | .finished | .running | .inAllocation => none
  | .heapLock => (lock a s.heapMutex).map fun m => { s with heapMutex := m }.goto a .inAllocation
  | .start p => startTransaction s a p
  | .pause r p => pauseForGC debug s a r p
  | .enter c p => enterCollectionScope s a c p
  | .collecting c => some (performGarbageCollection s a c)
  | .leave c entered p => leaveCollectionScope debug s a c entered p
  | .commit p => commitTransaction debug s a p

inductive Move where
  | call (a : ThreadId) (c : Call)
  | advance (a : ThreadId)
  deriving DecidableEq, Repr

def Move.thread : Move → ThreadId
  | .call a _ => a
  | .advance a => a

/-- One step of a system of `n` threads. A fault stops every thread. -/
def step (debug : Bool) (n : Nat) (s : State) (m : Move) : Option State :=
  if s.fault.isNone ∧ m.thread < n then
    match m with
    | .call a c => call debug s a c
    | .advance a => advance debug s a
  else none

end W16.Handshake
