import W16.RecursiveMutex
import W16.Stm

/-!
# The event loop

Every thread takes events from the shared queue and executes each of them in
transactions until one commits. `running_threads--` and `running_threads++` are
a read followed by a write under `mutex`; the increment at the entry of the
loop is atomic and takes no mutex. `async` pushes into the queue at once, from
the middle of the calling transaction.

`created` lists all events ever queued. The calls of `async` are recorded with
the attempt that makes them and move to `committedCalls` or `abortedCalls` when
it ends; `finished` lists the events executed to a successful commit.
-/
namespace W16.EventLoop

open RecursiveMutex Option

set_option linter.dupNamespace false

variable {τ Obj Field Val φ : Type*}

/-- An `Event*`: the address tells apart two events with the same function. -/
structure Event (φ : Type*) where
  id : Nat
  func : φ
  deriving DecidableEq, Repr

/-- Where a thread is in `EventLoop`. `outside` is before the entry increment,
`release none` the end of a round without an event, `leave` after the `break`. -/
inductive Pc (φ : Type*) where
  | outside | acquire | countOutRead | countOutWrite (v : Int) | empty | pop
  | countInRead (e : Event φ) | countInWrite (e : Event φ) (v : Int) | check
  | release (e : Option (Event φ)) | leave | left
  | start (e : Event φ) | execute (e : Event φ)
  | asyncLock (e : Event φ) (f : φ) | asyncPush (e : Event φ) (f : φ) | asyncUnlock (e : Event φ)
  deriving DecidableEq, Repr

/-- `calls` are the events that the current attempt has queued. -/
structure Thread (φ : Type*) where
  pc : Pc φ := .outside
  active : Bool := true
  calls : List (Event φ) := []
  deriving DecidableEq, Repr

structure State (τ Obj Field Val φ : Type*) where
  mutex : Mutex τ := none
  runningThreads : Int := 0
  queue : List (Event φ)
  thread : τ → Thread φ := fun _ => {}
  stm : Stm.State τ Obj Field Val
  created : List (Event φ)
  finished : List (Event φ) := []
  committedCalls : List (Event φ) := []
  abortedCalls : List (Event φ) := []

/-- The events that the initial script has queued. -/
def scriptEvents (script : List φ) : List (Event φ) := script.mapIdx fun i f => ⟨i, f⟩

def initial (τ : Type*) (heap : Stm.Heap Obj Field Val) (script : List φ) : State τ Obj Field Val φ where
  queue := scriptEvents script
  created := scriptEvents script
  stm := Stm.initial τ heap

variable [DecidableEq τ] [DecidableEq Obj] [DecidableEq Field]

@[simp] def State.setThread (s : State τ Obj Field Val φ) (a : τ) (r : Thread φ) : State τ Obj Field Val φ :=
  { s with thread := Function.update s.thread a r }

@[simp] def State.goto (s : State τ Obj Field Val φ) (a : τ) (pc : Pc φ) : State τ Obj Field Val φ :=
  s.setThread a { s.thread a with pc := pc }

/-- The block of the loop that runs under `mutex`, and the lock and unlock around it. -/
def takeEvent (s : State τ Obj Field Val φ) (a : τ) : Pc φ → Option (State τ Obj Field Val φ)
  | .acquire => (lock a s.mutex).map fun m =>
    { s with mutex := m }.goto a (if (s.thread a).active then .countOutRead else .empty)
  | .countOutRead => some (s.goto a (.countOutWrite s.runningThreads))
  | .countOutWrite v => some ({ s with runningThreads := v - 1 }.setThread a
      { s.thread a with pc := .empty, active := false })
  | .empty => some (s.goto a (if s.queue.isEmpty then .check else .pop))
  | .pop =>
    match s.queue with
    | [] => none
    | e :: queue => some ({ s with queue := queue }.goto a (.countInRead e))
  | .countInRead e => some (s.goto a (.countInWrite e s.runningThreads))
  | .countInWrite e v => some ({ s with runningThreads := v + 1 }.setThread a
      { s.thread a with pc := .release (some e), active := true })
  | .check => some (s.goto a (if s.runningThreads = 0 then .leave else .release none))
  | .release none => some ({ s with mutex := unlock a s.mutex }.goto a .acquire)
  | .release (some e) => some ({ s with mutex := unlock a s.mutex }.goto a (.start e))
  | .leave => some ({ s with mutex := unlock a s.mutex }.goto a .left)
  | _ => none

/-- `new Event(func)`. -/
def State.newEvent (s : State τ Obj Field Val φ) (f : φ) : Event φ := ⟨s.created.length, f⟩

/-- `Async`: the new event is queued under `mutex`. -/
def async (s : State τ Obj Field Val φ) (a : τ) : Pc φ → Option (State τ Obj Field Val φ)
  | .asyncLock e f => (lock a s.mutex).map fun m => { s with mutex := m }.goto a (.asyncPush e f)
  | .asyncPush e f =>
    some ({ s with
        queue := s.queue ++ [s.newEvent f]
        created := s.created ++ [s.newEvent f] }.setThread a
      { s.thread a with pc := .asyncUnlock e, calls := (s.thread a).calls ++ [s.newEvent f] })
  | .asyncUnlock e => some ({ s with mutex := unlock a s.mutex }.goto a (.execute e))
  | _ => none

/-- One attempt ends. A committed one is the end of its event, an aborted one is
followed by the next. -/
def commitTransaction (stmAborts : Bool) (s : State τ Obj Field Val φ) (a : τ) (e : Event φ) :
    Option (State τ Obj Field Val φ) :=
  (Stm.commitTransaction stmAborts s.stm a).map fun
    | (true, stm) => { s with
        stm := stm
        finished := s.finished ++ [e]
        committedCalls := s.committedCalls ++ (s.thread a).calls }.setThread a
        { s.thread a with pc := .acquire, calls := [] }
    | (false, stm) => { s with
        stm := stm
        abortedCalls := s.abortedCalls ++ (s.thread a).calls }.setThread a
        { s.thread a with pc := .start e, calls := [] }

/-- The thread is between two accesses of a transaction that is not being stopped. -/
def inScript (s : State τ Obj Field Val φ) (a : τ) : Bool :=
  match s.stm.thread a with
  | none => false
  | some t => t.pc.isReady

/-- What a thread does next. `mutate` is a step of the tracked loads and stores of
the event's function, `async` its call of `async(f)`. -/
inductive Action (Obj Field Val φ : Type*) where
  | enter | advance
  | mutate (c : Option (Stm.Call Obj Field Val))
  | async (f : φ)
  | commit

def act (stmAborts : Bool) (s : State τ Obj Field Val φ) (a : τ) :
    Action Obj Field Val φ → Option (State τ Obj Field Val φ)
  | .enter =>
    match (s.thread a).pc with
    | .outside => some ({ s with runningThreads := s.runningThreads + 1 }.goto a .acquire)
    | _ => none
  | .advance =>
    match (s.thread a).pc with
    | .start e => (Stm.startTransaction s.stm a).map fun stm => { s with stm := stm }.goto a (.execute e)
    | .asyncLock e f => async s a (.asyncLock e f)
    | .asyncPush e f => async s a (.asyncPush e f)
    | .asyncUnlock e => async s a (.asyncUnlock e)
    | pc => takeEvent s a pc
  | .mutate c =>
    match (s.thread a).pc with
    | .execute _ => (Stm.mutate s.stm a c).map fun stm => { s with stm := stm }
    | _ => none
  | .async f =>
    match (s.thread a).pc with
    | .execute e => if inScript s a then some (s.goto a (.asyncLock e f)) else none
    | _ => none
  | .commit =>
    match (s.thread a).pc with
    | .execute e => commitTransaction stmAborts s a e
    | _ => none

def step (stmAborts : Bool) (s : State τ Obj Field Val φ) (m : τ × Action Obj Field Val φ) :
    Option (State τ Obj Field Val φ) :=
  act stmAborts s m.1 m.2

/-- Every transition of thread `a`. -/
inductive Effect (stmAborts : Bool) (a : τ) (s : State τ Obj Field Val φ) : State τ Obj Field Val φ → Prop
  | enter (hpc : (s.thread a).pc = .outside) :
      Effect stmAborts a s ({ s with runningThreads := s.runningThreads + 1 }.goto a .acquire)
  | acquire (m : Mutex τ) (hpc : (s.thread a).pc = .acquire) (hm : lock a s.mutex = some m) :
      Effect stmAborts a s
        ({ s with mutex := m }.goto a (if (s.thread a).active then .countOutRead else .empty))
  | countOutRead (hpc : (s.thread a).pc = .countOutRead) :
      Effect stmAborts a s (s.goto a (.countOutWrite s.runningThreads))
  | countOutWrite (v : Int) (hpc : (s.thread a).pc = .countOutWrite v) :
      Effect stmAborts a s ({ s with runningThreads := v - 1 }.setThread a
        { s.thread a with pc := .empty, active := false })
  | noEvent (hpc : (s.thread a).pc = .empty) (hq : s.queue = []) : Effect stmAborts a s (s.goto a .check)
  | someEvent (hpc : (s.thread a).pc = .empty) : Effect stmAborts a s (s.goto a .pop)
  | pop (e : Event φ) (queue : List (Event φ)) (hpc : (s.thread a).pc = .pop) (hq : s.queue = e :: queue) :
      Effect stmAborts a s ({ s with queue := queue }.goto a (.countInRead e))
  | countInRead (e : Event φ) (hpc : (s.thread a).pc = .countInRead e) :
      Effect stmAborts a s (s.goto a (.countInWrite e s.runningThreads))
  | countInWrite (e : Event φ) (v : Int) (hpc : (s.thread a).pc = .countInWrite e v) :
      Effect stmAborts a s ({ s with runningThreads := v + 1 }.setThread a
        { s.thread a with pc := .release (some e), active := true })
  | done (hpc : (s.thread a).pc = .check) (hr : s.runningThreads = 0) : Effect stmAborts a s (s.goto a .leave)
  | again (hpc : (s.thread a).pc = .check) (hr : s.runningThreads ≠ 0) :
      Effect stmAborts a s (s.goto a (.release none))
  | releaseNone (hpc : (s.thread a).pc = .release none) :
      Effect stmAborts a s ({ s with mutex := unlock a s.mutex }.goto a .acquire)
  | releaseSome (e : Event φ) (hpc : (s.thread a).pc = .release (some e)) :
      Effect stmAborts a s ({ s with mutex := unlock a s.mutex }.goto a (.start e))
  | leave (hpc : (s.thread a).pc = .leave) :
      Effect stmAborts a s ({ s with mutex := unlock a s.mutex }.goto a .left)
  | start (e : Event φ) (stm : Stm.State τ Obj Field Val) (hpc : (s.thread a).pc = .start e)
      (hstm : Stm.startTransaction s.stm a = some stm) :
      Effect stmAborts a s ({ s with stm := stm }.goto a (.execute e))
  | mutate (e : Event φ) (c : Option (Stm.Call Obj Field Val)) (stm : Stm.State τ Obj Field Val)
      (hpc : (s.thread a).pc = .execute e) (hstm : Stm.mutate s.stm a c = some stm) :
      Effect stmAborts a s { s with stm := stm }
  | asyncCall (e : Event φ) (f : φ) (hpc : (s.thread a).pc = .execute e) :
      Effect stmAborts a s (s.goto a (.asyncLock e f))
  | asyncLock (e : Event φ) (f : φ) (m : Mutex τ) (hpc : (s.thread a).pc = .asyncLock e f)
      (hm : lock a s.mutex = some m) :
      Effect stmAborts a s ({ s with mutex := m }.goto a (.asyncPush e f))
  | asyncPush (e : Event φ) (f : φ) (hpc : (s.thread a).pc = .asyncPush e f) : Effect stmAborts a s ({ s with
          queue := s.queue ++ [s.newEvent f]
          created := s.created ++ [s.newEvent f] }.setThread a
        { s.thread a with pc := .asyncUnlock e, calls := (s.thread a).calls ++ [s.newEvent f] })
  | asyncUnlock (e : Event φ) (hpc : (s.thread a).pc = .asyncUnlock e) :
      Effect stmAborts a s ({ s with mutex := unlock a s.mutex }.goto a (.execute e))
  | committed (e : Event φ) (stm : Stm.State τ Obj Field Val) (hpc : (s.thread a).pc = .execute e)
      (hstm : Stm.commitTransaction stmAborts s.stm a = some (true, stm)) :
      Effect stmAborts a s ({ s with
          stm := stm
          finished := s.finished ++ [e]
          committedCalls := s.committedCalls ++ (s.thread a).calls }.setThread a
        { s.thread a with pc := .acquire, calls := [] })
  | aborted (e : Event φ) (stm : Stm.State τ Obj Field Val) (hpc : (s.thread a).pc = .execute e)
      (hstm : Stm.commitTransaction stmAborts s.stm a = some (false, stm)) :
      Effect stmAborts a s ({ s with
          stm := stm
          abortedCalls := s.abortedCalls ++ (s.thread a).calls }.setThread a
        { s.thread a with pc := .start e, calls := [] })

variable {s t : State τ Obj Field Val φ} {stmAborts : Bool}

theorem takeEvent_effect {a : τ} {pc : Pc φ}
    (hpc : (s.thread a).pc = pc) (h : takeEvent s a pc = some t) : Effect stmAborts a s t := by
  cases pc with
  | acquire =>
    simp only [takeEvent, map_eq_some_iff] at h
    obtain ⟨m, hm, rfl⟩ := h
    exact .acquire m hpc hm
  | countOutRead => cases h; exact .countOutRead hpc
  | countOutWrite v => cases h; exact .countOutWrite v hpc
  | empty =>
    cases h
    cases hq : s.queue with
    | nil => exact .noEvent hpc hq
    | cons e queue => exact .someEvent hpc
  | pop =>
    simp only [takeEvent] at h
    split at h
    · cases h
    · rename_i e queue hq
      cases h
      exact .pop e queue hpc hq
  | countInRead e => cases h; exact .countInRead e hpc
  | countInWrite e v => cases h; exact .countInWrite e v hpc
  | check =>
    cases h
    split
    · exact .done hpc ‹_›
    · exact .again hpc ‹_›
  | release e =>
    cases e with
    | none => cases h; exact .releaseNone hpc
    | some e => cases h; exact .releaseSome e hpc
  | leave => cases h; exact .leave hpc
  | outside | left | start | execute | asyncLock | asyncPush | asyncUnlock => cases h

theorem async_effect {a : τ} {pc : Pc φ}
    (hpc : (s.thread a).pc = pc) (h : async s a pc = some t) : Effect stmAborts a s t := by
  cases pc with
  | asyncLock e f =>
    simp only [async, map_eq_some_iff] at h
    obtain ⟨m, hm, rfl⟩ := h
    exact .asyncLock e f m hpc hm
  | asyncPush e f => cases h; exact .asyncPush e f hpc
  | asyncUnlock e => cases h; exact .asyncUnlock e hpc
  | _ => cases h

theorem commitTransaction_effect {a : τ} {e : Event φ}
    (hpc : (s.thread a).pc = .execute e) (h : commitTransaction stmAborts s a e = some t) :
    Effect stmAborts a s t := by
  simp only [commitTransaction, map_eq_some_iff] at h
  obtain ⟨⟨committed, stm⟩, hstm, rfl⟩ := h
  cases committed with
  | true => exact .committed e stm hpc hstm
  | false => exact .aborted e stm hpc hstm

theorem step_effect {m : τ × Action Obj Field Val φ}
    (h : step stmAborts s m = some t) : Effect stmAborts m.1 s t := by
  obtain ⟨a, act⟩ := m
  cases act with
  | enter =>
    simp only [step, act] at h
    split at h
    · rename_i hpc
      cases h
      exact .enter hpc
    · cases h
  | advance =>
    simp only [step, act] at h
    split at h
    · rename_i e hpc
      simp only [map_eq_some_iff] at h
      obtain ⟨stm, hstm, rfl⟩ := h
      exact .start e stm hpc hstm
    · exact async_effect ‹_› h
    · exact async_effect ‹_› h
    · exact async_effect ‹_› h
    · exact takeEvent_effect rfl h
  | mutate c =>
    simp only [step, act] at h
    split at h
    · rename_i e hpc
      simp only [map_eq_some_iff] at h
      obtain ⟨stm, hstm, rfl⟩ := h
      exact .mutate e c stm hpc hstm
    · cases h
  | async f =>
    simp only [step, act] at h
    split at h
    · rename_i e hpc
      simp only [ite_none_right_eq_some, Option.some.injEq] at h
      obtain ⟨-, rfl⟩ := h
      exact .asyncCall e f hpc
    · cases h
  | commit =>
    grind [step, act, commitTransaction_effect]

end W16.EventLoop
