import W16.EventLoop
import W16.ThreadSum
import Mathlib.Algebra.Order.BigOperators.Group.Finset
import Mathlib.Algebra.BigOperators.Ring.Finset
import Mathlib.Algebra.Order.Ring.Int
import Mathlib.Algebra.Order.BigOperators.Group.Multiset
import Mathlib.Data.Multiset.Count
import Mathlib.Algebra.BigOperators.Group.Finset.Basic
import Mathlib.Data.List.Range
import Mathlib.Tactic.FinCases

/-!
# Idle detection of the event loop

`running_threads` counts the threads that have entered the loop and are active,
as long as no entry increment falls between the read and the write of another
thread's `running_threads--` or `running_threads++`.
-/
namespace W16.EventLoop

open RecursiveMutex Transition Option

set_option linter.dupNamespace false

variable {τ Obj Field Val φ : Type*} [DecidableEq τ] [DecidableEq Obj] [DecidableEq Field]

/-- The thread has read `running_threads` and not yet written it back. -/
def Pc.updating : Pc φ → Bool
  | .countOutWrite _ | .countInWrite _ _ => true
  | _ => false

/-- No entry increment falls into another thread's update of the counter. -/
def UndisturbedUpdate (s : State τ Obj Field Val φ) (m : τ × Action Obj Field Val φ) : Prop :=
  match m.2 with
  | .enter => ∀ b, (s.thread b).pc.updating = false
  | _ => True

instance [Fintype τ] (s : State τ Obj Field Val φ) (m : τ × Action Obj Field Val φ) :
    Decidable (UndisturbedUpdate s m) :=
  match m with
  | (_, .enter) => inferInstanceAs (Decidable (∀ b, (s.thread b).pc.updating = false))
  | (_, .advance) | (_, .mutate _) | (_, .async _) | (_, .commit) => isTrue trivial

def NoEntry (_ : State τ Obj Field Val φ) (m : τ × Action Obj Field Val φ) : Prop :=
  match m.2 with
  | .enter => False
  | _ => True

def Pc.entered : Pc φ → Bool
  | .outside => false
  | _ => true

/-- The thread has entered and its `active` flag is set. -/
def Thread.counted (r : Thread φ) : Bool := r.pc.entered && r.active

/-- The event a thread has popped and not yet executed to a commit. -/
def Pc.event : Pc φ → Option (Event φ)
  | .countInRead e | .countInWrite e _ | .start e | .execute e | .asyncLock e _ | .asyncPush e _
  | .asyncUnlock e => some e
  | .release e => e
  | _ => none

def Thread.idle (r : Thread φ) : Prop := r.counted = false ∧ r.pc.event = none

/-- The counter is exact whenever `mutex` is free; a thread that leaves has seen an
empty queue and no event in execution or popped; and once the queue is empty and
all threads are idle, every check leaves until another thread enters. -/
structure IdleDetection [Fintype τ] (stmAborts : Bool) (s : State τ Obj Field Val φ) : Prop where
  exact : s.mutex = none → s.runningThreads = (Finset.univ.filter fun b => (s.thread b).counted = true).card
  sound : ∀ a, (s.thread a).pc = .leave → s.queue = [] ∧ ∀ b, (s.thread b).pc.event = none
  complete : s.queue = [] → (∀ b, (s.thread b).idle) →
    ∀ t, Reach (step stmAborts) NoEntry s t → ∀ a, (t.thread a).pc = .check →
      ∃ u, step stmAborts t (a, .advance) = some u ∧ (u.thread a).pc = .leave

/-- The thread holds `mutex`. -/
def Pc.critical : Pc φ → Bool
  | .countOutRead | .countOutWrite _ | .empty | .pop | .countInRead _ | .countInWrite _ _ | .check
  | .release _ | .leave | .asyncPush _ _ | .asyncUnlock _ => true
  | _ => false

/-- The value of `active`, where the program counter decides it. -/
def Pc.flag : Pc φ → Option Bool
  | .acquire => none
  | .outside | .countOutRead | .countOutWrite _ | .release (some _) | .start _ | .execute _
  | .asyncLock _ _ | .asyncPush _ _ | .asyncUnlock _ => some true
  | .empty | .pop | .countInRead _ | .countInWrite _ _ | .check | .release none | .leave | .left =>
    some false

/-- The value that a thread is about to write back, less its own change. -/
def Pc.read : Pc φ → Option Int
  | .countOutWrite v | .countInWrite _ v => some v
  | _ => none

/-- The thread has found the queue empty and still holds `mutex`. -/
def Pc.sawEmpty : Pc φ → Bool
  | .check | .leave => true
  | _ => false

section frame

variable {stmAborts : Bool} {a : τ} {s t : State τ Obj Field Val φ}

theorem Effect.thread (h : Effect stmAborts a s t) (b : τ) (hb : b ≠ a) : t.thread b = s.thread b := by
  cases h <;> simp [hb]

/-- `mutex` is taken and released as the program counter says. -/
theorem Effect.mutex (h : Effect stmAborts a s t) :
    (t.mutex = s.mutex ∧ ((t.thread a).pc.critical = true ↔ (s.thread a).pc.critical = true)) ∨
    (lock a s.mutex = some t.mutex ∧ ¬ (s.thread a).pc.critical = true ∧ (t.thread a).pc.critical = true) ∨
    (t.mutex = unlock a s.mutex ∧ (s.thread a).pc.critical = true ∧ ¬ (t.thread a).pc.critical = true) := by
  cases h <;> simp
  case acquire m hpc hm =>
    grind [Pc.critical]
  case asyncLock e f m hpc hm => exact .inr (.inl ⟨hm, by simp [hpc, Pc.critical], rfl⟩)
  all_goals simp [‹(s.thread a).pc = _›, Pc.critical]

/-- The queue changes only under `mutex`. -/
theorem Effect.queue (h : Effect stmAborts a s t) :
    t.queue = s.queue ∨ ((s.thread a).pc.critical = true ∧ (s.thread a).pc.sawEmpty = false) := by
  cases h <;> try exact .inl rfl
  all_goals
    simp [*, Pc.critical, Pc.sawEmpty]

end frame

/-- What holds in every run: who holds the mutex, and what the flag is. -/
structure LoopInv (s : State τ Obj Field Val φ) : Prop where
  mutex : Tracks s.mutex fun b => (s.thread b).pc.critical = true
  flag : ∀ b x, (s.thread b).pc.flag = some x → (s.thread b).active = x
  empty : ∀ b, (s.thread b).pc.sawEmpty = true → s.queue = []

omit [DecidableEq τ] [DecidableEq Obj] [DecidableEq Field] in
theorem loopInv_initial (heap : Stm.Heap Obj Field Val) (script : List φ) :
    LoopInv (initial τ heap script) where
  mutex := by
    constructor
    · simp [initial, Pc.critical]
    · intro b n hb
      cases hb
  flag := by simp [initial, Pc.flag]
  empty := by simp [initial, Pc.sawEmpty]

section step

variable {stmAborts : Bool} {a : τ} {s t : State τ Obj Field Val φ}

theorem flag_step (hs : LoopInv s) (h : Effect stmAborts a s t) (b : τ) (x : Bool)
    (hx : (t.thread b).pc.flag = some x) : (t.thread b).active = x := by
  by_cases hba : b = a
  · subst hba
    have hold := hs.flag b x
    cases h <;> simp at hx ⊢
    case acquire m hpc hm => grind [Pc.flag]
    case countOutWrite v hpc => exact (some.inj hx).symm
    case countInWrite e v hpc => exact (some.inj hx).symm
    all_goals first
      | exact hold hx
      | simp [Pc.flag] at hx; done
      | rw [‹(s.thread b).pc = _›] at hold; exact hold hx
  · rw [h.thread b hba] at hx ⊢
    exact hs.flag b x hx

theorem empty_step (hs : LoopInv s) (h : Effect stmAborts a s t) (b : τ)
    (hb : (t.thread b).pc.sawEmpty = true) : t.queue = [] := by
  by_cases hba : b = a
  · subst hba
    have hold := hs.empty b
    cases h <;> simp at hb ⊢
    case acquire m hpc hm => split at hb <;> cases hb
    case done hpc hr => exact hold (by simp [hpc, Pc.sawEmpty])
    all_goals first
      | exact hold hb
      | assumption
      | simp [Pc.sawEmpty] at hb
  · rw [h.thread b hba] at hb
    rcases h.queue with heq | ⟨hcrit, -⟩
    · rw [heq]
      exact hs.empty b hb
    · have hcritb : (s.thread b).pc.critical = true := by
        cases hpc : (s.thread b).pc <;> simp [hpc, Pc.sawEmpty] at hb <;> rfl
      exact (hba (hs.mutex.unique hcritb hcrit)).elim

theorem loopInv_step (hs : LoopInv s) (h : Effect stmAborts a s t) : LoopInv t where
  mutex := hs.mutex.step (fun b hb => by rw [h.thread b hb]) h.mutex
  flag := flag_step hs h
  empty := empty_step hs h

end step

theorem loopInv_reach {stmAborts : Bool} {p : State τ Obj Field Val φ → τ × Action Obj Field Val φ → Prop}
    {heap : Stm.Heap Obj Field Val} {script : List φ} {s : State τ Obj Field Val φ}
    (h : Reach (step stmAborts) p (initial τ heap script) s) : LoopInv s :=
  h.invariant (loopInv_initial heap script) fun _ _ _ hs _ hstep => loopInv_step hs (step_effect hstep)

/-- What a thread adds to the counter. -/
def Thread.weight (r : Thread φ) : Int := if r.counted then 1 else 0

structure CountInv [Fintype τ] (s : State τ Obj Field Val φ) : Prop where
  count : s.runningThreads = ∑ b, (s.thread b).weight
  read : ∀ b v, (s.thread b).pc.read = some v → v = s.runningThreads
  leaving : ∀ a b, (s.thread a).pc = .leave → (s.thread b).pc.event = none

omit [DecidableEq τ] [DecidableEq Obj] [DecidableEq Field] in
theorem countInv_initial [Fintype τ] (heap : Stm.Heap Obj Field Val) (script : List φ) :
    CountInv (initial τ heap script) where
  count := by simp [initial, Thread.weight, Thread.counted, Pc.entered]
  read := by simp [initial, Pc.read]
  leaving := by simp [initial]

omit [DecidableEq τ] [DecidableEq Obj] [DecidableEq Field] in
/-- A thread with an event is counted, or it is still inside the block under `mutex`. -/
theorem LoopInv.event_counted {s : State τ Obj Field Val φ} (hs : LoopInv s) {b : τ}
    (hb : (s.thread b).pc.event ≠ none) :
    (s.thread b).counted = true ∨ (s.thread b).pc.critical = true := by
  have hflag := hs.flag b
  cases hpc : (s.thread b).pc <;> simp [hpc, Pc.event] at hb
  all_goals simp [hpc, Pc.critical, Thread.counted, Pc.entered] at hflag ⊢
  all_goals exact hflag.2 rfl

section count

variable [Fintype τ] {stmAborts : Bool} {a : τ} {s t : State τ Obj Field Val φ}

omit [Fintype τ] in
/-- The counter changes by what the thread's own contribution does. -/
theorem Effect.weight (h : Effect stmAborts a s t) (hs : LoopInv s)
    (hread : ∀ v, (s.thread a).pc.read = some v → v = s.runningThreads) :
    t.runningThreads + (s.thread a).weight = s.runningThreads + (t.thread a).weight := by
  cases h
  case enter hpc =>
    have hact := hs.flag a true (by simp [hpc, Pc.flag])
    simp [Thread.weight, Thread.counted, Pc.entered, hpc, hact]
  case countOutWrite v hpc =>
    have hv := hread v (by simp [hpc, Pc.read])
    have hact := hs.flag a true (by simp [hpc, Pc.flag])
    simp [Thread.weight, Thread.counted, Pc.entered, hpc, hact, hv]
  case countInWrite e v hpc =>
    have hv := hread v (by simp [hpc, Pc.read])
    have hact := hs.flag a false (by simp [hpc, Pc.flag])
    simp [Thread.weight, Thread.counted, Pc.entered, hpc, hact, hv]
  case acquire m hpc hm =>
    cases hact : (s.thread a).active <;> simp [Thread.weight, Thread.counted, Pc.entered, hpc, hact]
  all_goals simp [Thread.weight, Thread.counted, Pc.entered, *]

omit [Fintype τ] in
theorem Effect.runningThreads (h : Effect stmAborts a s t) :
    t.runningThreads = s.runningThreads ∨ (s.thread a).pc = .outside ∨ (s.thread a).pc.critical = true := by
  cases h <;> simp
  all_goals simp [*, Pc.critical]

omit [DecidableEq τ] [DecidableEq Obj] [DecidableEq Field] in
theorem CountInv.none_counted (hs : CountInv s) (hzero : s.runningThreads = 0) (b : τ) :
    (s.thread b).counted = false := by
  have hnonneg : ∀ c ∈ Finset.univ, 0 ≤ (s.thread c).weight := by
    intro c _
    unfold Thread.weight
    split <;> simp
  have hall := (Finset.sum_eq_zero_iff_of_nonneg hnonneg).mp (hs.count.symm.trans hzero)
  simp_all [Thread.weight]

omit [DecidableEq τ] [DecidableEq Obj] [DecidableEq Field] in
theorem CountInv.zero (hs : CountInv s) (hnone : ∀ b, (s.thread b).counted = false) : s.runningThreads = 0 := by
  rw [hs.count]
  apply Finset.sum_eq_zero
  intro b _
  simp [Thread.weight, hnone b]

theorem read_step (hl : LoopInv s) (hs : CountInv s) (h : Effect stmAborts a s t)
    (hquiet : (s.thread a).pc = .outside → ∀ b, (s.thread b).pc.updating = false) (b : τ) (v : Int)
    (hv : (t.thread b).pc.read = some v) : v = t.runningThreads := by
  by_cases hba : b = a
  · subst hba
    have hold := hs.read b v
    cases h <;> simp at hv ⊢
    case acquire m hpc hm => split at hv <;> cases hv
    case countOutRead hpc => exact (some.inj hv).symm
    case countInRead e hpc => exact (some.inj hv).symm
    all_goals first
      | exact hold hv
      | simp [Pc.read] at hv
  · rw [h.thread b hba] at hv
    have hupd : (s.thread b).pc.updating = true ∧ (s.thread b).pc.critical = true := by
      cases hpc : (s.thread b).pc <;> simp [hpc, Pc.read] at hv <;> exact ⟨rfl, rfl⟩
    rcases h.runningThreads with heq | hout | hcrit
    · rw [heq]
      exact hs.read b v hv
    · have := hquiet hout b
      simp [hupd.1] at this
    · exact (hba (hl.mutex.unique hupd.2 hcrit)).elim

theorem leaving_step (hl : LoopInv s) (hs : CountInv s) (h : Effect stmAborts a s t) (c b : τ)
    (hc : (t.thread c).pc = .leave) : (t.thread b).pc.event = none := by
  by_cases hca : c = a
  · -- `a` has just read zero, so nobody is counted.
    subst hca
    have hcheck : (s.thread c).pc = .check ∧ s.runningThreads = 0 := by
      cases h <;> simp at hc
      case done hpc hr => exact ⟨hpc, hr⟩
      case acquire m hpc hm => split at hc <;> cases hc
      case mutate e k stm hpc hstm => simp [hpc] at hc
    by_cases hbc : b = c
    · rw [hbc, hc]
      rfl
    · rw [h.thread b hbc]
      by_contra he
      rcases hl.event_counted he with hcount | hcrit
      · simp [hs.none_counted hcheck.2 b] at hcount
      · exact hbc (hl.mutex.unique hcrit (by simp [hcheck.1, Pc.critical]))
  · rw [h.thread c hca] at hc
    have hold := hs.leaving c
    by_cases hba : b = a
    · subst hba
      have hmine := hold b hc
      have hcrit : (s.thread b).pc.critical = false := by
        by_contra hcb
        exact hca (hl.mutex.unique (by simp [hc, Pc.critical]) (by simpa using hcb))
      cases h <;> simp
      case acquire m hpc hm => split <;> rfl
      all_goals first
        | exact hmine
        | rfl
        | rw [‹(s.thread b).pc = _›] at hmine; cases hmine; done
        | rw [‹(s.thread b).pc = _›] at hcrit; cases hcrit
    · rw [h.thread b hba]
      exact hold b hc

theorem countInv_step (hl : LoopInv s) (hs : CountInv s) (h : Effect stmAborts a s t)
    (hquiet : (s.thread a).pc = .outside → ∀ b, (s.thread b).pc.updating = false) : CountInv t where
  count := by
    have hsum := ThreadSum.sum_local Thread.weight h.thread
    have hself := h.weight hl (hs.read a)
    have hold := hs.count
    omega
  read := read_step hl hs h hquiet
  leaving := leaving_step hl hs h

omit [Fintype τ] in
/-- A thread that has not entered can only enter. -/
theorem enter_of_outside {m : τ × Action Obj Field Val φ} (h : step stmAborts s m = some t)
    (hpc : (s.thread m.1).pc = .outside) : m.2 = .enter := by
  obtain ⟨b, act'⟩ := m
  cases act' <;> simp [step, act, hpc, takeEvent] at h
  rfl

theorem countInv_reach {heap : Stm.Heap Obj Field Val} {script : List φ}
    (h : Reach (step stmAborts) UndisturbedUpdate (initial τ heap script) s) : CountInv s := by
  have hboth : LoopInv s ∧ CountInv s := by
    apply h.invariant (I := fun s => LoopInv s ∧ CountInv s)
      ⟨loopInv_initial heap script, countInv_initial heap script⟩
    intro s m t hs hm hstep
    have he := step_effect hstep
    refine ⟨loopInv_step hs.1 he, countInv_step hs.1 hs.2 he ?_⟩
    intro hpc
    simpa [UndisturbedUpdate, enter_of_outside hstep hpc] using hm
  exact hboth.2

/-- Nothing is left to do. -/
structure Quiet (s : State τ Obj Field Val φ) : Prop where
  queue : s.queue = []
  idle : ∀ b, (s.thread b).idle

omit [Fintype τ] in
/-- Without an entry a quiet loop stays quiet. -/
theorem quiet_step (hq : Quiet s) (h : Effect stmAborts a s t)
    (hin : (s.thread a).pc ≠ .outside) : Quiet t := by
  have hidle := hq.idle a
  have hempty := hq.queue
  simp only [Thread.idle, Thread.counted] at hidle
  have hself : t.queue = [] ∧ (t.thread a).idle := by
    cases h <;> simp [Thread.idle, Thread.counted]
    case enter hpc => exact (hin hpc).elim
    case pop e queue hpc hqueue => simp [hempty] at hqueue
    -- An idle thread has no event, and it is not counted.
    all_goals simp [‹(s.thread a).pc = _›, Pc.event, Pc.entered] at hidle
    all_goals simp [hidle, hempty, Pc.event]
  refine ⟨hself.1, ?_⟩
  intro b
  by_cases hb : b = a
  · rw [hb]
    exact hself.2
  · rw [h.thread b hb]
    exact hq.idle b

end count

/-- In every run in which no entry increment falls into an update of the counter,
idle detection is exact, sound and complete. -/
theorem idle_detection [Fintype τ] (stmAborts : Bool) (heap : Stm.Heap Obj Field Val) (script : List φ)
    {s : State τ Obj Field Val φ}
    (h : Reach (step stmAborts) UndisturbedUpdate (initial τ heap script) s) :
    IdleDetection stmAborts s := by
  have hl := loopInv_reach h
  have hs := countInv_reach h
  refine ⟨?_, ?_, ?_⟩
  · intro _
    rw [hs.count, Finset.natCast_card_filter]
    rfl
  · intro a ha
    exact ⟨hl.empty a (by simp [ha, Pc.sawEmpty]), fun b => hs.leaving a b ha⟩
  · intro hqueue hidle t ht a hcheck
    have hall : LoopInv t ∧ CountInv t ∧ Quiet t := by
      apply ht.invariant (I := fun s => LoopInv s ∧ CountInv s ∧ Quiet s) ⟨hl, hs, hqueue, hidle⟩
      intro s m t hs hm hstep
      have he := step_effect hstep
      have hin : (s.thread m.1).pc ≠ .outside := by
        intro hpc
        simp [NoEntry, enter_of_outside hstep hpc] at hm
      exact ⟨loopInv_step hs.1 he, countInv_step hs.1 hs.2.1 he fun hpc => (hin hpc).elim,
        quiet_step hs.2.2 he hin⟩
    have hzero := hall.2.1.zero fun b => (hall.2.2.idle b).1
    exact ⟨t.goto a .leave, by simp [step, act, hcheck, takeEvent, hzero], by simp⟩

/-- Both threads have entered; thread `a` is executing the only event. -/
def enteredRun (a b : τ) : List (τ × Action Unit Unit Unit Unit) :=
  (a, .enter) :: (b, .enter) :: List.replicate 9 (a, .advance)

theorem idle_detection_entered : ∃ s : State (Fin 2) Unit Unit Unit Unit,
      Reach (step false) UndisturbedUpdate (initial (Fin 2) (fun _ _ => ()) [()]) s ∧
      s.mutex = none ∧ s.runningThreads = 2 ∧ (s.thread 0).pc = .execute ⟨0, ()⟩ ∧
      IdleDetection false s := by
  obtain ⟨s, hs, hq⟩ := exists_reach_of_run (step false) UndisturbedUpdate
    (initial (Fin 2) (fun _ _ => ()) [()]) (enteredRun 0 1)
    (fun s => s.mutex == none && s.runningThreads == 2 && (s.thread 0).pc == .execute ⟨0, ()⟩)
    (by decide +kernel)
  simp only [Bool.and_eq_true, beq_iff_eq] at hq
  exact ⟨s, hs, hq.1.1, hq.1.2, hq.2, idle_detection false _ _ hs⟩

/-- Thread 1 enters between the read and the write of thread 0's `running_threads--`. -/
def lostEntry (a b : τ) : List (τ × Action Unit Unit Unit Unit) :=
  [(a, .enter), (a, .advance), (a, .advance), (b, .enter), (a, .advance), (a, .advance), (a, .advance),
    (a, .advance)]

theorem idle_detection_lost : ¬ ∀ s : State (Fin 2) Unit Unit Unit Unit,
      Reach (step false) unguarded (initial (Fin 2) (fun _ _ => ()) []) s → IdleDetection false s := by
  intro hall
  obtain ⟨s, hs, hq⟩ := exists_reach_of_run (step false) unguarded
    (initial (Fin 2) (fun _ _ => ()) ([] : List Unit)) (lostEntry 0 1)
    (fun s => s.mutex == none && s.runningThreads == 0 && (s.thread 1).counted) (by decide +kernel)
  simp only [Bool.and_eq_true, beq_iff_eq] at hq
  have hexact := (hall s hs).exact hq.1.1
  have hcard : (Finset.univ.filter fun b => (s.thread b).counted = true).card = 0 := by omega
  rw [Finset.card_eq_zero] at hcard
  have hmem : (1 : Fin 2) ∈ Finset.univ.filter fun b => (s.thread b).counted = true := by
    simp [hq.2]
  rw [hcard] at hmem
  simp at hmem

end W16.EventLoop

/-!
## Every queued event is executed once

`async` queues its event at once, so the events of an aborted attempt stay in the
queue when the attempt is repeated. Every event that was queued, by a committed
attempt or by an aborted one, is at any time in exactly one place: the queue, a
thread, or the list of those executed to a commit.
-/
namespace W16.EventLoop

open RecursiveMutex Transition

variable {τ Obj Field Val φ : Type*} [DecidableEq τ] [DecidableEq Obj] [DecidableEq Field]

/-- The event a thread has, as a multiset. -/
def Thread.held (r : Thread φ) : Multiset (Event φ) := (r.pc.event.toList : List (Event φ))

/-- The executed, queued and popped events are the script's and one for each call
of `async` in any attempt; no event is in two places, so none is lost or committed
twice; a step that does not commit an event leaves the shared heap as it is; and
when all threads have left, all events have been executed. -/
structure ExactlyOnce [Fintype τ] (stmAborts : Bool) (script : List φ) (s : State τ Obj Field Val φ) :
    Prop where
  conserved : (s.finished : Multiset (Event φ)) + s.queue + ∑ b, (s.thread b).held =
    scriptEvents script + s.committedCalls + s.abortedCalls + ∑ b, ((s.thread b).calls : Multiset (Event φ))
  once : ((s.finished : Multiset (Event φ)) + s.queue + ∑ b, (s.thread b).held).Nodup
  harmless : ∀ m t, step stmAborts s m = some t → t.finished = s.finished → t.stm.heap = s.stm.heap
  drained : (∀ b, (s.thread b).pc = .left) →
    (s.finished : Multiset (Event φ)) = scriptEvents script + s.committedCalls + s.abortedCalls

/-- The thread is inside an attempt. -/
def Pc.inAttempt : Pc φ → Bool
  | .execute _ | .asyncLock _ _ | .asyncPush _ _ | .asyncUnlock _ => true
  | _ => false

structure EventInv [Fintype τ] (script : List φ) (s : State τ Obj Field Val φ) : Prop where
  placed : (s.finished : Multiset (Event φ)) + s.queue + ∑ b, (s.thread b).held = s.created
  made : (s.created : Multiset (Event φ)) = scriptEvents script + s.committedCalls + s.abortedCalls +
    ∑ b, ((s.thread b).calls : Multiset (Event φ))
  ids : s.created.map Event.id = List.range s.created.length
  calls : ∀ b, (s.thread b).pc.inAttempt = false → (s.thread b).calls = []
  last : (∃ b, (s.thread b).pc = .left) → (∀ b, (s.thread b).pc = .left) → s.queue = []

theorem scriptEvents_ids (script : List φ) :
    (scriptEvents script).map Event.id = List.range (scriptEvents script).length := by
  apply List.ext_getElem
  · simp [scriptEvents]
  · simp [scriptEvents]

omit [DecidableEq τ] [DecidableEq Obj] [DecidableEq Field] in
theorem eventInv_initial [Fintype τ] (heap : Stm.Heap Obj Field Val) (script : List φ) :
    EventInv script (initial τ heap script) where
  placed := by simp [initial, Thread.held, Pc.event]
  made := by simp [initial]
  ids := scriptEvents_ids script
  calls := by simp [initial]
  last := by simp [initial]

section step

variable [Fintype τ] {stmAborts : Bool} {a : τ} {script : List φ} {s t : State τ Obj Field Val φ}

omit [Fintype τ] in
/-- What one step does to the places of the events. -/
theorem Effect.placed (h : Effect stmAborts a s t) :
    (t.finished : Multiset (Event φ)) + t.queue + (t.thread a).held + s.created =
      s.finished + s.queue + (s.thread a).held + t.created := by
  classical
  ext x
  cases h
  case acquire m hpc hm => cases hact : (s.thread a).active <;> simp [Thread.held, Pc.event, hpc]
  all_goals simp [Thread.held, Pc.event, List.count_cons, -Multiset.coe_singleton, *]
  all_goals omega

omit [Fintype τ] in
/-- What one step does to the record of the calls. -/
theorem Effect.made (h : Effect stmAborts a s t) :
    (t.created : Multiset (Event φ)) + s.committedCalls + s.abortedCalls + (s.thread a).calls =
      s.created + t.committedCalls + t.abortedCalls + (t.thread a).calls := by
  classical
  ext x
  cases h <;> simp only [State.goto, State.setThread, Function.update_self, Multiset.count_add,
    Multiset.coe_count, List.count_append, List.count_nil]
  all_goals omega

omit [Fintype τ] in
theorem Effect.ids (h : Effect stmAborts a s t) (hs : s.created.map Event.id = List.range s.created.length) :
    t.created.map Event.id = List.range t.created.length := by
  cases h <;> try exact hs
  case asyncPush e f hpc => simp [hs, State.newEvent, List.range_succ]

theorem eventInv_step (hl : LoopInv s) (hs : EventInv script s) (h : Effect stmAborts a s t) :
    EventInv script t where
  placed := ThreadSum.sum_balance Thread.held h.thread h.placed hs.placed
  made := by
    have hlocal : scriptEvents script + t.committedCalls + t.abortedCalls + (t.thread a).calls + s.created =
        (scriptEvents script + s.committedCalls + s.abortedCalls + (s.thread a).calls + t.created :
          Multiset (Event φ)) := by
      calc scriptEvents script + t.committedCalls + t.abortedCalls + (t.thread a).calls + s.created
          = (scriptEvents script + (s.created + t.committedCalls + t.abortedCalls + (t.thread a).calls) :
              Multiset (Event φ)) := by ac_rfl
        _ = scriptEvents script + (t.created + s.committedCalls + s.abortedCalls + (s.thread a).calls) := by
            rw [h.made]
        _ = _ := by ac_rfl
    exact (ThreadSum.sum_balance (fun r => (r.calls : Multiset (Event φ))) h.thread hlocal hs.made.symm).symm
  ids := h.ids hs.ids
  calls := by
    intro b hb
    by_cases hba : b = a
    · subst hba
      have hold := hs.calls b
      cases h <;> simp at hb ⊢
      all_goals first
        | exact hold hb
        | simp [Pc.inAttempt] at hb; done
        | exact hold (by simp [‹(s.thread b).pc = _›, Pc.inAttempt])
    · rw [h.thread b hba] at hb ⊢
      exact hs.calls b hb
  last := by
    rintro - hall
    -- The thread that has just left saw the empty queue, and it was the last one.
    have hleft := hall a
    have hempty := hl.empty a
    cases h <;> simp at hleft ⊢
    case acquire m hpc hm => split at hleft <;> cases hleft
    case leave hpc => exact hempty (by simp [hpc, Pc.sawEmpty])
    grind -linarith

theorem eventInv_reach {heap : Stm.Heap Obj Field Val}
    (h : Reach (step stmAborts) unguarded (initial τ heap script) s) : EventInv script s := by
  have hboth : LoopInv s ∧ EventInv script s := by
    apply h.invariant (I := fun s => LoopInv s ∧ EventInv script s)
      ⟨loopInv_initial heap script, eventInv_initial heap script⟩
    intro s m t hs _ hstep
    have he := step_effect hstep
    exact ⟨loopInv_step hs.1 he, eventInv_step hs.1 hs.2 he⟩
  exact hboth.2

omit [Fintype τ] in
/-- Only a successful commit changes the shared heap, and it finishes an event. -/
theorem Effect.heap (h : Effect stmAborts a s t) (hf : t.finished = s.finished) : t.stm.heap = s.stm.heap := by
  cases h <;> try rfl
  case start e stm hpc hstm =>
    unfold Stm.startTransaction at hstm
    split at hstm <;> cases hstm
    rfl
  case mutate e c stm hpc hstm =>
    simp only [Stm.mutate, Option.bind_eq_some_iff, Option.map_eq_some_iff] at hstm
    obtain ⟨r, -, r', -, rfl⟩ := hstm
    rfl
  case committed e stm hpc hstm => simp at hf
  case aborted e stm hpc hstm =>
    unfold Stm.commitTransaction at hstm
    split at hstm
    · cases hstm
    · simp only [Option.ite_none_right_eq_some] at hstm
      obtain ⟨-, hstm⟩ := hstm
      split at hstm <;> cases hstm
      rfl

omit [DecidableEq τ] [DecidableEq Obj] [DecidableEq Field] in
theorem EventInv.created_nodup (hs : EventInv script s) : s.created.Nodup := by
  have hids : (s.created.map Event.id).Nodup := by
    rw [hs.ids]
    exact List.nodup_range
  exact hids.of_map

omit [DecidableEq τ] [DecidableEq Obj] [DecidableEq Field] in
theorem EventInv.drained [Nonempty τ] (hs : EventInv script s) (hall : ∀ b, (s.thread b).pc = .left) :
    (s.finished : Multiset (Event φ)) = scriptEvents script + s.committedCalls + s.abortedCalls := by
  obtain ⟨b⟩ := ‹Nonempty τ›
  have hqueue := hs.last ⟨b, hall b⟩ hall
  have hheld : ∑ b, (s.thread b).held = 0 := by
    simp [Thread.held, Pc.event, hall]
  have hcalls : ∑ b, ((s.thread b).calls : Multiset (Event φ)) = 0 := by
    apply Finset.sum_eq_zero
    intro b _
    simp [hs.calls b (by simp [hall b, Pc.inAttempt])]
  have hplaced := hs.placed
  rw [hs.made, hqueue, hheld, hcalls] at hplaced
  simpa using hplaced

end step

/-- In every run the events executed, queued or popped are the script's and those
of all attempts, each in one place; the heap changes only when an event is
committed; and once all threads have left nothing is missing. -/
theorem events_exactly_once [Fintype τ] [Nonempty τ] (stmAborts : Bool) (heap : Stm.Heap Obj Field Val)
    (script : List φ) {s : State τ Obj Field Val φ}
    (h : Reach (step stmAborts) unguarded (initial τ heap script) s) :
    ExactlyOnce stmAborts script s := by
  have hs := eventInv_reach h
  refine ⟨?_, ?_, ?_, hs.drained⟩
  · rw [hs.placed]
    exact hs.made
  · rw [hs.placed]
    exact Multiset.coe_nodup.mpr hs.created_nodup
  · intro m t hstep hf
    exact (step_effect hstep).heap hf

/-- From the top of the loop to the middle of an event. -/
def toExecute (a : τ) : List (τ × Action Unit Unit Unit Unit) := List.replicate 9 (a, .advance)

/-- A tracked access, with the five steps it takes the first time. -/
def access (a : τ) (c : Stm.Call Unit Unit Unit) : List (τ × Action Unit Unit Unit Unit) :=
  (a, .mutate (some c)) :: List.replicate 5 (a, .mutate none)

def callAsync (a : τ) : List (τ × Action Unit Unit Unit Unit) :=
  [(a, .async ()), (a, .advance), (a, .advance), (a, .advance)]

/-- Thread `b` reads the object and calls `async`; thread `a` stores into the object and
commits, so the attempt of thread `b` is aborted and repeated. -/
def abortedAttempt (a b : τ) : List (τ × Action Unit Unit Unit Unit) :=
  (a, Action.enter) :: toExecute a ++ (b, Action.enter) :: toExecute b ++ access b (.load () ()) ++ callAsync b ++
    access a (.store () () ()) ++ [(a, Action.commit), (b, Action.commit), (b, Action.advance)] ++
    access b (.load () ()) ++ callAsync b ++ [(b, Action.commit)]

/-- Thread `a` executes the two events that are now queued, and both threads leave. -/
def drainQueue (a b : τ) : List (τ × Action Unit Unit Unit Unit) :=
  toExecute a ++ [(a, Action.commit)] ++ toExecute a ++ [(a, Action.commit)] ++ List.replicate 6 (a, Action.advance) ++
    List.replicate 6 (b, Action.advance) ++ List.replicate 4 (a, Action.advance)

theorem events_exactly_once_aborted : ∃ s : State (Fin 2) Unit Unit Unit Unit,
      Reach (step false) unguarded (initial (Fin 2) (fun _ _ => ()) [(), ()]) s ∧
      s.abortedCalls = [⟨2, ()⟩] ∧ ExactlyOnce false [(), ()] s := by
  obtain ⟨s, hs, hq⟩ := exists_reach_of_run (step false) unguarded
    (initial (Fin 2) (fun _ _ => ()) [(), ()]) (abortedAttempt 0 1)
    (fun s => s.abortedCalls == [⟨2, ()⟩]) (by decide +kernel)
  exact ⟨s, hs, by simpa using hq, events_exactly_once false _ _ hs⟩

/-- The events executed at the end are not the script's and those of the committed
attempts: an aborted attempt has contributed one. -/
theorem aborted_attempt_queues : ¬ ∀ s : State (Fin 2) Unit Unit Unit Unit,
      Reach (step false) unguarded (initial (Fin 2) (fun _ _ => ()) [(), ()]) s →
      (∀ b, (s.thread b).pc = .left) →
      (s.finished : Multiset (Event Unit)) = scriptEvents [(), ()] + s.committedCalls := by
  intro hall
  obtain ⟨s, hs, hq⟩ := exists_reach_of_run (step false) unguarded
    (initial (Fin 2) (fun _ _ => ()) [(), ()]) (abortedAttempt 0 1 ++ drainQueue 0 1)
    (fun s => (s.thread 0).pc == .left && (s.thread 1).pc == .left && s.finished.length == 4 &&
      s.committedCalls.length == 1) (by decide +kernel)
  simp only [Bool.and_eq_true, beq_iff_eq] at hq
  have hcard := congrArg Multiset.card (hall s hs (by
    intro b
    fin_cases b
    · exact hq.1.1.1
    · exact hq.1.1.2))
  simp [hq.1.2, hq.2, scriptEvents] at hcard

end W16.EventLoop
