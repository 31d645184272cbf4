import W16.HandshakeInvariant

/-!
# The collection scope

A collector that got through `EnterCollectionScope` stops the world: this holds
in every run. That `LeaveCollectionScope` undoes exactly what its own
`EnterCollectionScope` did holds in the runs in which nobody asks for a
collection while one is pending, because the destructor of `CollectionScope`
also runs when the collection was skipped.
-/
namespace W16.Handshake

open RecursiveMutex Transition

set_option linter.dupNamespace false

def Pc.collects : Pc → Bool
  | .collecting _ => true
  | _ => false

/-- The thread executes code of its transaction. -/
def Pc.mutator : Pc → Bool
  | .running | .heapLock | .inAllocation => true
  | _ => false

/-- `a` is the only collector, every other thread whose transaction is listed is
inside a window, none runs mutator code, and none can change the list. -/
structure StopTheWorld (debug : Bool) (n : Nat) (s : State) (a : ThreadId) : Prop where
  unique : ∀ b, (s.thread b).pc.collects = true → b = a
  paused : ∀ b u, b ≠ a → (s.thread b).transaction = some u → u ∈ s.transactions → (s.thread b).pc.window = true
  quiet : ∀ b, b ≠ a → (s.thread b).pc.mutator = false
  frozen : ∀ m t, m.thread ≠ a → step debug n s m = some t → t.transactions = s.transactions

/-- In every reachable state a thread between a successful `EnterCollectionScope`
and its `LeaveCollectionScope` has stopped the world. -/
theorem stop_the_world (debug : Bool) (n : Nat) {s : State}
    (h : Reach (step debug n) unguarded initial s) (a : ThreadId)
    (ha : (s.thread a).pc.collects = true) : StopTheWorld debug n s a := by
  have hs := inv_reach h
  obtain ⟨c, hc⟩ : ∃ c, (s.thread a).pc = .collecting c := by
    cases hpc : (s.thread a).pc <;> simp [hpc, Pc.collects] at ha
    exact ⟨_, rfl⟩
  have hlist : (s.thread a).pc.holdsTransactions = true := by simp [hc, Pc.holdsTransactions]
  have paused : ∀ b u, b ≠ a → (s.thread b).transaction = some u → u ∈ s.transactions →
      (s.thread b).pc.window = true := by
    intro b u hb hu hmem
    by_contra hw
    have hown := hs.own b u hu (by simpa using hw)
    have hheld := hs.held a u (by simpa [hc, Pc.held] using hmem) (by
      intro he
      exact hb (hs.distinct b a u hu he.symm))
    exact hb (hown.unique hheld)
  refine ⟨?_, paused, ?_, ?_⟩
  · intro b hb
    apply hs.holder_unique _ hlist
    cases hpc : (s.thread b).pc <;> simp [hpc, Pc.collects] at hb
    rfl
  · intro b hb
    by_contra hm
    have hin : (s.thread b).pc.inTransaction = true ∧ (s.thread b).pc.window = false := by
      cases hpc : (s.thread b).pc <;> simp [hpc, Pc.mutator] at hm <;> exact ⟨rfl, rfl⟩
    obtain ⟨u, hu, hmem⟩ := hs.joined b hin.1
    rw [paused b u hb hu hmem] at hin
    cases hin.2
  · intro m t hm hstep
    rcases (step_effect hstep).2.2.frame.transactions with heq | hholds
    · exact heq
    · exact (hm (hs.holder_unique hholds hlist)).elim

/-- Two threads in transactions, the first of which is about to collect. -/
def twoRunning : List Move :=
  [.call 0 .startTransaction, .advance 0, .advance 0, .advance 0, .call 0 .commitTransaction,
    .advance 0, .advance 0, .advance 0, .advance 0, .advance 0, .advance 0, .advance 0, .advance 0,
    .call 0 .startTransaction, .advance 0, .advance 0, .advance 0,
    .advance 1, .call 1 .startTransaction, .advance 1, .advance 1, .advance 1]

/-- Thread 1 finds the collection of thread 0 pending and pauses for it. -/
def pendingCollection : List Move :=
  twoRunning ++ ([.call 0 .collectGarbage, .advance 0, .call 1 .collectGarbage, .advance 1,
    .advance 1, .advance 1, .advance 1, .advance 0, .advance 0, .advance 0, .advance 0] : List Move)

theorem stop_the_world_pending : ∃ s, Reach (step true 2) unguarded initial s ∧
    (s.thread 0).pc.collects = true ∧ s.transactions = [1, 2] ∧ StopTheWorld true 2 s 0 := by
  obtain ⟨s, hs, hq⟩ := exists_reach_of_run (step true 2) unguarded initial pendingCollection
    (fun s => (s.thread 0).pc.collects && s.transactions == [1, 2]) (by decide +kernel)
  simp only [Bool.and_eq_true, beq_iff_eq] at hq
  exact ⟨s, hs, hq.1, hq.2, stop_the_world true 2 hs 0 hq.1⟩

/-- Nobody asks for a collection while one is pending: a compare-and-swap of
`need_gc_` in `EnterCollectionScope` is taken only where the flag is 0. -/
def FreshRequest (s : State) : Move → Prop
  | .call _ _ => True
  | .advance a => ∀ c, (s.thread a).pc = .enter c .compareAndSwap → s.needGc = false

/-- The thread has set `need_gc_` and not yet reset it. -/
def Pc.requested : Pc → Bool
  | .enter _ .lock | .enter _ (.loop _) | .collecting _ | .leave _ _ .compareAndSwap => true
  | _ => false

def PauseReturn.skips : PauseReturn → Bool
  | .enterAllocationScope => false
  | .enterCollectionScope _ => true

/-- The thread is on the path of a skipped collection. -/
def Pc.skipped : Pc → Bool
  | .pause r _ => r.skips
  | .leave _ entered _ => !entered
  | _ => false

/-- The thread is between a successful `EnterCollectionScope` and the end of its
`LeaveCollectionScope`. -/
def Pc.inScope : Pc → Bool
  | .collecting _ => true
  | .leave _ entered _ => entered
  | _ => false

/-- `LeaveCollectionScope` is executed only after an `EnterCollectionScope` that
returned true and once for each of them, it resets a flag that is set, and it
releases only locks that its thread holds. -/
structure Balanced (s : State) : Prop where
  entered : ∀ a c e p, (s.thread a).pc = .leave c e p → e = true
  once : ∀ a, (s.thread a).entered = (s.thread a).left + if (s.thread a).pc.inScope then 1 else 0
  flag : ∀ a c e, (s.thread a).pc = .leave c e .compareAndSwap → s.needGc = true
  transactionsMutex : ∀ a c e p, (s.thread a).pc = .leave c e p → Owned s.transactionsMutex a
  gcMutex : ∀ a c e p u, (s.thread a).pc = .leave c e p → u ∈ p.held s.transactions →
    some u ≠ (s.thread a).transaction → Owned (s.trans u).gcMutex a
  asserted : s.fault ≠ some (.assertion .needGcPrev)

structure ScopeInv (s : State) : Prop where
  requested : ∀ a, (s.thread a).pc.requested = true → s.needGc = true
  unique : ∀ a b, (s.thread a).pc.requested = true → (s.thread b).pc.requested = true → a = b
  skipped : ∀ a, (s.thread a).pc.skipped = false
  once : ∀ a, (s.thread a).entered = (s.thread a).left + if (s.thread a).pc.inScope then 1 else 0
  asserted : s.fault ≠ some (.assertion .needGcPrev)

@[simp] theorem Caller.resume_requested (c : Caller) : c.resume.requested = false := by
  cases c <;> rfl
@[simp] theorem Caller.resume_skipped (c : Caller) : c.resume.skipped = false := by
  cases c <;> rfl
@[simp] theorem Caller.resume_inScope (c : Caller) : c.resume.inScope = false := by
  cases c <;> rfl

/-- A pause that does not belong to a skipped collection ends in the allocation scope. -/
theorem Pc.resume_of_not_skipped {pc : Pc} {r : PauseReturn} {p : PauseAt} (h : pc.skipped = false)
    (hpc : pc = .pause r p) : r.resume = .heapLock := by
  subst hpc
  cases r with
  | enterAllocationScope => rfl
  | enterCollectionScope c => cases h

theorem scopeInv_initial : ScopeInv initial := by
  have hpc : ∀ b, (initial.thread b).pc = .idle ∨ (initial.thread b).pc = .unborn := by
    intro b
    by_cases hb : b = 0 <;> simp [initial, hb]
  constructor
  · grind [Pc.requested]
  · grind [Pc.requested]
  · intro a
    rcases hpc a with h | h <;> simp [h, Pc.skipped]
  · intro a
    by_cases ha : a = 0 <;> simp [initial, ha, Pc.inScope]
  · simp [initial]

variable {a : ThreadId} {debug : Bool} {s t : State}

/-- A thread that is asking for a collection after a step was asking before it,
or it has just set the flag that was clear. -/
theorem Effect.requested (h : Effect debug a s t)
    (hskip : (s.thread a).pc.skipped = false) (ht : (t.thread a).pc.requested = true) :
    ((s.thread a).pc.requested = true ∧ t.needGc = s.needGc) ∨ (s.needGc = false ∧ t.needGc = true) := by
  cases h <;> simp at ht ⊢
  case request c hpc hg => exact .inr hg
  case pauseReturn r hpc hg =>
    rw [Pc.resume_of_not_skipped hskip hpc] at ht
    cases ht
  case pauseLockGC r v m hpc hv hm =>
    rw [Pc.resume_of_not_skipped hskip hpc] at ht
    cases ht
  all_goals simp_all [Pc.requested]

/-- Only the thread that is asking for a collection clears the flag. -/
theorem Effect.needGc_cleared (h : Effect debug a s t)
    (hs : s.needGc = true) (ht : t.needGc = false) : (s.thread a).pc.requested = true := by
  cases h <;> simp [hs] at ht
  case leaveCompareAndSwap c e hpc hg => simp [hpc, Pc.requested]

theorem requested_step (hs : ScopeInv s)
    (h : Effect debug a s t) (b : ThreadId) (hb : (t.thread b).pc.requested = true) :
    t.needGc = true := by
  by_cases hba : b = a
  · subst hba
    rcases h.requested (hs.skipped b) hb with ⟨hreq, heq⟩ | ⟨-, heq⟩
    · rw [heq]
      exact hs.requested b hreq
    · exact heq
  · rw [h.frame.thread b hba] at hb
    by_contra hn
    have ha := h.needGc_cleared (hs.requested b hb) (by simpa using hn)
    exact hba (hs.unique b a hb ha)

theorem requested_unique_step (hs : ScopeInv s)
    (h : Effect debug a s t) (b c : ThreadId) (hb : (t.thread b).pc.requested = true)
    (hc : (t.thread c).pc.requested = true) : b = c := by
  -- Where `a` asks, no other thread was asking: the flag was clear or `a` asked already.
  have other : ∀ d, d ≠ a → (t.thread d).pc.requested = true → (t.thread a).pc.requested = true → False := by
    intro d hd hdr har
    rw [h.frame.thread d hd] at hdr
    rcases h.requested (hs.skipped a) har with ⟨hreq, -⟩ | ⟨hclear, -⟩
    · exact hd (hs.unique d a hdr hreq)
    · rw [hs.requested d hdr] at hclear
      cases hclear
  by_cases hba : b = a
  · subst hba
    by_contra hne
    exact other c (Ne.symm hne) hc hb
  · by_cases hca : c = a
    · subst hca
      exact (other b hba hb hc).elim
    · rw [h.frame.thread b hba] at hb
      rw [h.frame.thread c hca] at hc
      exact hs.unique b c hb hc

theorem skipped_step (hs : ScopeInv s)
    (h : Effect debug a s t) (hfresh : ∀ c, (s.thread a).pc = .enter c .compareAndSwap → s.needGc = false)
    (b : ThreadId) : (t.thread b).pc.skipped = false := by
  by_cases hba : b = a
  · subst hba
    have hold := hs.skipped b
    cases h <;> simp
    case skip c hpc hg => simp [hfresh c hpc] at hg
    case pauseReturn r hpc hg => rw [Pc.resume_of_not_skipped hold hpc]; rfl
    case pauseLockGC r v m hpc hv hm => rw [Pc.resume_of_not_skipped hold hpc]; rfl
    all_goals first
      | exact hold
      | rfl
      | rw [‹(s.thread b).pc = _›] at hold; exact hold
  · rw [h.frame.thread b hba]
    exact hs.skipped b

theorem once_step (hs : ScopeInv s) (h : Effect debug a s t) (b : ThreadId) :
    (t.thread b).entered = (t.thread b).left + if (t.thread b).pc.inScope then 1 else 0 := by
  by_cases hba : b = a
  · subst hba
    have hold := hs.once b
    have hskip := hs.skipped b
    cases h <;> simp
    case pauseReturn r hpc hg => simpa [hpc, Pc.resume_of_not_skipped hskip hpc, Pc.inScope] using hold
    case pauseLockGC r v m hpc hv hm =>
      simpa [hpc, Pc.resume_of_not_skipped hskip hpc, Pc.inScope] using hold
    case collect c hpc =>
      rw [hpc, Caller.resume_inScope] at hold
      exact hold
    case enterDone c i hpc hi => simpa [hpc, Pc.inScope] using hold
    case leaveUnlock c e hpc =>
      simp_all [Pc.skipped, Pc.inScope]
    all_goals first
      | exact hold
      | rw [‹(s.thread b).pc = _›] at hold; exact hold
  · rw [h.frame.thread b hba]
    exact hs.once b

theorem asserted_step (hs : ScopeInv s) (h : Effect debug a s t) : t.fault ≠ some (.assertion .needGcPrev) := by
  cases h <;> try exact hs.asserted
  case leaveAssert c e hdebug hpc hg =>
    have := hs.requested a (by simp [hpc, Pc.requested])
    simp [hg] at this
  all_goals simp

theorem scopeInv_step {n : Nat} {m : Move} (hs : ScopeInv s)
    (hm : FreshRequest s m) (h : step debug n s m = some t) : ScopeInv t := by
  have he := (step_effect h).2.2
  refine ⟨requested_step hs he, requested_unique_step hs he, ?_, once_step hs he, asserted_step hs he⟩
  apply skipped_step hs he
  intro c hpc
  cases m with
  | call a k =>
    cases k <;> simp [step, call, Move.thread] at h hpc <;> simp [hpc] at h
  | advance a => exact hm c hpc

instance (s : State) (m : Move) : Decidable (FreshRequest s m) :=
  match m with
  | .call _ _ => isTrue trivial
  | .advance a =>
    match hpc : (s.thread a).pc with
    | .enter c .compareAndSwap =>
      decidable_of_iff (s.needGc = false) ⟨fun h _ _ => h, fun h => h c hpc⟩
    | .enter _ .lock | .enter _ (.loop _) => isTrue fun _ h => by simp [hpc] at h
    | .unborn | .idle | .finished | .running | .heapLock | .inAllocation | .start _ | .pause _ _
    | .collecting _ | .leave _ _ _ | .commit _ => isTrue fun _ h => by simp [hpc] at h

/-- In every run in which nobody asks for a collection while one is pending, the
collection scopes are balanced. -/
theorem collection_scope_balanced (debug : Bool) (n : Nat) {s : State}
    (h : Reach (step debug n) FreshRequest initial s) : Balanced s := by
  have hinv := inv_reach h
  have hs : ScopeInv s := h.invariant scopeInv_initial fun _ _ _ hs hp hstep => scopeInv_step hs hp hstep
  have entered : ∀ a c e p, (s.thread a).pc = .leave c e p → e = true := by
    intro a c e p hpc
    have := hs.skipped a
    simpa [hpc, Pc.skipped] using this
  refine ⟨entered, hs.once, ?_, ?_, ?_, hs.asserted⟩
  · intro a c e hpc
    exact hs.requested a (by simp [hpc, Pc.requested])
  · intro a c e p hpc
    exact hinv.list a (by simp [hpc, Pc.holdsTransactions, entered a c e p hpc])
  · intro a c e p u hpc hu hne
    exact hinv.held a u (by simpa [hpc, Pc.held, entered a c e p hpc] using hu) hne

/-- One thread collects while the other commits, and leaves its scope. -/
def undisturbedCollection : List Move :=
  twoRunning ++ ([.call 0 .collectGarbage, .advance 0, .call 1 .commitTransaction, .advance 1,
    .advance 0, .advance 0, .advance 0, .advance 0, .advance 0] : List Move)

theorem collection_scope_balanced_undisturbed : ∃ s, Reach (step true 2) FreshRequest initial s ∧
    (s.thread 0).pc = .leave .direct true .compareAndSwap ∧ Balanced s := by
  obtain ⟨s, hs, hq⟩ := exists_reach_of_run (step true 2) FreshRequest initial undisturbedCollection
    (fun s => (s.thread 0).pc == .leave .direct true .compareAndSwap) (by decide +kernel)
  exact ⟨s, hs, by simpa using hq, collection_scope_balanced true 2 hs⟩

/-- Thread 1 skips its collection and then leaves a scope that it never entered. -/
def skippedCollection : List Move :=
  pendingCollection ++ ([.advance 0, .advance 0, .advance 0, .advance 0, .advance 0, .advance 0,
    .advance 0, .advance 1, .advance 1, .advance 1] : List Move)

theorem collection_scope_unbalanced : ¬ ∀ s, Reach (step true 2) unguarded initial s → Balanced s := by
  intro hall
  obtain ⟨s, hs, hq⟩ := exists_reach_of_run (step true 2) unguarded initial (skippedCollection ++ [Move.advance 1])
    (fun s => s.fault == some (.assertion .needGcPrev)) (by decide +kernel)
  exact (hall s hs).asserted (by simpa using hq)

end W16.Handshake
