import W16.LockOwnership

/-!
# Deadlock freedom

A thread that cannot move is finished, not born, or waits for one of the locks
or for its semaphore. With exact ownership each wait leads to a thread that can
move: a waiter for `heap_mutex_` or for the end of a collection to the
collector, the collector to the holder of `transactions_mutex_` or of a GC
mutex, and these are never blocked.
-/
namespace W16.Handshake

open RecursiveMutex Transition Option

set_option linter.dupNamespace false

/-- `a` cannot move: what it waits for. -/
inductive Waits (s : State) (a : ThreadId) : Prop
  | finished (hpc : (s.thread a).pc = .finished)
  | unborn (hpc : (s.thread a).pc = .unborn) (hs : s.spawned = false)
  | heap (hpc : (s.thread a).pc = .heapLock) (hm : lock a s.heapMutex = none)
  | commit (hpc : (s.thread a).pc = .commit .commitLock) (hm : lock a s.commitMutex = none)
  | list (hpc : (s.thread a).pc = .start .lock ∨ (∃ c, (s.thread a).pc = .enter c .lock) ∨
        (s.thread a).pc = .commit .transactionsLock) (hm : lock a s.transactionsMutex = none)
  | gc (u : TransId) (hpc : (∃ r, (s.thread a).pc = .pause r .lockGC) ∨ (s.thread a).pc = .commit .lockGC)
      (hu : (s.thread a).transaction = some u) (hm : lock a (s.trans u).gcMutex = none)
  | collector (c : Caller) (i : Nat) (u : TransId) (hpc : (s.thread a).pc = .enter c (.loop i))
      (hu : s.transactions[i]? = some u) (hown : some u ≠ (s.thread a).transaction)
      (hm : lock a (s.trans u).gcMutex = none)
  | semaphore (r : PauseReturn) (u : TransId) (hpc : (s.thread a).pc = .pause r .wait)
      (hu : (s.thread a).transaction = some u) (hd : (s.trans u).doneGc = some 0)

/-- `a` can make a call or go on with the one it is in. -/
def CanMove (s : State) (a : ThreadId) : Prop :=
  (advance true s a).isSome = true ∨ ∃ c, (call true s a c).isSome = true

/-- Some thread can take a step. -/
def Live (n : Nat) (s : State) : Prop := ∃ m t, step true n s m = some t

section progress

variable {n : Nat} {s : State} {a : ThreadId}

theorem CanMove.live (h : CanMove s a) (hf : s.fault = none) (ha : a < n) : Live n s := by
  rcases h with h | ⟨c, h⟩
  · obtain ⟨t, ht⟩ := isSome_iff_exists.mp h
    exact ⟨.advance a, t, by simp [step, Move.thread, hf, ha, ht]⟩
  · obtain ⟨t, ht⟩ := isSome_iff_exists.mp h
    exact ⟨.call a c, t, by simp [step, Move.thread, hf, ha, ht]⟩

/-- The transaction of a thread in one. -/
theorem Inv.transaction (hi : Inv s) (a : ThreadId) (h : (s.thread a).pc.inTransaction = true) :
    ∃ u, (s.thread a).transaction = some u := by
  obtain ⟨u, hu, -⟩ := hi.joined a h
  exact ⟨u, hu⟩

theorem startTransaction_or_waits (hs : LockInv s) {p : StartAt} (hpc : (s.thread a).pc = .start p) :
    (startTransaction s a p).isSome = true ∨ Waits s a := by
  cases p with
  | lock =>
    cases hm : lock a s.transactionsMutex with
    | none => exact .inr (.list (.inl hpc) hm)
    | some m => exact .inl (by simp [startTransaction, lockTransactions, hm])
  | add =>
    obtain ⟨u, hu⟩ := hs.starting a _ hpc
    exact .inl (by simp [startTransaction, hu])
  | unlock => exact .inl rfl

theorem pauseForGC_or_waits (hi : Inv s) (hs : LockInv s) {r : PauseReturn} {p : PauseAt}
    (hpc : (s.thread a).pc = .pause r p) : (pauseForGC true s a r p).isSome = true ∨ Waits s a := by
  obtain ⟨u, hu⟩ := hi.transaction a (by simp [hpc, Pc.inTransaction])
  cases p with
  | needGc => exact .inl rfl
  | resetDoneGC => exact .inl (by simp [pauseForGC, hu])
  | unlockGC => exact .inl (by simp [pauseForGC, hu])
  | wait =>
    have hsem := hs.semaphore a u hu
    simp only [hpc, Pc.hasSemaphore, isSome_iff_exists] at hsem
    obtain ⟨k, hk⟩ := hsem
    cases k with
    | zero => exact .inr (.semaphore r u hpc hu hk)
    | succ k => exact .inl (by simp [pauseForGC, hu, hk])
  | clear => exact .inl (by simp [pauseForGC, hu])
  | lockGC =>
    cases hm : lock a (s.trans u).gcMutex with
    | none => exact .inr (.gc u (.inl ⟨r, hpc⟩) hu hm)
    | some m => exact .inl (by simp [pauseForGC, hu, lockGC, hm])

theorem enterCollectionScope_or_waits {c : Caller} {p : EnterAt} (hpc : (s.thread a).pc = .enter c p) :
    (enterCollectionScope s a c p).isSome = true ∨ Waits s a := by
  cases p with
  | compareAndSwap => exact .inl (by cases hg : s.needGc <;> simp [enterCollectionScope, hg])
  | lock =>
    cases hm : lock a s.transactionsMutex with
    | none => exact .inr (.list (.inr (.inl ⟨c, hpc⟩)) hm)
    | some m => exact .inl (by simp [enterCollectionScope, lockTransactions, hm])
  | loop i =>
    simp only [enterCollectionScope]
    split
    · exact .inl rfl
    · rename_i u hu
      split
      · exact .inl rfl
      · rename_i hown
        split
        · exact .inl rfl
        · cases hm : lock a (s.trans u).gcMutex with
          | none => exact .inr (.collector c i u hpc hu hown hm)
          | some m => exact .inl (by simp [lockGC, hm])

/-- `LeaveCollectionScope` only unlocks and signals, so it is never blocked. -/
theorem leaveCollectionScope_moves (s : State) (a : ThreadId) (c : Caller) (e : Bool) (p : LeaveAt) :
    (leaveCollectionScope true s a c e p).isSome = true := by
  cases p with
  | compareAndSwap => rfl
  | loop i =>
    simp only [leaveCollectionScope]
    grind
  | signalDoneGC i u =>
    simp only [leaveCollectionScope]
    split <;> rfl
  | unlock => rfl

theorem commitTransaction_or_waits (hi : Inv s) {p : CommitAt} (hpc : (s.thread a).pc = .commit p) :
    (commitTransaction true s a p).isSome = true ∨ Waits s a := by
  cases p with
  | unlockGC =>
    obtain ⟨u, hu⟩ := hi.transaction a (by simp [hpc, Pc.inTransaction])
    exact .inl (by simp [commitTransaction, hu])
  | commitLock =>
    cases hm : lock a s.commitMutex with
    | none => exact .inr (.commit hpc hm)
    | some m => exact .inl (by simp [commitTransaction, hm])
  | transactionsLock =>
    cases hm : lock a s.transactionsMutex with
    | none => exact .inr (.list (.inr (.inr hpc)) hm)
    | some m => exact .inl (by simp [commitTransaction, lockTransactions, hm])
  | lockGC =>
    obtain ⟨u, hu⟩ := hi.transaction a (by simp [hpc, Pc.inTransaction])
    cases hm : lock a (s.trans u).gcMutex with
    | none => exact .inr (.gc u (.inr hpc) hu hm)
    | some m => exact .inl (by simp [commitTransaction, hu, lockGC, hm])
  | conflicts =>
    left
    simp only [commitTransaction]
    split <;> rfl
  | remove =>
    obtain ⟨u, hu⟩ := hi.transaction a (by simp [hpc, Pc.inTransaction])
    exact .inl (by simp [commitTransaction, hu])
  | transactionsUnlock => exact .inl rfl
  | commitUnlock => exact .inl rfl

theorem moves_or_waits (hi : Inv s) (hs : LockInv s) (a : ThreadId) : CanMove s a ∨ Waits s a := by
  -- A call of the model that is in progress moves by `advance`.
  have call_moves : ∀ {o : Option State}, advance true s a = o → o.isSome = true ∨ Waits s a →
      CanMove s a ∨ Waits s a := by
    intro o ho h
    rcases h with h | h
    · exact .inl (.inl (ho ▸ h))
    · exact .inr h
  cases hpc : (s.thread a).pc with
  | unborn =>
    cases hsp : s.spawned with
    | true => exact .inl (.inl (by simp [advance, hpc, hsp]))
    | false => exact .inr (.unborn hpc hsp)
  | idle => exact .inl (.inr ⟨.startTransaction, by simp [call, hpc]⟩)
  | finished => exact .inr (.finished hpc)
  | running => exact .inl (.inr ⟨.allocate, by simp [call, hpc]⟩)
  | heapLock =>
    cases hm : lock a s.heapMutex with
    | none => exact .inr (.heap hpc hm)
    | some m => exact .inl (.inl (by simp [advance, hpc, hm]))
  | inAllocation => exact .inl (.inr ⟨.leaveAllocationScope, by simp [call, hpc]⟩)
  | start p => exact call_moves (by simp [advance, hpc]) (startTransaction_or_waits hs hpc)
  | pause r p => exact call_moves (by simp [advance, hpc]) (pauseForGC_or_waits hi hs hpc)
  | enter c p => exact call_moves (by simp [advance, hpc]) (enterCollectionScope_or_waits hpc)
  | collecting c => exact .inl (.inl (by simp [advance, hpc]))
  | leave c e p =>
    exact call_moves (by simp [advance, hpc]) (.inl (leaveCollectionScope_moves s a c e p))
  | commit p => exact call_moves (by simp [advance, hpc]) (commitTransaction_or_waits hi hpc)

end progress

section blocked

variable {n : Nat} {s : State} (hi : Inv s) (hs : LockInv s) (hborn : ∀ b, (s.thread b).pc ≠ .unborn → b < n)

include hi hs hborn

/-- A thread that a collector waits for is not blocked. -/
theorem live_of_open {c d : ThreadId} {u : TransId} (hc : (s.thread c).pc.requested = true)
    (hlist : (s.thread c).pc.holdsTransactions = true) (hdc : d ≠ c)
    (hd : (s.thread d).transaction = some u) (hw : (s.thread d).pc.window = false)
    (hmem : u ∈ s.transactions) : Live n s := by
  have hhas := hs.hasTransaction d u hd
  have hg := hs.scope.requested c hc
  have hlt : d < n := by
    apply hborn
    intro hpc
    simp [hpc, Pc.hasTransaction, Pc.inTransaction] at hhas
  rcases moves_or_waits hi hs d with hmove | hwait
  · exact hmove.live hs.fault hlt
  exfalso
  cases hwait with
  | finished hpc => simp [hpc, Pc.hasTransaction, Pc.inTransaction] at hhas
  | unborn hpc => simp [hpc, Pc.hasTransaction, Pc.inTransaction] at hhas
  | heap hpc => exact hs.heapLock hg d hpc
  | commit hpc => simp [hpc, Pc.window] at hw
  | list hpc =>
    rcases hpc with hpc | ⟨k, hpc⟩ | hpc
    · exact hi.pending d u hd (.inl hpc) hmem
    · exact hdc (hs.scope.unique d c (by simp [hpc, Pc.requested]) hc)
    · simp [hpc, Pc.window] at hw
  | gc v hpc =>
    grind [Pc.window]
  | collector k i v hpc => exact hdc (hi.holder_unique (by simp [hpc, Pc.holdsTransactions]) hlist)
  | semaphore r v hpc => simp [hpc, Pc.window] at hw

/-- The holder of `transactions_mutex_` can move, or waits for a thread that can. -/
theorem live_of_holder {c : ThreadId} (hc : (s.thread c).pc.holdsTransactions = true) : Live n s := by
  have hlt : c < n := by
    apply hborn
    intro hpc
    simp [hpc, Pc.holdsTransactions] at hc
  rcases moves_or_waits hi hs c with hmove | hwait
  · exact hmove.live hs.fault hlt
  cases hwait with
  | finished hpc => simp [hpc, Pc.holdsTransactions] at hc
  | unborn hpc => simp [hpc, Pc.holdsTransactions] at hc
  | heap hpc => simp [hpc, Pc.holdsTransactions] at hc
  | commit hpc => simp [hpc, Pc.holdsTransactions] at hc
  | list hpc =>
    grind [Pc.holdsTransactions]
  | gc u hpc hu hm =>
    -- Only a collector could hold the mutex, and there is no second list holder.
    obtain ⟨d, hdc, hd⟩ := (hs.gc u c hu).blocked hm
    rcases hd with ⟨hd, -⟩ | ⟨hd, -⟩
    · exact (hdc (hi.distinct d c u hd hu)).elim
    · exact (hdc (hi.holder_unique (holdsTransactions_of_held hd) hc)).elim
  | collector k i u hpc hu hown hm =>
    have hmem := List.mem_of_getElem? hu
    obtain ⟨b, hb⟩ := hs.owner u hmem
    obtain ⟨d, hdc, hd⟩ := (hs.gc u b hb).blocked hm
    rcases hd with ⟨hd, hw⟩ | ⟨hd, -⟩
    · exact live_of_open hi hs hborn (by simp [hpc, Pc.requested]) hc hdc hd hw hmem
    · exact (hdc (hi.holder_unique (holdsTransactions_of_held hd) hc)).elim
  | semaphore r u hpc => simp [hpc, Pc.holdsTransactions] at hc

theorem live_of_list_blocked {a : ThreadId} (hm : lock a s.transactionsMutex = none) : Live n s := by
  obtain ⟨b, -, hb⟩ := hs.list.blocked hm
  exact live_of_holder hi hs hborn hb

/-- The holder of `heap_mutex_` can move, or waits for a thread that can. -/
theorem live_of_heap {b : ThreadId} (hb : (s.thread b).pc.holdsHeap = true) : Live n s := by
  have hlt : b < n := by
    apply hborn
    intro hpc
    simp [hpc, Pc.holdsHeap] at hb
  rcases moves_or_waits hi hs b with hmove | hwait
  · exact hmove.live hs.fault hlt
  cases hwait with
  | list hpc hm => exact live_of_list_blocked hi hs hborn hm
  | collector k i u hpc => exact live_of_holder hi hs hborn (c := b) (by simp [hpc, Pc.holdsTransactions])
  | gc u hpc => grind [Pc.holdsHeap]
  | finished hpc => simp [hpc, Pc.holdsHeap] at hb
  | unborn hpc => simp [hpc, Pc.holdsHeap] at hb
  | heap hpc => simp [hpc, Pc.holdsHeap] at hb
  | commit hpc => simp [hpc, Pc.holdsHeap] at hb
  | semaphore r u hpc => simp [hpc, Pc.holdsHeap] at hb

/-- The holder of `commit_mutex_` can move, or waits for a thread that can. -/
theorem live_of_commit {b : ThreadId} (hb : (s.thread b).pc.holdsCommit = true) : Live n s := by
  have hlt : b < n := by
    apply hborn
    intro hpc
    simp [hpc, Pc.holdsCommit] at hb
  rcases moves_or_waits hi hs b with hmove | hwait
  · exact hmove.live hs.fault hlt
  cases hwait with
  | list hpc hm => exact live_of_list_blocked hi hs hborn hm
  | gc u hpc =>
    rcases hpc with ⟨r, hpc⟩ | hpc
    · simp [hpc, Pc.holdsCommit] at hb
    · exact live_of_holder hi hs hborn (c := b) (by simp [hpc, Pc.holdsTransactions])
  | collector k i u hpc => simp [hpc, Pc.holdsCommit] at hb
  | finished hpc => simp [hpc, Pc.holdsCommit] at hb
  | unborn hpc => simp [hpc, Pc.holdsCommit] at hb
  | heap hpc => simp [hpc, Pc.holdsCommit] at hb
  | commit hpc => simp [hpc, Pc.holdsCommit] at hb
  | semaphore r u hpc => simp [hpc, Pc.holdsCommit] at hb

/-- A paused thread whose semaphore is not signalled has a collector that will. -/
theorem live_of_signaller {c : ThreadId} {u : TransId}
    (hc : u ∈ (s.thread c).pc.toSignal s.transactions) : Live n s := by
  rcases Pc.toSignal_cases hc (hs.regular c) with ⟨k, hpc⟩ | hlist
  · exact live_of_heap hi hs hborn (b := c) (by simp [hpc, Pc.holdsHeap])
  · exact live_of_holder hi hs hborn hlist

/-- Every wait of a born thread that has not finished leads to one that can move. -/
theorem live_of_waits {a : ThreadId} (hwait : Waits s a) (hfin : (s.thread a).pc ≠ .finished)
    (hun : (s.thread a).pc ≠ .unborn) : Live n s := by
  cases hwait with
  | finished hpc => exact (hfin hpc).elim
  | unborn hpc => exact (hun hpc).elim
  | heap hpc hm =>
    obtain ⟨b, -, hb⟩ := hs.heap.blocked hm
    exact live_of_heap hi hs hborn hb
  | commit hpc hm =>
    obtain ⟨b, -, hb⟩ := hs.commit.blocked hm
    exact live_of_commit hi hs hborn hb
  | list hpc hm => exact live_of_list_blocked hi hs hborn hm
  | gc u hpc hu hm =>
    obtain ⟨d, hda, hd⟩ := (hs.gc u a hu).blocked hm
    rcases hd with ⟨hd, -⟩ | ⟨hd, -⟩
    · exact (hda (hi.distinct d a u hd hu)).elim
    · exact live_of_holder hi hs hborn (holdsTransactions_of_held hd)
  | collector k i u hpc => exact live_of_holder hi hs hborn (c := a) (by simp [hpc, Pc.holdsTransactions])
  | semaphore r u hpc hu hd =>
    obtain ⟨c, hc⟩ := hs.waiting a u r hpc hu hd
    exact live_of_signaller hi hs hborn hc

end blocked

/-- The runs of `CALL_AND_RETRY` in which no thread is caught between the test of
`need_gc_` and `heap_mutex_` by a collection. -/
def Coordinated (n : Nat) (s : State) (m : Move) : Prop := NestedCollection s m ∧ NoRace n s m

instance (s : State) (m : Move) : Decidable (NestedCollection s m) :=
  match m with
  | .call a .collectGarbage => inferInstanceAs (Decidable ((s.thread a).pc = .inAllocation))
  | .call _ .startTransaction | .call _ .exit | .call _ .allocate | .call _ .leaveAllocationScope
  | .call _ .commitTransaction | .call _ .clearExceptions | .advance _ => isTrue trivial

instance (n : Nat) (s : State) (m : Move) : Decidable (NoRace n s m) :=
  match m with
  | .call _ _ => isTrue trivial
  | .advance _ => inferInstanceAs (Decidable (_ ∧ _))

instance (n : Nat) (s : State) (m : Move) : Decidable (Coordinated n s m) :=
  inferInstanceAs (Decidable (_ ∧ _))

variable {s t : State} {n : Nat}

/-- Calls are made outside the handshake. -/
theorem call_pc {debug : Bool} {a : ThreadId} {c : Call} (h : call debug s a c = some t) :
    (s.thread a).pc.asks = false ∧ (s.thread a).pc ≠ .pause .enterAllocationScope .lockGC := by
  cases c <;> simp only [call, ite_none_right_eq_some] at h
  case collectGarbage =>
    by_cases hpc : (s.thread a).pc = .inAllocation
    · simp [hpc, Pc.asks]
    simp_all [Pc.asks]
  case exit => simp [h.1.1, Pc.asks]
  all_goals simp [h.1, Pc.asks]

/-- The states of coordinated runs. Threads that do not exist stay unborn. -/
structure CoordinatedInv (n : Nat) (s : State) : Prop where
  inv : Inv s
  list : ListInv s
  lock : LockInv s
  beyond : ∀ b, n ≤ b → s.thread b = initial.thread b

theorem CoordinatedInv.fresh (hs : CoordinatedInv n s) (m : Move) : FreshRequest s m := by
  cases m with
  | call a c => trivial
  | advance a =>
    intro c hpc
    exact hs.lock.not_skip hpc

theorem CoordinatedInv.not_heapLock (hs : CoordinatedInv n s) {b : ThreadId}
    (hb : n ≤ b) : (s.thread b).pc ≠ .heapLock := by
  rw [hs.beyond b hb]
  by_cases h0 : b = 0 <;> simp [initial, h0]

/-- A direct collection is a call from running code. -/
theorem Effect.direct {a : ThreadId} (h : Effect true a s t)
    (ht : (t.thread a).pc = .enter .direct .compareAndSwap) : (s.thread a).pc = .running := by
  cases h <;> simp at ht
  case collect c hpc =>
    subst ht
    exact hpc
  case pauseReturn r hpc hg => cases r <;> simp [PauseReturn.resume] at ht
  case pauseLockGC r v m hpc hv hm => cases r <;> simp [PauseReturn.resume] at ht
  case leaveUnlock c e hpc => cases c <;> simp [Caller.resume] at ht
  -- A fault leaves the thread where it was, which is not at the start of a collection.
  all_goals simp_all

theorem NestedCollection.not_direct {m : Move} (hm : NestedCollection s m)
    (h : step true n s m = some t) : (t.thread m.thread).pc ≠ .enter .direct .compareAndSwap := by
  intro ht
  obtain ⟨hf, hlt, he⟩ := step_effect h
  have hrun := he.direct ht
  cases m with
  | advance a => simp [step, Move.thread, advance] at h hrun; simp [hrun] at h
  | call a c =>
    simp only [Move.thread] at hrun hlt ht
    cases c <;> simp [step, call, Move.thread, hrun, hf, hlt] at h
    case collectGarbage => simp [NestedCollection, hrun] at hm
    all_goals
      subst h
      simp at ht

theorem CoordinatedInv.tame {m : Move} (hs : CoordinatedInv n s)
    (hm : Coordinated n s m) (h : step true n s m = some t) : Tame m.thread s t := by
  refine ⟨hm.1.not_direct h, ?_, ?_⟩
  · intro hasks b hb
    cases m with
    | call a c =>
      simp only [step, ite_none_right_eq_some] at h
      simp [Move.thread, (call_pc h.2).1] at hasks
    | advance a =>
      by_cases hlt : b < n
      · exact hm.2.1 hasks b hlt hb
      · exact hs.not_heapLock (Nat.le_of_not_lt hlt)
  · intro hpc
    cases m with
    | call a c =>
      simp only [step, ite_none_right_eq_some] at h
      exact ((call_pc h.2).2 hpc).elim
    | advance a => exact hm.2.2 hpc

theorem lockInv_initial : LockInv initial := by
  have hpc : ∀ b, (initial.thread b).pc = .idle ∨ (initial.thread b).pc = .unborn := by
    intro b
    by_cases hb : b = 0 <;> simp [initial, hb]
  have htrans : ∀ b, (initial.thread b).transaction = none := by
    intro b
    by_cases hb : b = 0 <;> simp [initial, hb]
  have untracked : ∀ f : Pc → Bool, f .idle = false → f .unborn = false →
      Tracks (none : Mutex ThreadId) fun b => f (initial.thread b).pc = true := by
    intro f hidle hunborn
    constructor
    · grind
    · intro b k hb
      cases hb
  constructor
  case scope => exact scopeInv_initial
  case fault => rfl
  case regular =>
    intro b
    rcases hpc b with h | h <;> simp [h, Pc.regular]
  case starting =>
    grind
  case owner => simp [initial]
  case heap => exact untracked _ rfl rfl
  case commit => exact untracked _ rfl rfl
  case list => exact untracked _ rfl rfl
  case requested => simp [initial]
  case heapLock => simp [initial]
  case pausing =>
    grind [Pc.pausing]
  case signalling =>
    grind
  all_goals simp [htrans]

theorem coordinatedInv_step {m : Move} (hs : CoordinatedInv n s)
    (hm : Coordinated n s m) (h : step true n s m = some t) : CoordinatedInv n t := by
  obtain ⟨-, hlt, he⟩ := step_effect h
  have hscope := scopeInv_step hs.lock.scope (hs.fresh m) h
  refine ⟨inv_step hs.inv he, listInv_step hs.inv hs.list h,
    lockInv_step hs.inv hs.list hs.lock (hs.tame hm h) hscope he, ?_⟩
  intro b hb
  rw [he.frame.thread b (Nat.ne_of_gt (Nat.lt_of_lt_of_le hlt hb))]
  exact hs.beyond b hb

theorem coordinatedInv_reach (h : Reach (step true n) (Coordinated n) initial s) : CoordinatedInv n s :=
  h.invariant ⟨inv_initial, listInv_initial, lockInv_initial, fun _ _ => rfl⟩
    fun _ _ _ hs hm hstep => coordinatedInv_step hs hm hstep

/-- Before the workers start the main thread is in the middle of its script. -/
theorem ListInv.main_born (hs : ListInv s) (hsp : s.spawned = false) :
    (s.thread 0).pc ≠ .unborn ∧ (s.thread 0).pc ≠ .finished := by
  obtain ⟨-, -, hbefore⟩ := hs.boot hsp
  rcases hbefore with ⟨hpc, -⟩ | ⟨-, -, hpc | hpc | hpc⟩ | ⟨hpc | hpc, -⟩
  · simp [hpc]
  · constructor <;> intro h <;> simp [h, Pc.inTransaction] at hpc
  all_goals simp [hpc]

/-- In every coordinated run of a build that evaluates its assertions, some thread
can take a step as long as some thread has not finished. -/
theorem deadlock_free (n : Nat) {s : State} (h : Reach (step true n) (Coordinated n) initial s)
    (hrest : ∃ a, a < n ∧ (s.thread a).pc ≠ .finished) : ∃ m t, step true n s m = some t := by
  have hs := coordinatedInv_reach h
  obtain ⟨a, ha, hfin⟩ := hrest
  have hborn : ∀ b, (s.thread b).pc ≠ .unborn → b < n := by
    intro b hb
    by_contra hge
    rw [hs.beyond b (Nat.le_of_not_lt hge)] at hb
    have h0 : b ≠ 0 := by
      grind
    simp [initial, h0] at hb
  have born_live : ∀ b, (s.thread b).pc ≠ .unborn → (s.thread b).pc ≠ .finished → Live n s := by
    intro b hb hbfin
    rcases moves_or_waits hs.inv hs.lock b with hmove | hwait
    · exact hmove.live hs.lock.fault (hborn b hb)
    · exact live_of_waits hs.inv hs.lock hborn hwait hbfin hb
  by_cases hun : (s.thread a).pc = .unborn
  · cases hsp : s.spawned with
    | true => exact CanMove.live (.inl (by simp [advance, hun, hsp])) hs.lock.fault ha
    | false => exact born_live 0 (hs.list.main_born hsp).1 (hs.list.main_born hsp).2
  · exact born_live a hun hfin

/-- Thread 0 runs out of memory and asks for a collection; thread 1 sees the flag
and pauses. -/
def pausedAllocation : List Move :=
  twoRunning ++ ([.call 0 .allocate, .advance 0, .advance 0, .call 0 .collectGarbage, .advance 0,
    .call 1 .allocate, .advance 1, .advance 1, .advance 1] : List Move)

theorem deadlock_free_paused : ∃ s, Reach (step true 2) (Coordinated 2) initial s ∧
    (s.thread 1).pc = .pause .enterAllocationScope .wait ∧ ∃ m t, step true 2 s m = some t := by
  obtain ⟨s, hs, hq⟩ := exists_reach_of_run (step true 2) (Coordinated 2) initial pausedAllocation
    (fun s => (s.thread 1).pc == .pause .enterAllocationScope .wait) (by decide +kernel)
  have hpc : (s.thread 1).pc = .pause .enterAllocationScope .wait := by simpa using hq
  exact ⟨s, hs, hpc, deadlock_free 2 hs ⟨1, by decide, by simp [hpc]⟩⟩

/-- Thread 1 passes the test of `need_gc_`; thread 0, which got `heap_mutex_` first,
asks for a collection. -/
def caughtAllocation : List Move :=
  twoRunning ++ ([.call 1 .allocate, .advance 1, .call 0 .allocate, .advance 0, .advance 0,
    .call 0 .collectGarbage, .advance 0, .advance 0, .advance 0] : List Move)

/-- No thread below `n` can make a call or go on. -/
def stuck (n : Nat) (s : State) : Bool :=
  (List.range n).all fun a => (advance true s a).isNone &&
    [Call.startTransaction, .exit, .allocate, .collectGarbage, .leaveAllocationScope,
      .commitTransaction, .clearExceptions].all fun c => (call true s a c).isNone

theorem stuck_step (h : stuck n s = true) (m : Move) : step true n s m = none := by
  simp only [stuck, List.all_eq_true, List.mem_range, Bool.and_eq_true, isNone_iff_eq_none] at h
  unfold step
  split
  · rename_i hm
    cases m with
    | call a c =>
      refine (h a hm.2).2 c ?_
      cases c <;> simp
    | advance a => exact (h a hm.2).1
  · rfl

theorem deadlock_reachable : ¬ ∀ s, Reach (step true 2) NestedCollection initial s →
    (∃ a, a < 2 ∧ (s.thread a).pc ≠ .finished) → ∃ m t, step true 2 s m = some t := by
  intro hall
  obtain ⟨s, hs, hq⟩ := exists_reach_of_run (step true 2) NestedCollection initial caughtAllocation
    (fun s => stuck 2 s && (s.thread 0).pc == .enter .allocation (.loop 1)) (by decide +kernel)
  simp only [Bool.and_eq_true, beq_iff_eq] at hq
  obtain ⟨m, t, ht⟩ := hall s hs ⟨0, by decide, by simp [hq.2]⟩
  rw [stuck_step hq.1 m] at ht
  cases ht

end W16.Handshake
