import W16.Handshake

/-!
# What one step of a thread can do

`Effect debug a s t` lists every transition of thread `a`: the program counter
it needs, the guard it passes and the state it leaves. The invariants of the
handshake are proved by cases on it, never by unfolding the step function.
-/
namespace W16.Handshake

open RecursiveMutex Option

inductive Effect (debug : Bool) (a : ThreadId) (s : State) : State → Prop
  | born (hpc : (s.thread a).pc = .unborn) (hs : s.spawned = true) : Effect debug a s (s.goto a .idle)
  | exit (hpc : (s.thread a).pc = .idle) (hs : (s.thread a).script = false) :
      Effect debug a s (s.goto a .finished)
  | begin (hpc : (s.thread a).pc = .idle) : Effect debug a s (newTransaction s a)
  | startLock (m : Mutex ThreadId) (hpc : (s.thread a).pc = .start .lock)
      (hm : lock a s.transactionsMutex = some m) :
      Effect debug a s ({ s with transactionsMutex := m }.goto a (.start .add))
  | startAdd (t : TransId) (hpc : (s.thread a).pc = .start .add) (ht : (s.thread a).transaction = some t) :
      Effect debug a s ({ s.setTrans t { s.trans t with started := true } with
        transactions := s.transactions ++ [t] }.goto a (.start .unlock))
  | startUnlock (hpc : (s.thread a).pc = .start .unlock) :
      Effect debug a s ((unlockTransactions s a).goto a .running)
  | allocate (hpc : (s.thread a).pc = .running) :
      Effect debug a s (s.goto a (.pause .enterAllocationScope .needGc))
  | heapLock (m : Mutex ThreadId) (hpc : (s.thread a).pc = .heapLock) (hm : lock a s.heapMutex = some m) :
      Effect debug a s ({ s with heapMutex := m }.goto a .inAllocation)
  | leaveAllocationScope (hpc : (s.thread a).pc = .inAllocation) :
      Effect debug a s ({ s with heapMutex := unlock a s.heapMutex }.goto a .running)
  | pauseReturn (r : PauseReturn) (hpc : (s.thread a).pc = .pause r .needGc) (hg : s.needGc = false) :
      Effect debug a s (s.goto a r.resume)
  | pauseEnter (r : PauseReturn) (hpc : (s.thread a).pc = .pause r .needGc) (hg : s.needGc = true) :
      Effect debug a s (s.goto a (.pause r .resetDoneGC))
  | resetAssert (r : PauseReturn) (t : TransId) (hdebug : debug = true)
      (hpc : (s.thread a).pc = .pause r .resetDoneGC) (ht : (s.thread a).transaction = some t)
      (hd : (s.trans t).doneGc ≠ none) :
      Effect debug a s (s.fail (.assertion .doneGcNull))
  | resetDoneGC (r : PauseReturn) (t : TransId) (hpc : (s.thread a).pc = .pause r .resetDoneGC)
      (ht : (s.thread a).transaction = some t) :
      Effect debug a s ((s.setTrans t { s.trans t with doneGc := some 0 }).goto a (.pause r .unlockGC))
  | pauseUnlockGC (r : PauseReturn) (t : TransId) (hpc : (s.thread a).pc = .pause r .unlockGC)
      (ht : (s.thread a).transaction = some t) :
      Effect debug a s ((unlockGC s a t).goto a (.pause r .wait))
  | wait (r : PauseReturn) (t : TransId) (k : Nat) (hpc : (s.thread a).pc = .pause r .wait)
      (ht : (s.thread a).transaction = some t) (hk : (s.trans t).doneGc = some (k + 1)) :
      Effect debug a s ((s.setTrans t { s.trans t with doneGc := some k }).goto a (.pause r .clear))
  | clear (r : PauseReturn) (t : TransId) (hpc : (s.thread a).pc = .pause r .clear)
      (ht : (s.thread a).transaction = some t) :
      Effect debug a s ((s.setTrans t { s.trans t with doneGc := none }).goto a (.pause r .lockGC))
  | pauseLockGC (r : PauseReturn) (t : TransId) (m : Mutex ThreadId)
      (hpc : (s.thread a).pc = .pause r .lockGC) (ht : (s.thread a).transaction = some t)
      (hm : lock a (s.trans t).gcMutex = some m) :
      Effect debug a s ((s.setTrans t { s.trans t with gcMutex := m }).goto a r.resume)
  | collect (c : Caller) (hpc : (s.thread a).pc = c.resume) :
      Effect debug a s (s.goto a (.enter c .compareAndSwap))
  | skip (c : Caller) (hpc : (s.thread a).pc = .enter c .compareAndSwap) (hg : s.needGc = true) :
      Effect debug a s (s.goto a (.pause (.enterCollectionScope c) .needGc))
  | request (c : Caller) (hpc : (s.thread a).pc = .enter c .compareAndSwap) (hg : s.needGc = false) :
      Effect debug a s ({ s with needGc := true }.goto a (.enter c .lock))
  | enterLock (c : Caller) (m : Mutex ThreadId) (hpc : (s.thread a).pc = .enter c .lock)
      (hm : lock a s.transactionsMutex = some m) :
      Effect debug a s ({ s with transactionsMutex := m }.goto a (.enter c (.loop 0)))
  | enterDone (c : Caller) (i : Nat) (hpc : (s.thread a).pc = .enter c (.loop i))
      (hi : s.transactions[i]? = none) :
      Effect debug a s (s.setThread a
        { s.thread a with pc := .collecting c, entered := (s.thread a).entered + 1 })
  | enterSelf (c : Caller) (i : Nat) (t : TransId) (hpc : (s.thread a).pc = .enter c (.loop i))
      (hi : s.transactions[i]? = some t) (ht : some t = (s.thread a).transaction) :
      Effect debug a s (s.goto a (.enter c (.loop (i + 1))))
  | enterFault (c : Caller) (i : Nat) (t : TransId) (hpc : (s.thread a).pc = .enter c (.loop i))
      (hi : s.transactions[i]? = some t) (hd : (s.trans t).deleted = true) :
      Effect debug a s (s.fail (.useAfterFree .enterCollectionScope))
  | enterLockGC (c : Caller) (i : Nat) (t : TransId) (m : Mutex ThreadId)
      (hpc : (s.thread a).pc = .enter c (.loop i)) (hi : s.transactions[i]? = some t)
      (ht : some t ≠ (s.thread a).transaction) (hm : lock a (s.trans t).gcMutex = some m) :
      Effect debug a s ((s.setTrans t { s.trans t with gcMutex := m }).goto a (.enter c (.loop (i + 1))))
  | iterateFault (c : Caller) (t : TransId) (hpc : (s.thread a).pc = .collecting c)
      (hi : t ∈ s.transactions) (hd : (s.trans t).deleted = true) :
      Effect debug a s (s.fail (.useAfterFree .iterate))
  | collected (c : Caller) (hpc : (s.thread a).pc = .collecting c) :
      Effect debug a s (s.goto a (.leave c true .compareAndSwap))
  | leaveAssert (c : Caller) (e : Bool) (hdebug : debug = true)
      (hpc : (s.thread a).pc = .leave c e .compareAndSwap) (hg : s.needGc = false) :
      Effect debug a s (s.fail (.assertion .needGcPrev))
  | leaveCompareAndSwap (c : Caller) (e : Bool) (hpc : (s.thread a).pc = .leave c e .compareAndSwap)
      (hg : debug = true → s.needGc = true) :
      Effect debug a s ({ s with needGc := false }.goto a (.leave c e (.loop 0)))
  | leaveDone (c : Caller) (e : Bool) (i : Nat) (hpc : (s.thread a).pc = .leave c e (.loop i))
      (hi : s.transactions[i]? = none) : Effect debug a s (s.goto a (.leave c e .unlock))
  | leaveSelf (c : Caller) (e : Bool) (i : Nat) (t : TransId)
      (hpc : (s.thread a).pc = .leave c e (.loop i)) (hi : s.transactions[i]? = some t)
      (ht : some t = (s.thread a).transaction) :
      Effect debug a s (s.goto a (.leave c e (.loop (i + 1))))
  | leaveFault (c : Caller) (e : Bool) (i : Nat) (t : TransId)
      (hpc : ((s.thread a).pc = .leave c e (.loop i) ∧ s.transactions[i]? = some t) ∨
        (s.thread a).pc = .leave c e (.signalDoneGC i t))
      (hd : (s.trans t).deleted = true) :
      Effect debug a s (s.fail (.useAfterFree .leaveCollectionScope))
  | leaveUnlockGC (c : Caller) (e : Bool) (i : Nat) (t : TransId)
      (hpc : (s.thread a).pc = .leave c e (.loop i)) (hi : s.transactions[i]? = some t)
      (ht : some t ≠ (s.thread a).transaction) :
      Effect debug a s ((unlockGC s a t).goto a (.leave c e (.signalDoneGC i t)))
  | leaveSignal (c : Caller) (e : Bool) (i : Nat) (t : TransId)
      (hpc : (s.thread a).pc = .leave c e (.signalDoneGC i t)) :
      Effect debug a s ((signalDoneGC s t).goto a (.leave c e (.loop (i + 1))))
  | leaveUnlock (c : Caller) (e : Bool) (hpc : (s.thread a).pc = .leave c e .unlock) :
      Effect debug a s ((unlockTransactions s a).setThread a
        { s.thread a with pc := c.resume, left := (s.thread a).left + 1 })
  | commit (hpc : (s.thread a).pc = .running) (hs : debug = true ∨ (s.thread a).script = false) :
      Effect debug a s (s.goto a (.commit .unlockGC))
  | scriptDone (hpc : (s.thread a).pc = .running) (hd : debug = false) (hs : (s.thread a).script = true) :
      Effect debug a s ({ s with spawned := true }.setThread a { s.thread a with pc := .idle, script := false })
  | commitUnlockGC (t : TransId) (hpc : (s.thread a).pc = .commit .unlockGC)
      (ht : (s.thread a).transaction = some t) :
      Effect debug a s ((unlockGC s a t).goto a (.commit .commitLock))
  | commitLock (m : Mutex ThreadId) (hpc : (s.thread a).pc = .commit .commitLock)
      (hm : lock a s.commitMutex = some m) :
      Effect debug a s ({ s with commitMutex := m }.goto a (.commit .transactionsLock))
  | commitTransactionsLock (m : Mutex ThreadId) (hpc : (s.thread a).pc = .commit .transactionsLock)
      (hm : lock a s.transactionsMutex = some m) :
      Effect debug a s ({ s with transactionsMutex := m }.goto a (.commit .lockGC))
  | commitLockGC (t : TransId) (m : Mutex ThreadId) (hpc : (s.thread a).pc = .commit .lockGC)
      (ht : (s.thread a).transaction = some t) (hm : lock a (s.trans t).gcMutex = some m) :
      Effect debug a s ((s.setTrans t { s.trans t with gcMutex := m }).goto a (.commit .conflicts))
  | conflictsFault (t : TransId) (hpc : (s.thread a).pc = .commit .conflicts)
      (hi : t ∈ s.transactions) (hd : (s.trans t).deleted = true) :
      Effect debug a s (s.fail (.useAfterFree .commitTransaction))
  | conflicts (hpc : (s.thread a).pc = .commit .conflicts) : Effect debug a s (s.goto a (.commit .remove))
  | removeAssert (t : TransId) (hdebug : debug = true) (hpc : (s.thread a).pc = .commit .remove)
      (ht : (s.thread a).transaction = some t) (hm : t ∉ s.transactions) :
      Effect debug a s (s.fail (.assertion .removeElement))
  | remove (t : TransId) (hpc : (s.thread a).pc = .commit .remove) (ht : (s.thread a).transaction = some t) :
      Effect debug a s ({ s.setTrans t { s.trans t with deleted := true } with
        transactions := if debug then s.transactions.erase t else s.transactions }.setThread a
        { s.thread a with pc := .commit .transactionsUnlock, transaction := none })
  | commitTransactionsUnlock (hpc : (s.thread a).pc = .commit .transactionsUnlock) :
      Effect debug a s ((unlockTransactions s a).goto a (.commit .commitUnlock))
  | commitUnlock (hpc : (s.thread a).pc = .commit .commitUnlock) :
      Effect debug a s ({ s with commitMutex := unlock a s.commitMutex
                                 spawned := s.spawned || (s.thread a).script }.setThread a
        { s.thread a with pc := .idle, script := false })

variable {a : ThreadId} {debug : Bool} {s t : State}

theorem call_effect {c : Call} (h : call debug s a c = some t) : Effect debug a s t := by
  cases c with
  | startTransaction =>
    simp only [call, ite_none_right_eq_some, Option.some.injEq] at h
    obtain ⟨hpc, rfl⟩ := h
    exact .begin hpc
  | exit =>
    simp only [call, ite_none_right_eq_some, Option.some.injEq] at h
    obtain ⟨⟨hpc, hs⟩, rfl⟩ := h
    exact .exit hpc hs
  | allocate =>
    simp only [call, ite_none_right_eq_some, Option.some.injEq] at h
    obtain ⟨hpc, rfl⟩ := h
    exact .allocate hpc
  | collectGarbage =>
    simp only [call] at h
    split at h
    · rename_i hpc
      cases h
      exact .collect .allocation hpc
    · simp only [ite_none_right_eq_some, Option.some.injEq] at h
      obtain ⟨hpc, rfl⟩ := h
      exact .collect .direct hpc
  | leaveAllocationScope =>
    simp only [call, ite_none_right_eq_some, Option.some.injEq] at h
    obtain ⟨hpc, rfl⟩ := h
    exact .leaveAllocationScope hpc
  | commitTransaction =>
    simp only [call, ite_none_right_eq_some] at h
    obtain ⟨hpc, h⟩ := h
    split at h
    · rename_i hs
      simp only [Bool.and_eq_true, Bool.not_eq_true'] at hs
      cases h
      exact .scriptDone hpc hs.2 hs.1
    · cases h
      refine .commit hpc ?_
      cases debug <;> simp_all
  | clearExceptions =>
    simp only [call, ite_none_right_eq_some, Option.some.injEq] at h
    obtain ⟨hpc, rfl⟩ := h
    exact .conflicts hpc

theorem startTransaction_effect {p : StartAt}
    (hpc : (s.thread a).pc = .start p) (h : startTransaction s a p = some t) :
    Effect debug a s t := by
  cases p with
  | lock =>
    simp only [startTransaction, lockTransactions, map_map, map_eq_some_iff] at h
    obtain ⟨m, hm, rfl⟩ := h
    exact .startLock m hpc hm
  | add =>
    simp only [startTransaction, map_eq_some_iff] at h
    obtain ⟨u, hu, rfl⟩ := h
    exact .startAdd u hpc hu
  | unlock =>
    cases h
    exact .startUnlock hpc

theorem pauseForGC_effect {r : PauseReturn} {p : PauseAt}
    (hpc : (s.thread a).pc = .pause r p) (h : pauseForGC debug s a r p = some t) :
    Effect debug a s t := by
  cases p with
  | needGc =>
    simp only [pauseForGC, Option.some.injEq] at h
    subst h
    cases hg : s.needGc with
    | false => exact .pauseReturn r hpc hg
    | true => exact .pauseEnter r hpc hg
  | resetDoneGC =>
    simp only [pauseForGC, map_eq_some_iff] at h
    obtain ⟨u, hu, rfl⟩ := h
    unfold State.assert
    split
    · rename_i hd
      simp only [Bool.and_eq_true, Bool.not_eq_true', isNone_eq_false_iff] at hd
      refine .resetAssert r u hd.1 hpc hu ?_
      intro hn
      simp [hn] at hd
    · exact .resetDoneGC r u hpc hu
  | unlockGC =>
    simp only [pauseForGC, map_eq_some_iff] at h
    obtain ⟨u, hu, rfl⟩ := h
    exact .pauseUnlockGC r u hpc hu
  | wait =>
    simp only [pauseForGC, bind_eq_some_iff] at h
    obtain ⟨u, hu, h⟩ := h
    split at h
    · rename_i k hk
      cases h
      exact .wait r u k hpc hu hk
    · cases h
  | clear =>
    simp only [pauseForGC, map_eq_some_iff] at h
    obtain ⟨u, hu, rfl⟩ := h
    exact .clear r u hpc hu
  | lockGC =>
    simp only [pauseForGC, lockGC, bind_eq_some_iff, map_map, map_eq_some_iff] at h
    obtain ⟨u, hu, m, hm, rfl⟩ := h
    exact .pauseLockGC r u m hpc hu hm

theorem enterCollectionScope_effect {c : Caller}
    {p : EnterAt} (hpc : (s.thread a).pc = .enter c p) (h : enterCollectionScope s a c p = some t) :
    Effect debug a s t := by
  cases p with
  | compareAndSwap =>
    simp only [enterCollectionScope] at h
    split at h
    · rename_i hg
      cases h
      exact .skip c hpc hg
    · rename_i hg
      cases h
      exact .request c hpc (by simpa using hg)
  | lock =>
    simp only [enterCollectionScope, lockTransactions, map_map, map_eq_some_iff] at h
    obtain ⟨m, hm, rfl⟩ := h
    exact .enterLock c m hpc hm
  | loop i =>
    simp only [enterCollectionScope] at h
    split at h
    · rename_i hi
      cases h
      exact .enterDone c i hpc hi
    · rename_i u hi
      split at h
      · rename_i hu
        cases h
        exact .enterSelf c i u hpc hi hu
      · rename_i hu
        split at h
        · rename_i hd
          cases h
          exact .enterFault c i u hpc hi hd
        · simp only [lockGC, map_map, map_eq_some_iff] at h
          obtain ⟨m, hm, rfl⟩ := h
          exact .enterLockGC c i u m hpc hi hu hm

theorem performGarbageCollection_effect {c : Caller} (hpc : (s.thread a).pc = .collecting c) :
    Effect debug a s (performGarbageCollection s a c) := by
  unfold performGarbageCollection
  split
  · rename_i h
    obtain ⟨t, ht, hd⟩ := List.any_eq_true.mp h
    exact .iterateFault c t hpc ht hd
  · exact .collected c hpc

theorem leaveCollectionScope_effect {c : Caller} {e : Bool} {p : LeaveAt} (hpc : (s.thread a).pc = .leave c e p)
    (h : leaveCollectionScope debug s a c e p = some t) : Effect debug a s t := by
  cases p with
  | compareAndSwap =>
    simp only [leaveCollectionScope, Option.some.injEq] at h
    subst h
    unfold State.assert
    split
    · rename_i hg
      simp only [Bool.and_eq_true, Bool.not_eq_true'] at hg
      exact .leaveAssert c e hg.1 hpc hg.2
    · rename_i hg
      refine .leaveCompareAndSwap c e hpc ?_
      intro hd
      simpa [hd] using hg
  | loop i =>
    simp only [leaveCollectionScope] at h
    split at h
    · rename_i hi
      cases h
      exact .leaveDone c e i hpc hi
    · rename_i u hi
      split at h
      · rename_i hu
        cases h
        exact .leaveSelf c e i u hpc hi hu
      · rename_i hu
        split at h
        · rename_i hd
          cases h
          exact .leaveFault c e i u (.inl ⟨hpc, hi⟩) hd
        · cases h
          exact .leaveUnlockGC c e i u hpc hi hu
  | signalDoneGC i u =>
    simp only [leaveCollectionScope] at h
    split at h
    · rename_i hd
      cases h
      exact .leaveFault c e i u (.inr hpc) hd
    · cases h
      exact .leaveSignal c e i u hpc
  | unlock =>
    cases h
    exact .leaveUnlock c e hpc

theorem commitTransaction_effect {p : CommitAt}
    (hpc : (s.thread a).pc = .commit p) (h : commitTransaction debug s a p = some t) :
    Effect debug a s t := by
  cases p with
  | unlockGC =>
    simp only [commitTransaction, map_eq_some_iff] at h
    obtain ⟨u, hu, rfl⟩ := h
    exact .commitUnlockGC u hpc hu
  | commitLock =>
    simp only [commitTransaction, map_eq_some_iff] at h
    obtain ⟨m, hm, rfl⟩ := h
    exact .commitLock m hpc hm
  | transactionsLock =>
    simp only [commitTransaction, lockTransactions, map_map, map_eq_some_iff] at h
    obtain ⟨m, hm, rfl⟩ := h
    exact .commitTransactionsLock m hpc hm
  | lockGC =>
    simp only [commitTransaction, lockGC, bind_eq_some_iff, map_map, map_eq_some_iff] at h
    obtain ⟨u, hu, m, hm, rfl⟩ := h
    exact .commitLockGC u m hpc hu hm
  | conflicts =>
    simp only [commitTransaction] at h
    split at h
    · rename_i hany
      obtain ⟨u, hu, hd⟩ := List.any_eq_true.mp hany
      cases h
      exact .conflictsFault u hpc hu hd
    · cases h
      exact .conflicts hpc
  | remove =>
    simp only [commitTransaction, map_eq_some_iff] at h
    obtain ⟨u, hu, rfl⟩ := h
    unfold State.assert
    split
    · rename_i hm
      simp only [Bool.and_eq_true, Bool.not_eq_true', List.contains_eq_mem, decide_eq_false_iff_not] at hm
      exact .removeAssert u hm.1 hpc hu hm.2
    · exact .remove u hpc hu
  | transactionsUnlock =>
    cases h
    exact .commitTransactionsUnlock hpc
  | commitUnlock =>
    cases h
    exact .commitUnlock hpc

theorem advance_effect (h : advance debug s a = some t) : Effect debug a s t := by
  unfold advance at h
  split at h
  · rename_i hpc
    simp only [ite_none_right_eq_some, Option.some.injEq] at h
    obtain ⟨hs, rfl⟩ := h
    exact .born hpc hs
  · cases h
  · cases h
  · cases h
  · cases h
  · rename_i hpc
    simp only [map_eq_some_iff] at h
    obtain ⟨m, hm, rfl⟩ := h
    exact .heapLock m hpc hm
  · rename_i p hpc
    exact startTransaction_effect hpc h
  · rename_i r p hpc
    exact pauseForGC_effect hpc h
  · rename_i c p hpc
    exact enterCollectionScope_effect hpc h
  · rename_i c hpc
    cases h
    exact performGarbageCollection_effect hpc
  · rename_i c e p hpc
    exact leaveCollectionScope_effect hpc h
  · rename_i p hpc
    exact commitTransaction_effect hpc h

/-- Every step is an effect of the thread it names, taken before any fault. -/
theorem step_effect {n : Nat} {m : Move}
    (h : step debug n s m = some t) : s.fault = none ∧ m.thread < n ∧ Effect debug m.thread s t := by
  simp only [step, ite_none_right_eq_some, isNone_iff_eq_none] at h
  obtain ⟨⟨hf, hn⟩, h⟩ := h
  refine ⟨hf, hn, ?_⟩
  cases m with
  | call a c => exact call_effect h
  | advance a => exact advance_effect h

end W16.Handshake
