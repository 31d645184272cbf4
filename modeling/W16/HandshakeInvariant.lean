import W16.HandshakeEffect

/-!
# Who holds which lock

The program counter of a thread determines the locks it holds. Outside the
`UnlockGC`..`LockGC` windows a thread holds the GC mutex of its transaction; a
collector holds those of the transactions it has passed in its loop. Both
follow from what a thread does itself and from the fact that no other thread
can take a mutex away from its holder, in debug and in release builds and also
when the destructor of `CollectionScope` runs on the skipped path.
-/
namespace W16.Handshake

open RecursiveMutex List Function

set_option linter.dupNamespace false

/-- The thread is between `UnlockGC` and `LockGC` of `PauseForGC` or of
`CommitTransaction`. -/
def Pc.window : Pc → Bool
  | .pause _ .wait | .pause _ .clear | .pause _ .lockGC => true
  | .commit .commitLock | .commit .transactionsLock | .commit .lockGC => true
  | _ => false

/-- The thread is between locking and unlocking `transactions_mutex_`. -/
def Pc.holdsTransactions : Pc → Bool
  | .start .add | .start .unlock | .enter _ (.loop _) | .collecting _ => true
  | .leave _ entered _ => entered
  | .commit .lockGC | .commit .conflicts | .commit .remove | .commit .transactionsUnlock => true
  | _ => false

/-- The thread is past the `Add` of `StartTransaction` and before the removal in
`CommitTransaction`. -/
def Pc.inTransaction : Pc → Bool
  | .start .unlock | .running | .heapLock | .inAllocation => true
  | .pause _ _ | .enter _ _ | .collecting _ | .leave _ _ _ => true
  | .commit .transactionsUnlock | .commit .commitUnlock => false
  | .commit _ => true
  | _ => false

def LeaveAt.held (l : List TransId) : LeaveAt → List TransId
  | .compareAndSwap => l
  | .loop i => l.drop i
  | .signalDoneGC i _ => l.drop (i + 1)
  | .unlock => []

/-- The listed transactions whose GC mutex a collection has locked and not yet
unlocked, the collector's own apart. -/
def Pc.held (l : List TransId) : Pc → List TransId
  | .enter _ (.loop i) => l.take i
  | .collecting _ => l
  | .leave _ entered p => if entered then p.held l else []
  | _ => []

@[simp] theorem Caller.resume_window (c : Caller) : c.resume.window = false := by cases c <;> rfl
@[simp] theorem Caller.resume_holdsTransactions (c : Caller) :
    c.resume.holdsTransactions = false := by cases c <;> rfl
@[simp] theorem Caller.resume_inTransaction (c : Caller) : c.resume.inTransaction = true := by cases c <;> rfl
@[simp] theorem Caller.resume_held (c : Caller) (l : List TransId) : c.resume.held l = [] := by cases c <;> rfl
@[simp] theorem Caller.resume_ne_start (c : Caller) (p : StartAt) : c.resume ≠ .start p := by
  cases c <;> simp [Caller.resume]
@[simp] theorem PauseReturn.resume_window (r : PauseReturn) : r.resume.window = false := by cases r <;> rfl
@[simp] theorem PauseReturn.resume_holdsTransactions (r : PauseReturn) :
    r.resume.holdsTransactions = false := by cases r <;> rfl
@[simp] theorem PauseReturn.resume_inTransaction (r : PauseReturn) :
    r.resume.inTransaction = true := by cases r <;> rfl
@[simp] theorem PauseReturn.resume_held (r : PauseReturn) (l : List TransId) :
    r.resume.held l = [] := by cases r <;> rfl
@[simp] theorem PauseReturn.resume_ne_start (r : PauseReturn) (p : StartAt) :
    r.resume ≠ .start p := by cases r <;> simp [PauseReturn.resume]

variable {l : List TransId} {u : TransId} {a : ThreadId} {debug : Bool} {s t : State}

theorem mem_take_succ {i : Nat} {t : TransId} (h : l[i]? = some t) :
    u ∈ l.take (i + 1) ↔ u ∈ l.take i ∨ u = t := by
  rw [take_add_one, h]
  simp

theorem drop_of_getElem? {i : Nat} {t : TransId} (h : l[i]? = some t) : l.drop i = t :: l.drop (i + 1) := by
  grind [drop_eq_getElem_cons]

theorem LeaveAt.mem_of_held {p : LeaveAt} (h : u ∈ p.held l) : u ∈ l := by
  cases p with
  | compareAndSwap => exact h
  | loop i => exact mem_of_mem_drop h
  | signalDoneGC i t => exact mem_of_mem_drop h
  | unlock => cases h

theorem holdsTransactions_of_held {pc : Pc} (h : u ∈ pc.held l) : pc.holdsTransactions = true := by
  unfold Pc.held at h
  split at h <;> simp_all [Pc.holdsTransactions]

theorem mem_of_held {pc : Pc} (h : u ∈ pc.held l) : u ∈ l := by
  unfold Pc.held at h
  grind [LeaveAt.mem_of_held]

/-- What a step of `a` leaves alone for the other threads. -/
structure Frame (a : ThreadId) (s t : State) : Prop where
  thread : ∀ b, b ≠ a → t.thread b = s.thread b
  gcMutex : ∀ b u, b ≠ a → u < s.next → Owned (s.trans u).gcMutex b → Owned (t.trans u).gcMutex b
  transactionsMutex : ∀ b, b ≠ a → Owned s.transactionsMutex b → Owned t.transactionsMutex b
  transactions : t.transactions = s.transactions ∨ (s.thread a).pc.holdsTransactions = true
  next : s.next ≤ t.next

theorem owned_update {f : TransId → Transaction} {t : TransId} {r : Transaction} {b : ThreadId}
    (h : Owned (f t).gcMutex b → Owned r.gcMutex b) (hu : Owned (f u).gcMutex b) :
    Owned (Function.update f t r u).gcMutex b := by
  grind

theorem Effect.frame (h : Effect debug a s t) : Frame a s t := by
  constructor
  · intro b hb
    cases h <;> simp [hb]
  · intro b u hb hu ho
    cases h <;> simp only [State.goto, State.setThread, State.setTrans, State.fail, newTransaction,
      unlockGC, unlockTransactions, signalDoneGC] <;> try exact ho
    -- A fresh transaction is not one that `b` holds.
    case begin => rwa [update_of_ne (Nat.ne_of_lt hu)]
    all_goals first
      | exact owned_update id ho
      | exact owned_update (·.unlock hb) ho
      | exact owned_update (·.lock ‹_›) ho
  · intro b hb ho
    cases h <;> try exact ho
    all_goals first
      | exact ho.unlock hb
      | exact ho.lock ‹_›
  · cases h <;> try exact .inl rfl
    all_goals
      simp [*, Pc.holdsTransactions]
  · cases h <;> simp

structure Inv (s : State) : Prop where
  listed : ∀ u ∈ s.transactions, u < s.next
  nodup : s.transactions.Nodup
  current : ∀ b u, (s.thread b).transaction = some u → u < s.next
  distinct : ∀ b c u, (s.thread b).transaction = some u → (s.thread c).transaction = some u → b = c
  pending : ∀ b u, (s.thread b).transaction = some u →
    (s.thread b).pc = .start .lock ∨ (s.thread b).pc = .start .add → u ∉ s.transactions
  joined : ∀ b, (s.thread b).pc.inTransaction = true →
    ∃ u, (s.thread b).transaction = some u ∧ u ∈ s.transactions
  own : ∀ b u, (s.thread b).transaction = some u → (s.thread b).pc.window = false → Owned (s.trans u).gcMutex b
  list : ∀ b, (s.thread b).pc.holdsTransactions = true → Owned s.transactionsMutex b
  held : ∀ b u, u ∈ (s.thread b).pc.held s.transactions → some u ≠ (s.thread b).transaction →
    Owned (s.trans u).gcMutex b

theorem inv_initial : Inv initial := by
  have hpc : ∀ b, (initial.thread b).pc = .idle ∨ (initial.thread b).pc = .unborn := by
    intro b
    by_cases hb : b = 0 <;> simp [initial, hb]
  have htrans : ∀ b, (initial.thread b).transaction = none := by
    intro b
    by_cases hb : b = 0 <;> simp [initial, hb]
  constructor
  · simp [initial]
  · simp [initial]
  · simp [htrans]
  · simp [htrans]
  · simp [htrans]
  · grind [Pc.inTransaction]
  · simp [htrans]
  · grind [Pc.holdsTransactions]
  · intro b u hu
    have := mem_of_held hu
    simp [initial] at this

/-- A thread that holds the list mutex excludes every other thread that does. -/
theorem Inv.holder_unique (hs : Inv s) {b : ThreadId}
    (ha : (s.thread a).pc.holdsTransactions = true) (hb : (s.thread b).pc.holdsTransactions = true) :
    a = b :=
  (hs.list a ha).unique (hs.list b hb)

/-- The list only loses elements, or gains the transaction that `a` is starting. -/
theorem Effect.mem_transactions (h : Effect debug a s t) (hu : u ∈ t.transactions) :
    u ∈ s.transactions ∨ ((s.thread a).transaction = some u ∧ (s.thread a).pc = .start .add) := by
  cases h <;> try exact .inl hu
  case startAdd v hpc hv =>
    rcases mem_append.mp hu with hu | hu
    · exact .inl hu
    grind
  case remove v hpc hv =>
    left
    cases debug
    · exact hu
    · exact mem_of_mem_erase hu

/-- A transaction leaves the list only when the thread it belongs to removes it. -/
theorem Effect.mem_of_mem (h : Effect debug a s t) (hu : u ∈ s.transactions) :
    u ∈ t.transactions ∨ ((s.thread a).transaction = some u ∧ (s.thread a).pc = .commit .remove) := by
  cases h <;> try exact .inl hu
  case startAdd => exact .inl (mem_append_left _ hu)
  case remove v hpc hv =>
    by_cases he : u = v
    · rw [he]
      exact .inr ⟨hv, hpc⟩
    · left
      cases debug
      · exact hu
      · exact (mem_erase_of_ne he).mpr hu

/-- The current transaction of the moving thread is kept, dropped or fresh. -/
theorem Effect.transaction (h : Effect debug a s t) (hu : (t.thread a).transaction = some u) :
    (s.thread a).transaction = some u ∨
      (u = s.next ∧ t.next = s.next + 1 ∧ (t.thread a).pc = .start .lock) := by
  cases h <;> simp at hu ⊢ <;> try exact hu
  case begin => exact .inr hu.symm

theorem nodup_step (hs : Inv s) (h : Effect debug a s t) : t.transactions.Nodup := by
  cases h <;> try exact hs.nodup
  case startAdd u hpc hu =>
    have hnew := hs.pending a u hu (.inr hpc)
    exact nodup_append.mpr ⟨hs.nodup, by simp, by
      grind⟩
  case remove u hpc hu =>
    cases debug
    · exact hs.nodup
    · exact hs.nodup.erase u

theorem pending_step (hs : Inv s)
    (h : Effect debug a s t) (b : ThreadId) (u : TransId) (hu : (t.thread b).transaction = some u)
    (hpc : (t.thread b).pc = .start .lock ∨ (t.thread b).pc = .start .add) : u ∉ t.transactions := by
  intro hmem
  by_cases hb : b = a
  · subst hb
    cases h <;> simp at hu hpc hmem
    case begin => exact absurd (hs.listed u hmem) (by simp [hu])
    case startLock m hpc' hm => exact hs.pending b u hu (.inl hpc') hmem
    all_goals exact hs.pending b u hu hpc hmem
  · rw [h.frame.thread b hb] at hu hpc
    rcases h.mem_transactions hmem with hold | ⟨ha, -⟩
    · exact hs.pending b u hu hpc hold
    · exact hb (hs.distinct b a u hu ha)

theorem distinct_step (hs : Inv s) (h : Effect debug a s t) (b c : ThreadId) (u : TransId)
    (hb : (t.thread b).transaction = some u) (hc : (t.thread c).transaction = some u) : b = c := by
  -- A thread other than `a` cannot have the transaction that `a` has just created.
  have other : ∀ d, d ≠ a → (t.thread d).transaction = some u → (t.thread a).transaction = some u → False := by
    intro d hd hdu hau
    rw [h.frame.thread d hd] at hdu
    rcases h.transaction hau with hold | ⟨hnew, -⟩
    · exact hd (hs.distinct d a u hdu hold)
    · exact absurd (hs.current d u hdu) (by simp [hnew])
  by_cases hba : b = a
  · subst hba
    by_contra hne
    exact other c (Ne.symm hne) hc hb
  · by_cases hca : c = a
    · subst hca
      exact (other b hba hb hc).elim
    · rw [h.frame.thread b hba] at hb
      rw [h.frame.thread c hca] at hc
      exact hs.distinct b c u hb hc

theorem joined_step (hs : Inv s)
    (h : Effect debug a s t) (b : ThreadId) (hb : (t.thread b).pc.inTransaction = true) :
    ∃ u, (t.thread b).transaction = some u ∧ u ∈ t.transactions := by
  by_cases hba : b = a
  · subst hba
    have hj := hs.joined b
    cases h <;> simp at hb ⊢
    case startAdd u hpc hu => exact ⟨u, hu, .inr rfl⟩
    case collect c hpc => exact hj (by simp [hpc])
    all_goals simp_all [Pc.inTransaction]
  · rw [h.frame.thread b hba] at hb ⊢
    obtain ⟨u, hu, hmem⟩ := hs.joined b hb
    rcases h.mem_of_mem hmem with hmem' | ⟨ha, -⟩
    · exact ⟨u, hu, hmem'⟩
    · exact (hba (hs.distinct b a u hu ha)).elim

theorem own_step (hs : Inv s) (h : Effect debug a s t)
    (b : ThreadId) (u : TransId) (hu : (t.thread b).transaction = some u)
    (hw : (t.thread b).pc.window = false) : Owned (t.trans u).gcMutex b := by
  by_cases hb : b = a
  · subst hb
    have ho := hs.own b u
    cases h <;> simp at hu hw ⊢
    case begin =>
      subst hu
      exact ⟨0, by simp⟩
    case collect c hpc => exact ho hu (by simp [hpc])
    case pauseLockGC r v m hpc hv hm =>
      obtain rfl := Option.some.inj (hv.symm.trans hu)
      simpa using lock_owned hm
    case commitLockGC v m hpc hv hm =>
      obtain rfl := Option.some.inj (hv.symm.trans hu)
      simpa using lock_owned hm
    case startAdd v hpc hv => exact owned_update id (ho hu (by simp [hpc, Pc.window]))
    case resetDoneGC r v hpc hv => exact owned_update id (ho hu (by simp [hpc, Pc.window]))
    case leaveSignal c e i v hpc => exact owned_update id (ho hu (by simp [hpc, Pc.window]))
    case enterLockGC c i v m hpc hi hv hm =>
      exact owned_update (·.lock hm) (ho hu (by simp [hpc, Pc.window]))
    case leaveUnlockGC c e i v hpc hi hv =>
      -- The destructor never unlocks the collector's own transaction.
      grind -linarith [Pc.window]
    all_goals simp_all [Pc.window]
  · rw [h.frame.thread b hb] at hu hw
    exact h.frame.gcMutex b u hb (hs.current b u hu) (hs.own b u hu hw)

theorem list_step (hs : Inv s) (h : Effect debug a s t)
    (b : ThreadId) (hb : (t.thread b).pc.holdsTransactions = true) : Owned t.transactionsMutex b := by
  by_cases hba : b = a
  · subst hba
    have hl := hs.list b
    cases h <;> simp at hb ⊢
    all_goals first
      | exact hl hb
      | simp [Pc.holdsTransactions] at hb; done
      | exact lock_owned ‹_›
      | rw [‹(s.thread b).pc = _›] at hl; exact hl hb
  · rw [h.frame.thread b hba] at hb
    exact h.frame.transactionsMutex b hba (hs.list b hb)

theorem held_step (hs : Inv s) (h : Effect debug a s t)
    (b : ThreadId) (u : TransId) (hu : u ∈ (t.thread b).pc.held t.transactions)
    (hne : some u ≠ (t.thread b).transaction) : Owned (t.trans u).gcMutex b := by
  by_cases hb : b = a
  · subst hb
    have hh := hs.held b u
    cases h <;> simp at hu hne ⊢
    case enterDone c i hpc hi =>
      simp_all [Pc.held, take_of_length_le]
    case enterSelf c i v hpc hi hv =>
      rw [hpc] at hh
      rcases (mem_take_succ hi).mp hu with hu | rfl
      · exact hh hu hne
      · exact (hne hv).elim
    case enterLockGC c i v m hpc hi hv hm =>
      rw [hpc] at hh
      by_cases he : u = v
      · subst he
        simpa using lock_owned hm
      · rw [update_of_ne he]
        exact hh (((mem_take_succ hi).mp hu).resolve_right he) hne
    case leaveSelf c e i v hpc hi hv =>
      rw [hpc, Pc.held, LeaveAt.held, drop_of_getElem? hi] at hh
      cases e with
      | false => cases hu
      | true => exact hh (mem_cons_of_mem v hu) hne
    case leaveUnlockGC c e i v hpc hi hv =>
      -- The list has no duplicates, so the mutex just unlocked is not one of the rest.
      have hnd := hs.nodup.sublist (drop_sublist i s.transactions)
      rw [hpc, Pc.held, LeaveAt.held, drop_of_getElem? hi] at hh
      rw [drop_of_getElem? hi, nodup_cons] at hnd
      cases e with
      | false => cases hu
      | true =>
        have he : u ≠ v := fun he => hnd.1 (he ▸ hu)
        rw [update_of_ne he]
        exact hh (mem_cons_of_mem v hu) hne
    case leaveSignal c e i v hpc =>
      rw [hpc] at hh
      exact owned_update id (hh hu hne)
    all_goals first
      | exact hh hu hne
      | simp [Pc.held, LeaveAt.held] at hu; done
      | rw [‹(s.thread b).pc = _›] at hh; exact hh hu hne
  · rw [h.frame.thread b hb] at hu hne
    have hlist : t.transactions = s.transactions := by
      rcases h.frame.transactions with heq | ha
      · exact heq
      · exact (hb (hs.holder_unique (holdsTransactions_of_held hu) ha)).elim
    rw [hlist] at hu
    exact h.frame.gcMutex b u hb (hs.listed u (mem_of_held hu)) (hs.held b u hu hne)

theorem inv_step (hs : Inv s) (h : Effect debug a s t) : Inv t where
  listed u hu := by
    rcases h.mem_transactions hu with hold | ⟨hcur, -⟩
    · exact Nat.lt_of_lt_of_le (hs.listed u hold) h.frame.next
    · exact Nat.lt_of_lt_of_le (hs.current a u hcur) h.frame.next
  nodup := nodup_step hs h
  current b u hu := by
    by_cases hb : b = a
    · subst hb
      rcases h.transaction hu with hold | ⟨rfl, hn, -⟩
      · exact Nat.lt_of_lt_of_le (hs.current b u hold) h.frame.next
      · exact hn ▸ Nat.lt_succ_self _
    · rw [h.frame.thread b hb] at hu
      exact Nat.lt_of_lt_of_le (hs.current b u hu) h.frame.next
  distinct := distinct_step hs h
  pending := pending_step hs h
  joined := joined_step hs h
  own := own_step hs h
  list := list_step hs h
  held := held_step hs h

/-- The invariant holds in every reachable state, in both builds and for every
guard. -/
theorem inv_reach {n : Nat} {p : State → Move → Prop}
    (h : Transition.Reach (step debug n) p initial s) : Inv s :=
  h.invariant inv_initial fun _ _ _ hs _ hstep => inv_step hs (step_effect hstep).2.2

end W16.Handshake
