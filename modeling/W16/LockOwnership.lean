import W16.CollectionScope
import W16.TransactionList

/-!
# Exact lock ownership in the runs of `CALL_AND_RETRY`

Threads collect garbage only inside an allocation scope, in a build whose
transaction list is exact, and no thread slips between the `need_gc_` test and
`heap_mutex_` of another one's collection. In these runs every mutex is held,
once, by the thread whose program counter says so, and a thread that waits on
its semaphore has a collector that will signal it.
-/
namespace W16.Handshake

open RecursiveMutex Transition List

set_option linter.dupNamespace false

/-- `CollectGarbage` is called only inside the scope of `CALL_AND_RETRY`. -/
def NestedCollection (s : State) : Move → Prop
  | .call a .collectGarbage => (s.thread a).pc = .inAllocation
  | _ => True

/-- The thread is about to ask for a collection. -/
def Pc.asks : Pc → Bool
  | .enter _ .compareAndSwap => true
  | _ => false

/-- No collection is requested while another thread is between `PauseForGC` and
`heap_mutex_`, and no thread returns from its pause to allocate while a
collection is requested. -/
def NoRace (n : Nat) (s : State) : Move → Prop
  | .call _ _ => True
  | .advance a =>
    ((s.thread a).pc.asks = true → ∀ b < n, b ≠ a → (s.thread b).pc ≠ .heapLock) ∧
    ((s.thread a).pc = .pause .enterAllocationScope .lockGC → s.needGc = false)

/-- Neither a direct nor a skipped collection. -/
def Pc.regular : Pc → Bool
  | .pause r _ => !r.skips
  | .enter c _ | .collecting c => c == .allocation
  | .leave c entered _ => c == .allocation && entered
  | _ => true

def Pc.holdsHeap : Pc → Bool
  | .inAllocation | .enter _ _ | .collecting _ | .leave _ _ _ => true
  | _ => false

def Pc.holdsCommit : Pc → Bool
  | .commit .unlockGC | .commit .commitLock => false
  | .commit _ => true
  | _ => false

/-- The thread has a transaction, listed or about to be. -/
def Pc.hasTransaction : Pc → Bool
  | .start _ => true
  | pc => pc.inTransaction

/-- The thread has found `need_gc_` set and not yet released its GC mutex. -/
def Pc.pausing : Pc → Bool
  | .pause _ .resetDoneGC | .pause _ .unlockGC => true
  | _ => false

/-- The thread's semaphore exists. -/
def Pc.hasSemaphore : Pc → Bool
  | .pause _ .unlockGC | .pause _ .wait | .pause _ .clear => true
  | _ => false

def LeaveAt.toSignal (l : List TransId) : LeaveAt → List TransId
  | .compareAndSwap => l
  | .loop i => l.drop i
  | .signalDoneGC i t => t :: l.drop (i + 1)
  | .unlock => []

/-- The transactions that a collection has still to signal. -/
def Pc.toSignal (l : List TransId) : Pc → List TransId
  | .enter _ .lock | .enter _ (.loop _) | .collecting _ => l
  | .leave _ _ p => p.toSignal l
  | _ => []

/-- `b` holds the GC mutex of `u`: it is the transaction's own thread outside its
windows, or a collector that has passed `u`. -/
def HoldsGc (s : State) (u : TransId) (b : ThreadId) : Prop :=
  ((s.thread b).transaction = some u ∧ (s.thread b).pc.window = false) ∨
    (u ∈ (s.thread b).pc.held s.transactions ∧ (s.thread b).transaction ≠ some u)

structure LockInv (s : State) : Prop where
  scope : ScopeInv s
  fault : s.fault = none
  regular : ∀ b, (s.thread b).pc.regular = true
  hasTransaction : ∀ b u, (s.thread b).transaction = some u → (s.thread b).pc.hasTransaction = true
  starting : ∀ b p, (s.thread b).pc = .start p → ∃ u, (s.thread b).transaction = some u
  owner : ∀ u ∈ s.transactions, ∃ b, (s.thread b).transaction = some u
  heap : Tracks s.heapMutex fun b => (s.thread b).pc.holdsHeap = true
  commit : Tracks s.commitMutex fun b => (s.thread b).pc.holdsCommit = true
  list : Tracks s.transactionsMutex fun b => (s.thread b).pc.holdsTransactions = true
  gc : ∀ u b, (s.thread b).transaction = some u → Tracks (s.trans u).gcMutex (HoldsGc s u)
  requested : s.needGc = true → ∃ c, (s.thread c).pc.requested = true
  heapLock : s.needGc = true → ∀ b, (s.thread b).pc ≠ .heapLock
  pausing : ∀ b, (s.thread b).pc.pausing = true → s.needGc = true
  semaphore : ∀ b u, (s.thread b).transaction = some u →
    (s.trans u).doneGc.isSome = (s.thread b).pc.hasSemaphore
  waiting : ∀ b u r, (s.thread b).pc = .pause r .wait → (s.thread b).transaction = some u →
    (s.trans u).doneGc = some 0 → ∃ c, u ∈ (s.thread c).pc.toSignal s.transactions
  signalling : ∀ b c e i u, (s.thread b).pc = .leave c e (.signalDoneGC i u) → s.transactions[i]? = some u

/-- What the guards leave of a step of `a`. -/
structure Tame (a : ThreadId) (s t : State) : Prop where
  nested : (t.thread a).pc ≠ .enter .direct .compareAndSwap
  request : (s.thread a).pc.asks = true → ∀ b, b ≠ a → (s.thread b).pc ≠ .heapLock
  relock : (s.thread a).pc = .pause .enterAllocationScope .lockGC → s.needGc = false

@[simp] theorem Caller.resume_regular (c : Caller) : c.resume.regular = true := by
  cases c <;> rfl
@[simp] theorem Caller.resume_holdsCommit (c : Caller) : c.resume.holdsCommit = false := by
  cases c <;> rfl
@[simp] theorem Caller.resume_pausing (c : Caller) : c.resume.pausing = false := by
  cases c <;> rfl
@[simp] theorem Caller.resume_hasSemaphore (c : Caller) : c.resume.hasSemaphore = false := by
  cases c <;> rfl
@[simp] theorem Caller.resume_hasTransaction (c : Caller) : c.resume.hasTransaction = true := by
  cases c <;> rfl
@[simp] theorem Caller.resume_ne_heapLock (c : Caller) : c.resume ≠ .heapLock := by
  cases c <;> simp [Caller.resume]
@[simp] theorem PauseReturn.resume_hasTransaction (r : PauseReturn) : r.resume.hasTransaction = true := by
  cases r <;> rfl
@[simp] theorem PauseReturn.resume_holdsCommit (r : PauseReturn) : r.resume.holdsCommit = false := by
  cases r <;> rfl
@[simp] theorem PauseReturn.resume_hasSemaphore (r : PauseReturn) : r.resume.hasSemaphore = false := by
  cases r <;> rfl
@[simp] theorem PauseReturn.resume_pausing (r : PauseReturn) : r.resume.pausing = false := by
  cases r <;> rfl

theorem Pc.inTransaction_of_pausing {pc : Pc} (h : pc.pausing = true) :
    pc.inTransaction = true ∧ pc.window = false := by
  unfold Pc.pausing at h
  split at h
  · exact ⟨rfl, rfl⟩
  · exact ⟨rfl, rfl⟩
  · cases h

theorem Pc.resume_of_regular {pc : Pc} {r : PauseReturn} {p : PauseAt} (h : pc.regular = true)
    (hpc : pc = .pause r p) : r.resume = .heapLock := by
  apply Pc.resume_of_not_skipped _ hpc
  subst hpc
  simpa [Pc.regular, Pc.skipped] using h

theorem Pc.toSignal_of_requested {pc : Pc} (h : pc.requested = true) (l : List TransId) :
    pc.toSignal l = l := by
  unfold Pc.requested at h
  split at h
  · rfl
  · rfl
  · rfl
  · rfl
  · cases h

theorem Pc.toSignal_cases {pc : Pc} {l : List TransId} {u : TransId} (h : u ∈ pc.toSignal l)
    (hreg : pc.regular = true) : (∃ c, pc = .enter c .lock) ∨ pc.holdsTransactions = true := by
  unfold Pc.toSignal at h
  split at h
  · exact .inl ⟨_, rfl⟩
  · exact .inr rfl
  · exact .inr rfl
  · simp [Pc.regular] at hreg
    exact .inr (by simp [Pc.holdsTransactions, hreg])
  · cases h

section step

variable {a : ThreadId} {s t : State}

/-- The thread that has requested the collection holds the heap, so no second
thread is inside `CollectGarbage`. -/
theorem LockInv.not_skip (hs : LockInv s) {c : Caller} (hpc : (s.thread a).pc = .enter c .compareAndSwap) :
    s.needGc = false := by
  by_contra hg
  obtain ⟨b, hb⟩ := hs.requested (by simpa using hg)
  have hheap : (s.thread b).pc.holdsHeap = true := by
    cases hpcb : (s.thread b).pc <;> simp [hpcb, Pc.requested] at hb <;> rfl
  have := hs.heap.unique hheap (show (s.thread a).pc.holdsHeap = true by simp [hpc, Pc.holdsHeap])
  subst this
  simp [hpc, Pc.requested] at hb

theorem regular_step (hs : LockInv s) (ht : Tame a s t) (h : Effect true a s t) (b : ThreadId) :
    (t.thread b).pc.regular = true := by
  by_cases hba : b = a
  · subst hba
    have hold := hs.regular b
    have hskip := @LockInv.not_skip b s hs
    have hnest := ht.nested
    cases h <;> simp at hnest ⊢
    case skip c hpc hg => simp [hskip hpc] at hg
    case collect c hpc =>
      cases c with
      | allocation => rfl
      | direct => exact (hnest rfl).elim
    case pauseReturn r hpc hg => rw [Pc.resume_of_regular hold hpc]; rfl
    case pauseLockGC r v m hpc hv hm => rw [Pc.resume_of_regular hold hpc]; rfl
    case collected c hpc => simpa [hpc, Pc.regular] using hold
    all_goals first
      | exact hold
      | rfl
      | rw [‹(s.thread b).pc = _›] at hold; exact hold
  · rw [h.frame.thread b hba]
    exact hs.regular b

theorem hasTransaction_step (hs : LockInv s) (h : Effect true a s t) (b : ThreadId) (u : TransId)
    (hu : (t.thread b).transaction = some u) : (t.thread b).pc.hasTransaction = true := by
  by_cases hba : b = a
  · subst hba
    have hold := hs.hasTransaction b
    cases h <;> simp at hu ⊢
    case scriptDone hpc hd hscript => cases hd
    all_goals first
      | exact hold u hu
      | rfl
      | rw [‹(s.thread b).pc = _›] at hold; cases hold u hu
  · rw [h.frame.thread b hba] at hu ⊢
    exact hs.hasTransaction b u hu

theorem starting_step (hs : LockInv s) (h : Effect true a s t) (b : ThreadId) (p : StartAt)
    (hpc : (t.thread b).pc = .start p) : ∃ u, (t.thread b).transaction = some u := by
  by_cases hba : b = a
  · subst hba
    have hold := hs.starting b
    cases h <;> simp at hpc ⊢
    all_goals grind
  · rw [h.frame.thread b hba] at hpc ⊢
    exact hs.starting b p hpc

theorem owner_step (hi : Inv s) (hs : LockInv s) (h : Effect true a s t) (u : TransId)
    (hu : u ∈ t.transactions) : ∃ b, (t.thread b).transaction = some u := by
  -- The thread of a listed transaction keeps it until it removes it from the list.
  have keep : ∀ b, (s.thread b).transaction = some u → ∃ b, (t.thread b).transaction = some u := by
    intro b hb
    by_cases hba : b = a
    · subst hba
      have hact := hs.hasTransaction b u hb
      have hnd := hi.nodup
      refine ⟨b, ?_⟩
      cases h <;> simp at hu ⊢ <;> try exact hb
      case begin hpc => simp [hpc, Pc.hasTransaction, Pc.inTransaction] at hact
      case remove v hpc hv =>
        grind
    · exact ⟨b, by rw [h.frame.thread b hba]; exact hb⟩
  rcases h.mem_transactions hu with hold | ⟨hcur, -⟩
  · obtain ⟨b, hb⟩ := hs.owner u hold
    exact keep b hb
  · exact keep a hcur

theorem heap_step (hs : LockInv s) (ht : Tame a s t) (h : Effect true a s t) :
    Tracks t.heapMutex fun b => (t.thread b).pc.holdsHeap = true := by
  apply hs.heap.step
  · intro b hb
    rw [h.frame.thread b hb]
  · have hold := hs.regular a
    have hnew := regular_step hs ht h a
    cases h <;> simp at hnew ⊢
    case heapLock m hpc hm => exact .inr (.inl ⟨hm, by simp [hpc, Pc.holdsHeap], rfl⟩)
    case leaveAllocationScope hpc => simp [hpc, Pc.holdsHeap]
    case pauseReturn r hpc hg => simp [Pc.resume_of_regular hold hpc, hpc, Pc.holdsHeap]
    case pauseLockGC r v m hpc hv hm => simp [Pc.resume_of_regular hold hpc, hpc, Pc.holdsHeap]
    case collect c hpc =>
      cases c with
      | allocation => simp [hpc, Caller.resume, Pc.holdsHeap]
      | direct => cases hnew
    case skip c hpc hg => cases hnew
    case leaveUnlock c e hpc =>
      rw [hpc] at hold
      cases c with
      | allocation => simp [hpc, Caller.resume, Pc.holdsHeap]
      | direct => cases hold
    all_goals simp [‹(s.thread a).pc = _›, Pc.holdsHeap]

theorem commit_step (hs : LockInv s) (h : Effect true a s t) :
    Tracks t.commitMutex fun b => (t.thread b).pc.holdsCommit = true := by
  apply hs.commit.step
  · intro b hb
    rw [h.frame.thread b hb]
  · cases h <;> simp
    case collect c hpc =>
      rw [hpc, Caller.resume_holdsCommit]
      exact .inl rfl
    case commitLock m hpc hm => exact .inr (.inl ⟨hm, by simp [hpc, Pc.holdsCommit], rfl⟩)
    all_goals simp [‹(s.thread a).pc = _›, Pc.holdsCommit]

theorem transactions_step (hs : LockInv s) (h : Effect true a s t) :
    Tracks t.transactionsMutex fun b => (t.thread b).pc.holdsTransactions = true := by
  apply hs.list.step
  · intro b hb
    rw [h.frame.thread b hb]
  · have hold := hs.regular a
    cases h <;> simp
    case startLock m hpc hm => exact .inr (.inl ⟨hm, by simp [hpc, Pc.holdsTransactions], rfl⟩)
    case enterLock c m hpc hm => exact .inr (.inl ⟨hm, by simp [hpc, Pc.holdsTransactions], rfl⟩)
    case commitTransactionsLock m hpc hm =>
      exact .inr (.inl ⟨hm, by simp [hpc, Pc.holdsTransactions], rfl⟩)
    case collect c hpc =>
      rw [hpc, Caller.resume_holdsTransactions]
      exact .inl rfl
    case leaveUnlock c e hpc =>
      simp [hpc, Pc.regular] at hold
      simp [hpc, Pc.holdsTransactions, hold]
    all_goals simp [‹(s.thread a).pc = _›, Pc.holdsTransactions]

/-- The mutexes that a collector holds do not change while the list is the same
or belongs to another thread. -/
theorem holdsGc_other (hi : Inv s) (h : Effect true a s t) (u : TransId) {b : ThreadId} (hb : b ≠ a) :
    HoldsGc t u b ↔ HoldsGc s u b := by
  unfold HoldsGc
  rw [h.frame.thread b hb]
  rcases h.frame.transactions with heq | ha
  · rw [heq]
  · have hnot : ∀ l, u ∉ (s.thread b).pc.held l := by
      intro l hu
      exact hb (hi.holder_unique (holdsTransactions_of_held hu) ha)
    simp [hnot]

theorem not_mem_take {l : List TransId} (hl : l.Nodup) {i : Nat} {u : TransId} (hi : l[i]? = some u) :
    u ∉ l.take i := by
  have hn := hl.sublist (take_sublist (i + 1) l)
  rw [take_add_one, hi, nodup_append] at hn
  intro hu
  exact hn.2.2 u hu u (by simp) rfl

theorem not_mem_drop {l : List TransId} (hl : l.Nodup) {i : Nat} {u : TransId} (hi : l[i]? = some u) :
    u ∉ l.drop (i + 1) := by
  have hn := hl.sublist (drop_sublist i l)
  rw [drop_of_getElem? hi] at hn
  exact (nodup_cons.mp hn).1

theorem gcMutex_update {f : TransId → Transaction} {t u : TransId} {r : Transaction}
    (h : r.gcMutex = (f t).gcMutex) : (Function.update f t r u).gcMutex = (f u).gcMutex := by
  grind

theorem holdsGc_self (hi : Inv s) (hs : LockInv s) (h : Effect true a s t) {u : TransId}
    (hlt : u < s.next) (hu : ∃ b, (t.thread b).transaction = some u) :
    ((t.trans u).gcMutex = (s.trans u).gcMutex ∧ (HoldsGc t u a ↔ HoldsGc s u a)) ∨
    (lock a (s.trans u).gcMutex = some (t.trans u).gcMutex ∧ ¬ HoldsGc s u a ∧ HoldsGc t u a) ∨
    ((t.trans u).gcMutex = unlock a (s.trans u).gcMutex ∧ HoldsGc s u a ∧ ¬ HoldsGc t u a) := by
  have hreg := hs.regular a
  have htr := hs.hasTransaction a u
  unfold HoldsGc
  cases h
  case enterDone c i hpc hi' =>
    rw [hpc, Pc.held, take_of_length_le (getElem?_eq_none_iff.mp hi')]
    simp [Pc.held, Pc.window]
  case enterSelf c i v hpc hi' hv =>
    have hmem := mem_take_succ (u := u) hi'
    simp
    grind [Pc.window, Pc.held]
  case enterLockGC c i v m hpc hi' hv hm =>
    have hmem := mem_take_succ (u := u) hi'
    have hnot := not_mem_take hi.nodup hi'
    simp
    grind [Pc.window, Pc.held]
  case leaveDone c e i hpc hi' =>
    have hnil := drop_of_length_le (getElem?_eq_none_iff.mp hi')
    simp
    grind [Pc.window, Pc.held, LeaveAt.held]
  case leaveSelf c e i v hpc hi' hv =>
    have hdrop := drop_of_getElem? hi'
    simp
    grind [Pc.window, Pc.held, LeaveAt.held]
  case leaveUnlockGC c e i v hpc hi' hv =>
    have hdrop := drop_of_getElem? hi'
    have hnot := not_mem_drop hi.nodup hi'
    simp
    grind [Pc.window, Pc.held, LeaveAt.held, Pc.regular]
  case remove v hpc hv =>
    -- The transaction being deleted is nobody's current one afterwards.
    have hne : u ≠ v := by
      rintro rfl
      obtain ⟨b, hb⟩ := hu
      by_cases hba : b = a
      · subst hba
        simp at hb
      · simp [hba] at hb
        exact hba (hi.distinct b a u hb hv)
    simp
    grind [Pc.window, Pc.held]
  all_goals simp
  all_goals first
    | simp [‹(s.thread a).pc = _›, Pc.window, Pc.held, LeaveAt.held]; done
    | refine .inl ⟨gcMutex_update rfl, ?_⟩
      simp [‹(s.thread a).pc = _›, Pc.window, Pc.held, LeaveAt.held]
    | grind [Pc.window, Pc.held, Pc.hasTransaction, Pc.inTransaction, Caller.resume_window,
        Caller.resume_held, PauseReturn.resume_window, PauseReturn.resume_held]

theorem gc_step (hi : Inv s) (hs : LockInv s) (h : Effect true a s t) (u : TransId) (b : ThreadId)
    (hu : (t.thread b).transaction = some u) : Tracks (t.trans u).gcMutex (HoldsGc t u) := by
  -- The transaction is fresh or was already some thread's.
  have horigin : (∃ d, (s.thread d).transaction = some u) ∨ (u = s.next ∧ t = newTransaction s a) := by
    by_cases hba : b = a
    · subst hba
      by_cases hold : (s.thread b).transaction = some u
      · exact .inl ⟨b, hold⟩
      · cases h <;> simp [hold] at hu
        exact .inr ⟨hu.symm, rfl⟩
    · rw [h.frame.thread b hba] at hu
      exact .inl ⟨b, hu⟩
  rcases horigin with ⟨d, hd⟩ | ⟨rfl, rfl⟩
  · exact (hs.gc u d hd).step (fun c hc => holdsGc_other hi h u hc)
      (holdsGc_self hi hs h (hi.current d u hd) ⟨b, hu⟩)
  · have hself : HoldsGc (newTransaction s a) s.next a := by
      left
      simp [Pc.window]
    have honly : ∀ c, HoldsGc (newTransaction s a) s.next c → c = a := by
      intro c hc
      by_contra hca
      rcases (holdsGc_other hi h s.next hca).mp hc with ⟨hcur, -⟩ | ⟨hheld, -⟩
      · exact Nat.lt_irrefl _ (hi.current c s.next hcur)
      · exact Nat.lt_irrefl _ (hi.listed _ (mem_of_held hheld))
    constructor
    · intro c hc
      rw [honly c hc]
      simp
    · intro c n hc
      simp at hc
      rw [← hc.1]
      exact hself

theorem fault_step (hi : Inv s) (hl : ListInv s) (hs : LockInv s) (h : Effect true a s t) : t.fault = none := by
  have live : ∀ u ∈ s.transactions, (s.trans u).deleted = true → False := by
    intro u hu hd
    have := ((hl.exact u).mp hu).2
    simp [hd] at this
  cases h <;> try exact hs.fault
  case resetAssert r u hdebug hpc hu hd =>
    have := hs.semaphore a u hu
    simp [hpc, Pc.hasSemaphore] at this
    exact (hd this).elim
  case enterFault c i u hpc hi' hd => exact (live u (mem_of_getElem? hi') hd).elim
  case iterateFault c u hpc hu hd => exact (live u hu hd).elim
  case leaveAssert c e hdebug hpc hg =>
    have := hs.scope.requested a (by simp [hpc, Pc.requested])
    simp [hg] at this
  case leaveFault c e i u hpc hd =>
    rcases hpc with ⟨-, hi'⟩ | hpc
    · exact (live u (mem_of_getElem? hi') hd).elim
    · exact (live u (mem_of_getElem? (hs.signalling a c e i u hpc)) hd).elim
  case conflictsFault u hpc hu hd => exact (live u hu hd).elim
  case removeAssert u hdebug hpc hu hm =>
    obtain ⟨v, hv, hmem⟩ := hi.joined a (by simp [hpc, Pc.inTransaction])
    grind

theorem Effect.needGc_set (h : Effect true a s t) (ht : t.needGc = true) :
    (t.thread a).pc.requested = true ∨ (s.needGc = true ∧ (s.thread a).pc.requested = false) := by
  cases hreq : (s.thread a).pc.requested with
  | false =>
    cases h <;> simp at ht ⊢
    all_goals first
      | exact ht
      | exact .inr ht
      | exact .inl rfl
  | true =>
    -- A collector that leaves this part of its collection has cleared the flag.
    cases h <;> simp at ht ⊢
    case collect c hpc => simp [hpc] at hreq
    all_goals first
      | exact hreq
      | rfl
      | rw [‹(s.thread a).pc = _›] at hreq; cases hreq

theorem needGc_step (hs : LockInv s) (h : Effect true a s t) (ht : t.needGc = true) :
    ∃ c, (t.thread c).pc.requested = true := by
  rcases h.needGc_set ht with hnew | ⟨hg, hnot⟩
  · exact ⟨a, hnew⟩
  · obtain ⟨c, hc⟩ := hs.requested hg
    have hca : c ≠ a := by
      rintro rfl
      simp [hc] at hnot
    exact ⟨c, by rw [h.frame.thread c hca]; exact hc⟩

theorem heapLock_step (hs : LockInv s) (htame : Tame a s t) (h : Effect true a s t)
    (ht : t.needGc = true) (b : ThreadId) : (t.thread b).pc ≠ .heapLock := by
  by_cases hba : b = a
  · subst hba
    have hrelock := htame.relock
    have hold := hs.heapLock
    cases h <;> simp at ht ⊢ <;> try exact hold ht b
    case pauseReturn r hpc hg => simp [hg] at ht
    case pauseLockGC r v m hpc hv hm =>
      cases r with
      | enterAllocationScope => simp [hrelock hpc] at ht
      | enterCollectionScope c => simp [PauseReturn.resume]
  · rw [h.frame.thread b hba]
    cases hg : s.needGc with
    | true => exact hs.heapLock hg b
    | false =>
      have hreq : (s.thread a).pc.asks = true := by
        cases h <;> simp [hg] at ht
        case request c hpc _ => simp [hpc, Pc.asks]
      exact htame.request hreq b hba

theorem pausing_step (hi : Inv s) (hs : LockInv s) (h : Effect true a s t) (b : ThreadId)
    (hb : (t.thread b).pc.pausing = true) : t.needGc = true := by
  by_cases hba : b = a
  · subst hba
    have hold := hs.pausing b
    cases h <;> simp at hb ⊢
    all_goals first
      | exact hold hb
      | simp [Pc.pausing] at hb; done
      | assumption
      | rw [‹(s.thread b).pc = _›] at hold; exact hold rfl
  · rw [h.frame.thread b hba] at hb
    have hg := hs.pausing b hb
    by_contra hcleared
    -- The collector that clears the flag holds the GC mutex that `b` still holds.
    have hreg := hs.regular a
    have hheld : (s.thread a).pc.held s.transactions = s.transactions := by
      cases h <;> simp [hg] at hcleared
      case leaveCompareAndSwap c e hpc _ =>
        simp [hpc, Pc.regular] at hreg
        simp [hpc, Pc.held, LeaveAt.held, hreg]
    have hin := Pc.inTransaction_of_pausing hb
    obtain ⟨u, hu, hmem⟩ := hi.joined b hin.1
    refine hba ((hs.gc u b hu).unique (.inl ⟨hu, hin.2⟩) (.inr ⟨by rw [hheld]; exact hmem, ?_⟩))
    intro ha
    exact hba (hi.distinct b a u hu ha)

/-- Another thread can only signal the semaphore of `b`. -/
theorem Effect.doneGc_other (hi : Inv s) (h : Effect true a s t) (hf : t.fault = none) {b : ThreadId}
    (hb : b ≠ a) {u : TransId} (hu : (s.thread b).transaction = some u) :
    ((t.trans u).doneGc = (s.trans u).doneGc ∧ ∀ c e i, (s.thread a).pc ≠ .leave c e (.signalDoneGC i u)) ∨
      (t.trans u).doneGc = (s.trans u).doneGc.map (· + 1) := by
  have hlt := hi.current b u hu
  have hne : (s.thread a).transaction ≠ some u := fun ha => hb (hi.distinct b a u hu ha)
  cases h
  case leaveSignal c e i v hpc =>
    by_cases he : u = v
    · subst he
      exact .inr (by simp)
    · refine .inl ⟨by simp [he], ?_⟩
      grind
  all_goals simp at hf ⊢
  all_goals grind [cases Caller, Caller.resume]

theorem semaphore_step (hi : Inv s) (hs : LockInv s) (h : Effect true a s t) (hf : t.fault = none)
    (b : ThreadId) (u : TransId) (hu : (t.thread b).transaction = some u) :
    (t.trans u).doneGc.isSome = (t.thread b).pc.hasSemaphore := by
  by_cases hba : b = a
  · subst hba
    have hold := hs.semaphore b u
    cases h <;> simp at hu ⊢
    case leaveUnlock c e hpc => simpa [hpc, Pc.hasSemaphore] using hold hu
    case pauseReturn r hpc hg => simpa [hpc, Pc.hasSemaphore] using hold hu
    case pauseLockGC r v m hpc hv hm =>
      obtain rfl := Option.some.inj (hv.symm.trans hu)
      simpa [hpc, Pc.hasSemaphore] using hold hu
    all_goals first
      | exact hold hu
      | rw [‹(s.thread b).pc = _›] at hold; exact hold hu
      | grind [Pc.hasSemaphore, Pc.hasTransaction, Pc.inTransaction, Caller.resume_hasSemaphore]
  · rw [h.frame.thread b hba] at hu ⊢
    rw [← hs.semaphore b u hu]
    rcases h.doneGc_other hi hf hba hu with ⟨heq, -⟩ | heq <;> simp [heq]

theorem signalling_step (hi : Inv s) (hs : LockInv s) (h : Effect true a s t) (b : ThreadId)
    (c : Caller) (e : Bool) (i : Nat) (u : TransId)
    (hpc : (t.thread b).pc = .leave c e (.signalDoneGC i u)) : t.transactions[i]? = some u := by
  by_cases hba : b = a
  · subst hba
    have hold := hs.signalling b
    cases h <;> simp at hpc ⊢
    case pauseReturn r hpc' hg => cases r <;> simp [PauseReturn.resume] at hpc
    case pauseLockGC r v m hpc' hv hm => cases r <;> simp [PauseReturn.resume] at hpc
    case leaveUnlock k f hpc' => cases k <;> simp [Caller.resume] at hpc
    case leaveUnlockGC k f j v hpc' hj hv =>
      obtain ⟨-, -, rfl, rfl⟩ := hpc
      exact hj
    all_goals exact hold c e i u hpc
  · rw [h.frame.thread b hba] at hpc
    have hreg := hs.regular b
    simp [hpc, Pc.regular] at hreg
    have hlist : t.transactions = s.transactions := by
      rcases h.frame.transactions with heq | ha
      · exact heq
      · exact (hba (hi.holder_unique (by simp [hpc, Pc.holdsTransactions, hreg]) ha)).elim
    rw [hlist]
    exact hs.signalling b c e i u hpc

/-- A collection keeps every transaction it has still to signal, except the one
it signals and its own. -/
theorem Effect.toSignal (h : Effect true a s t) {u : TransId}
    (hu : u ∈ (s.thread a).pc.toSignal s.transactions) (hown : (s.thread a).transaction ≠ some u)
    (hsig : ∀ c e i, (s.thread a).pc ≠ .leave c e (.signalDoneGC i u)) :
    u ∈ (t.thread a).pc.toSignal t.transactions := by
  cases h
  case leaveDone c e i hpc hi =>
    rw [hpc, Pc.toSignal, LeaveAt.toSignal, drop_of_length_le (getElem?_eq_none_iff.mp hi)] at hu
    cases hu
  case leaveSelf c e i v hpc hi hv =>
    rw [hpc, Pc.toSignal, LeaveAt.toSignal, drop_of_getElem? hi] at hu
    rcases mem_cons.mp hu with rfl | hu
    · exact (hown hv.symm).elim
    · simpa [Pc.toSignal, LeaveAt.toSignal] using hu
  case leaveUnlockGC c e i v hpc hi hv =>
    rw [hpc, Pc.toSignal, LeaveAt.toSignal, drop_of_getElem? hi] at hu
    simpa [Pc.toSignal, LeaveAt.toSignal] using hu
  case leaveSignal c e i v hpc =>
    rw [hpc, Pc.toSignal, LeaveAt.toSignal] at hu
    rcases mem_cons.mp hu with rfl | hu
    · exact (hsig c e i hpc).elim
    · simpa [Pc.toSignal, LeaveAt.toSignal] using hu
  all_goals simp
  all_goals grind [Pc.toSignal, LeaveAt.toSignal, cases Caller, Caller.resume]

theorem waiting_step (hi : Inv s) (hs : LockInv s) (h : Effect true a s t) (hf : t.fault = none)
    (b : ThreadId) (u : TransId) (r : PauseReturn) (hpc : (t.thread b).pc = .pause r .wait)
    (hu : (t.thread b).transaction = some u) (hd : (t.trans u).doneGc = some 0) :
    ∃ c, u ∈ (t.thread c).pc.toSignal t.transactions := by
  by_cases hba : b = a
  · -- `b` has just released its GC mutex for a collection that is still requested.
    subst hba
    have hcur : (s.thread b).transaction = some u ∧ (s.thread b).pc = .pause r .unlockGC ∧
        t.transactions = s.transactions := by
      cases h <;> simp at hpc hu hf ⊢
      all_goals grind [cases PauseReturn, PauseReturn.resume, cases Caller, Caller.resume]
    obtain ⟨hu, hpc, hlist⟩ := hcur
    obtain ⟨c, hc⟩ := hs.requested (hs.pausing b (by simp [hpc, Pc.pausing]))
    obtain ⟨v, hv, hmem⟩ := hi.joined b (by simp [hpc, Pc.inTransaction])
    rw [hu] at hv
    cases hv
    have hcb : c ≠ b := by
      rintro rfl
      simp [hpc, Pc.requested] at hc
    refine ⟨c, ?_⟩
    rw [h.frame.thread c hcb, Pc.toSignal_of_requested hc, hlist]
    exact hmem
  · rw [h.frame.thread b hba] at hpc hu
    have hown : (s.thread a).transaction ≠ some u := fun ha => hba (hi.distinct b a u hu ha)
    -- A signal would have raised the count above zero.
    have hold : (t.trans u).doneGc = (s.trans u).doneGc ∧
        ∀ c e i, (s.thread a).pc ≠ .leave c e (.signalDoneGC i u) := by
      rcases h.doneGc_other hi hf hba hu with hsame | hmap
      · exact hsame
      · rw [hmap] at hd
        simp at hd
    obtain ⟨c, hc⟩ := hs.waiting b u r hpc hu (hold.1 ▸ hd)
    refine ⟨c, ?_⟩
    by_cases hca : c = a
    · subst hca
      exact h.toSignal hc hown hold.2
    · rw [h.frame.thread c hca]
      rcases Pc.toSignal_cases hc (hs.regular c) with ⟨k, hk⟩ | hholds
      · rw [hk] at hc ⊢
        rcases h.mem_of_mem hc with hmem | ⟨ha, -⟩
        · exact hmem
        · exact (hown ha).elim
      · rcases h.frame.transactions with heq | ha
        · rw [heq]
          exact hc
        · exact (hca (hi.holder_unique hholds ha)).elim

theorem lockInv_step (hi : Inv s) (hl : ListInv s) (hs : LockInv s) (htame : Tame a s t)
    (hscope : ScopeInv t) (h : Effect true a s t) : LockInv t where
  scope := hscope
  fault := fault_step hi hl hs h
  regular := regular_step hs htame h
  hasTransaction := hasTransaction_step hs h
  starting := starting_step hs h
  owner := owner_step hi hs h
  heap := heap_step hs htame h
  commit := commit_step hs h
  list := transactions_step hs h
  gc := gc_step hi hs h
  requested := needGc_step hs h
  heapLock := heapLock_step hs htame h
  pausing := pausing_step hi hs h
  semaphore := semaphore_step hi hs h (fault_step hi hl hs h)
  waiting := waiting_step hi hs h (fault_step hi hl hs h)
  signalling := signalling_step hi hs h

end step

end W16.Handshake
