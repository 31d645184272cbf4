import W16.HandshakeInvariant

/-!
# The transaction list in the two builds

`CommitTransaction` removes its transaction from the list inside an `ASSERT`,
and `main` commits the initial script inside another. Where the assertions are
evaluated the list is exact in every reachable state; where they are compiled
out it is not.
-/
namespace W16.Handshake

open RecursiveMutex Transition

set_option linter.dupNamespace false

/-- Outside the critical sections the list holds the transactions that were
started and not ended, each once; only `LeaveCollectionScope`, which may read
the list without its mutex, can ever meet a deleted transaction; and the
transaction of the initial script, the first one created, is ended before the
workers start. -/
structure ExactList (s : State) : Prop where
  exact : s.transactionsMutex = none → ∀ u, u ∈ s.transactions ↔
    (s.trans u).started = true ∧ (s.trans u).deleted = false
  nodup : s.transactionsMutex = none → s.transactions.Nodup
  untouched : ∀ site, s.fault = some (.useAfterFree site) → site = .leaveCollectionScope
  script : s.spawned = true → (s.trans 0).deleted = true

/-- Before the workers start, the main thread has not begun the script, is in
its transaction, or has just ended it. -/
def BeforeSpawn (s : State) : Prop :=
  ((s.thread 0).pc = .idle ∧ s.next = 0) ∨
    ((s.thread 0).transaction = some 0 ∧ 0 < s.next ∧ ((s.thread 0).pc.inTransaction = true ∨
      (s.thread 0).pc = .start .lock ∨ (s.thread 0).pc = .start .add)) ∨
    (((s.thread 0).pc = .commit .transactionsUnlock ∨ (s.thread 0).pc = .commit .commitUnlock) ∧
      0 < s.next ∧ (s.trans 0).deleted = true)

structure ListInv (s : State) : Prop where
  exact : ∀ u, u ∈ s.transactions ↔ (s.trans u).started = true ∧ (s.trans u).deleted = false
  fresh : ∀ u, s.next ≤ u → (s.trans u).deleted = false
  current : ∀ b u, (s.thread b).transaction = some u → (s.trans u).deleted = false
  untouched : ∀ site, s.fault = some (.useAfterFree site) → site = .leaveCollectionScope
  boot : s.spawned = false → (s.thread 0).script = true ∧
    (∀ b, b ≠ 0 → (s.thread b).pc = .unborn ∧ (s.thread b).script = false) ∧ BeforeSpawn s
  worker : s.spawned = true → (∀ b, (s.thread b).script = false) ∧ (s.trans 0).deleted = true ∧ 0 < s.next

theorem listInv_initial : ListInv initial := by
  constructor
  · simp [initial]
  · simp [initial]
  · simp [initial]
  · simp [initial]
  · simp_all [initial, BeforeSpawn]
  · simp [initial]

variable {a : ThreadId} {s t : State}

/-- A step sets the life-cycle marks of the transaction it adds, deletes or
creates, and of no other. -/
theorem Effect.marks (h : Effect true a s t) (u : TransId) :
    ((t.trans u).started = (s.trans u).started ∧ (t.trans u).deleted = (s.trans u).deleted ∧
      (u ∈ t.transactions ↔ u ∈ s.transactions)) ∨
    (u = s.next ∧ t.next = s.next + 1 ∧ (t.trans u).started = false ∧ (t.trans u).deleted = false ∧
      t.transactions = s.transactions) ∨
    ((s.thread a).transaction = some u ∧ (s.thread a).pc = .start .add ∧ (t.trans u).started = true ∧
      (t.trans u).deleted = (s.trans u).deleted ∧ u ∈ t.transactions) ∨
    ((s.thread a).transaction = some u ∧ (s.thread a).pc = .commit .remove ∧
      (t.thread a).transaction = none ∧ (t.trans u).deleted = true ∧
      t.transactions = s.transactions.erase u) := by
  cases h <;> simp
  all_goals grind

theorem exact_step (hi : Inv s) (hs : ListInv s) (h : Effect true a s t) (u : TransId) :
    u ∈ t.transactions ↔ (t.trans u).started = true ∧ (t.trans u).deleted = false := by
  have hold := hs.exact u
  rcases h.marks u with ⟨hst, hdel, hmem⟩ | ⟨rfl, -, hst, -, hlist⟩ | ⟨hcur, -, hst, hdel, hmem⟩ |
    ⟨-, -, -, hdel, hlist⟩
  · rw [hst, hdel, hmem]
    exact hold
  · rw [hlist, hst]
    simpa using fun hmem => absurd (hi.listed _ hmem) (Nat.lt_irrefl _)
  · rw [hst, hdel, hs.current a u hcur]
    simpa using hmem
  · rw [hlist, hdel]
    simpa using hi.nodup.not_mem_erase

theorem fresh_step (hi : Inv s) (hs : ListInv s) (h : Effect true a s t)
    (u : TransId) (hu : t.next ≤ u) : (t.trans u).deleted = false := by
  have hnext := Nat.le_trans h.frame.next hu
  rcases h.marks u with ⟨-, hdel, -⟩ | ⟨-, -, -, hdel, -⟩ | ⟨-, -, -, hdel, -⟩ | ⟨hcur, -⟩
  · rw [hdel]
    exact hs.fresh u hnext
  · exact hdel
  · rw [hdel]
    exact hs.fresh u hnext
  · exact absurd (hi.current a u hcur) (Nat.not_lt.mpr hnext)

theorem current_step (hi : Inv s) (hs : ListInv s) (h : Effect true a s t)
    (b : ThreadId) (u : TransId) (hu : (t.thread b).transaction = some u) :
    (t.trans u).deleted = false := by
  -- The transaction is the one `b` had, or a fresh one.
  have hold : (s.trans u).deleted = false := by
    by_cases hb : b = a
    · subst hb
      rcases h.transaction hu with hcur | ⟨rfl, -⟩
      · exact hs.current b u hcur
      · exact hs.fresh _ (Nat.le_refl _)
    · rw [h.frame.thread b hb] at hu
      exact hs.current b u hu
  rcases h.marks u with ⟨-, hdel, -⟩ | ⟨-, -, -, hdel, -⟩ | ⟨-, -, -, hdel, -⟩ | ⟨hcur, -, hnone, -⟩
  · rw [hdel]
    exact hold
  · exact hdel
  · rw [hdel]
    exact hold
  · by_cases hb : b = a
    · subst hb
      rw [hnone] at hu
      cases hu
    · rw [h.frame.thread b hb] at hu
      exact (hb (hi.distinct b a u hu hcur)).elim

theorem untouched_step (hs : ListInv s) (h : Effect true a s t)
    (site : Site) (ht : t.fault = some (.useAfterFree site)) : site = .leaveCollectionScope := by
  have listed : ∀ u ∈ s.transactions, (s.trans u).deleted = true → False := by
    intro u hu hd
    have := ((hs.exact u).mp hu).2
    simp [hd] at this
  cases h <;> simp at ht <;> try exact hs.untouched site ht
  case enterFault c i u hpc hi hd => grind
  case iterateFault c u hpc hu hd => exact (listed u hu hd).elim
  case conflictsFault u hpc hu hd => exact (listed u hu hd).elim
  case leaveFault => exact ht.symm

/-- The deletion of the script's transaction is not undone. -/
theorem Effect.deleted_zero (h : Effect true a s t)
    (hn : 0 < s.next) (hd : (s.trans 0).deleted = true) : (t.trans 0).deleted = true := by
  rcases h.marks 0 with ⟨-, hdel, -⟩ | ⟨hz, -⟩ | ⟨-, -, -, hdel, -⟩ | ⟨-, -, -, hdel, -⟩
  · rw [hdel]
    exact hd
  · exact absurd hz (Nat.ne_of_lt hn)
  · rw [hdel]
    exact hd
  · exact hdel

/-- A thread that does not exist yet can only be created. -/
theorem Effect.spawned_of_unborn {debug : Bool} (h : Effect debug a s t)
    (hpc : (s.thread a).pc = .unborn) : s.spawned = true := by
  cases h <;> try exact ‹s.spawned = true›
  case collect c hc => cases c <;> simp [hpc, Caller.resume] at hc
  all_goals simp_all

/-- Only the end of a commit takes the script from a thread, and it starts the workers. -/
theorem Effect.script (h : Effect true a s t) :
    ((t.thread a).script = (s.thread a).script ∧ t.spawned = s.spawned) ∨
    ((s.thread a).pc = .commit .commitUnlock ∧ (t.thread a).script = false ∧
      t.spawned = (s.spawned || (s.thread a).script)) := by
  cases h
  case scriptDone hpc hd hs => cases hd
  case commitUnlock hpc => exact .inr ⟨hpc, by simp, by simp⟩
  all_goals exact .inl ⟨by simp, by simp⟩

theorem boot_step (hs : ListInv s) (h : Effect true a s t) (ht : t.spawned = false) :
    (t.thread 0).script = true ∧
    (∀ b, b ≠ 0 → (t.thread b).pc = .unborn ∧ (t.thread b).script = false) ∧ BeforeSpawn t := by
  have hsp : s.spawned = false ∧ (t.thread a).script = (s.thread a).script := by
    rcases h.script with ⟨hscript, heq⟩ | ⟨-, hscript, heq⟩
    · exact ⟨heq ▸ ht, hscript⟩
    · obtain ⟨hold, hnone⟩ := Bool.or_eq_false_iff.1 (heq.symm.trans ht)
      exact ⟨hold, hscript.trans hnone.symm⟩
  obtain ⟨hscript, hborn, hbefore⟩ := hs.boot hsp.1
  have ha : a = 0 := by
    by_contra hne
    have := h.spawned_of_unborn (hborn a hne).1
    simp [hsp.1] at this
  subst ha
  refine ⟨hsp.2.trans hscript, ?_, ?_⟩
  · intro b hb
    rw [h.frame.thread b hb]
    exact hborn b hb
  · unfold BeforeSpawn at hbefore ⊢
    cases h <;> simp at ht ⊢
    all_goals grind [cases Caller, cases PauseReturn, Caller.resume, PauseReturn.resume, Pc.inTransaction]

theorem worker_step (hs : ListInv s) (h : Effect true a s t) (ht : t.spawned = true) :
    (∀ b, (t.thread b).script = false) ∧ (t.trans 0).deleted = true ∧ 0 < t.next := by
  cases hsp : s.spawned with
  | true =>
    obtain ⟨hscript, hdel, hn⟩ := hs.worker hsp
    refine ⟨?_, h.deleted_zero hn hdel, Nat.lt_of_lt_of_le hn h.frame.next⟩
    intro b
    by_cases hb : b = a
    · subst hb
      rcases h.script with ⟨heq, -⟩ | ⟨-, hnone, -⟩
      · rw [heq]
        exact hscript b
      · exact hnone
    · rw [h.frame.thread b hb]
      exact hscript b
  | false =>
    -- Only the end of the script's commit starts the workers.
    obtain ⟨hscript, hborn, hbefore⟩ := hs.boot hsp
    rcases h.script with ⟨-, heq⟩ | ⟨hpc, hnone, heq⟩
    · rw [heq, hsp] at ht
      cases ht
    have ha : a = 0 := by
      by_contra hne
      rw [heq, hsp, (hborn a hne).2] at ht
      cases ht
    subst ha
    obtain ⟨hn, hdel⟩ : 0 < s.next ∧ (s.trans 0).deleted = true := by
      simpa [BeforeSpawn, hpc, Pc.inTransaction] using hbefore
    refine ⟨?_, h.deleted_zero hn hdel, Nat.lt_of_lt_of_le hn h.frame.next⟩
    intro b
    by_cases hb : b = 0
    · rw [hb]
      exact hnone
    · rw [h.frame.thread b hb]
      exact (hborn b hb).2

theorem listInv_step {n : Nat} {m : Move} (hi : Inv s) (hs : ListInv s)
    (h : step true n s m = some t) : ListInv t := by
  have he := (step_effect h).2.2
  exact ⟨exact_step hi hs he, fresh_step hi hs he, current_step hi hs he, untouched_step hs he,
    boot_step hs he, worker_step hs he⟩

theorem listInv_reach {n : Nat} {p : State → Move → Prop}
    (h : Reach (step true n) p initial s) : ListInv s := by
  have hboth : Inv s ∧ ListInv s := by
    apply h.invariant (I := fun s => Inv s ∧ ListInv s) ⟨inv_initial, listInv_initial⟩
    intro s m t hs _ hstep
    exact ⟨inv_step hs.1 (step_effect hstep).2.2, listInv_step hs.1 hs.2 hstep⟩
  exact hboth.2

theorem exactList_of_inv (hi : Inv s) (hs : ListInv s) : ExactList s where
  exact _ := hs.exact
  nodup _ := hi.nodup
  untouched := hs.untouched
  script h := (hs.worker h).2.1

/-- A release build leaves the initial script's transaction open and keeps the
transaction of the next event in the list after deleting it. -/
def releaseRun : List Move :=
  [.call 0 .startTransaction, .advance 0, .advance 0, .advance 0, .call 0 .commitTransaction,
    .call 0 .startTransaction, .advance 0, .advance 0, .advance 0, .call 0 .commitTransaction,
    .advance 0, .advance 0, .advance 0, .advance 0, .advance 0, .advance 0, .advance 0, .advance 0]

theorem release_list_stale : ∃ s, Reach (step false 1) unguarded initial s ∧ s.transactionsMutex = none ∧
      1 ∈ s.transactions ∧ (s.trans 1).deleted = true := by
  obtain ⟨s, hs, hq⟩ := exists_reach_of_run (step false 1) unguarded initial releaseRun
    (fun s => s.transactionsMutex == none && s.transactions.contains 1 && (s.trans 1).deleted)
    (by decide +kernel)
  grind

/-- The list is exact in every reachable state of every number of threads just
in the builds that evaluate their assertions. -/
theorem transaction_list_exact_iff (debug : Bool) :
    (∀ n s, Reach (step debug n) unguarded initial s → ExactList s) ↔ debug = true := by
  constructor
  · intro hall
    cases debug with
    | true => rfl
    | false =>
      obtain ⟨s, hs, hm, hmem, hdel⟩ := release_list_stale
      have := (((hall 1 s hs).exact hm 1).mp hmem).2
      simp [hdel] at this
  · rintro rfl n s h
    exact exactList_of_inv (inv_reach h) (listInv_reach h)

theorem transaction_list_inexact : ¬ ∀ debug n s, Reach (step debug n) unguarded initial s → ExactList s := by
  intro hall
  obtain ⟨s, hs, hm, hmem, hdel⟩ := release_list_stale
  have := (((hall false 1 s hs).exact hm 1).mp hmem).2
  simp [hdel] at this

end W16.Handshake
