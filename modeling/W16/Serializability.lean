import Mathlib.Data.Fintype.Basic
import W16.Stm

/-!
# Serializability

Every live transaction sees the shared heap overlaid with its copies, and its
log is explained by the shared heap as it is now. A commit keeps this for every
transaction it does not abort, because the log touches only objects of the read
and write sets, unless it falls between `CreateCopy` and `Add` of another one:
that copy is taken but not yet in any set.
-/
namespace W16.Stm

open History Transition List Option

set_option linter.dupNamespace false

variable {τ Obj Field Val : Type*} [DecidableEq τ] [DecidableEq Obj] [DecidableEq Field]

/-- `u` has copied an object that `t` is about to overwrite, the copy is not
registered, and nothing else makes `t` abort `u`. -/
def lateCopy (t u : Transaction Obj Field Val) : Bool :=
  match u.pc with
  | .storeAdd o _ _ _ => !u.aborted && !hasConflicts u t && t.writeSet.objects.contains o
  | _ => false

/-- No commit falls between `CreateCopy` and `Add` of another transaction. -/
def CopyRegistered (stmAborts : Bool) (s : State τ Obj Field Val) : Move τ Obj Field Val → Prop
  | .commit a => ∀ t ∈ s.thread a, abortsAtCommit stmAborts s t = false →
    ∀ b, b ≠ a → ∀ u ∈ s.thread b, lateCopy t u = false
  | _ => True

instance [Fintype τ] (stmAborts : Bool) (s : State τ Obj Field Val) (m : Move τ Obj Field Val) :
    Decidable (CopyRegistered stmAborts s m) :=
  match m with
  | .start _ | .call _ _ | .advance _ => isTrue trivial
  | .commit a => inferInstanceAs (Decidable (∀ t ∈ s.thread a, abortsAtCommit stmAborts s t = false →
      ∀ b, b ≠ a → ∀ u ∈ s.thread b, lateCopy t u = false))

/-- The heap as a transaction sees it. -/
def view (heap : Heap Obj Field Val) (t : Transaction Obj Field Val) : Heap Obj Field Val :=
  fun o => (t.writeSet.getMapping o).getD (heap o)

/-- What the lookups of the current access have established. -/
def Located (heap : Heap Obj Field Val) (t : Transaction Obj Field Val) : Pc Obj Field Val → Prop
  | .loadReadSet o _ | .loadAdd o _ | .createCopy o _ _ => o ∉ t.writeSet.objects
  | .loadField o _ .copy | .storeField o _ _ => o ∈ t.writeSet.objects
  | .loadField o _ .original => o ∈ t.readSet.objects ∧ o ∉ t.writeSet.objects
  | .storeAdd o _ _ copy => o ∉ t.writeSet.objects ∧ copy = heap o
  | _ => True

structure LiveInv (heap : Heap Obj Field Val) (t : Transaction Obj Field Val) : Prop where
  nodup : t.writeSet.objects.Nodup
  explained : Explains heap t.log
  seen : execute heap t.log = view heap t
  tracked : ∀ x ∈ t.log, x.key ∈ t.readSet.objects ∨ x.key ∈ t.writeSet.objects
  located : Located heap t t.pc

theorem liveInv_new (heap : Heap Obj Field Val) : LiveInv heap {} where
  nodup := nodup_nil
  explained := trivial
  seen := rfl
  tracked := by simp
  located := trivial

section transaction

variable {heap heap' : Heap Obj Field Val} {t t' : Transaction Obj Field Val}

/-- Moving the program counter keeps everything but what the lookups say. -/
theorem LiveInv.goto (h : LiveInv heap t) (pc : Pc Obj Field Val) (hpc : Located heap t pc) :
    LiveInv heap { t with pc := pc } where
  nodup := h.nodup
  explained := h.explained
  seen := h.seen
  tracked := h.tracked
  located := by cases pc <;> exact hpc

variable {f : Field} {o : Obj}

/-- A finished load returned what the transaction sees. -/
theorem LiveInv.load (h : LiveInv heap t) {v : Val} (hv : v = view heap t o f)
    (ho : o ∈ t.readSet.objects ∨ o ∈ t.writeSet.objects) :
    LiveInv heap { t with pc := .ready, log := t.log ++ [.load o f v] } where
  nodup := h.nodup
  explained := by
    rw [explains_append]
    refine ⟨h.explained, ?_, trivial⟩
    rw [h.seen]
    exact hv.symm
  seen := by
    rw [execute_append]
    exact h.seen
  tracked := by
    intro x hx
    rcases mem_append.mp hx with hx | hx
    · exact h.tracked x hx
    · rw [mem_singleton.mp hx]
      exact ho
  located := trivial

theorem LiveInv.store (h : LiveInv heap t) {v : Val} (ho : o ∈ t.writeSet.objects) : LiveInv heap { t with
      writeSet := t.writeSet.modifyCell o (Function.update · f v)
      pc := .ready
      log := t.log ++ [.store o f v] } where
  nodup := by simpa using h.nodup
  explained := by
    rw [explains_append]
    exact ⟨h.explained, trivial, trivial⟩
  seen := by
    rw [execute_append, h.seen]
    funext k
    simp only [execute, foldl_cons, foldl_nil, Access.apply, write]
    by_cases hk : k = o
    · subst hk
      obtain ⟨copy, hcopy⟩ := isSome_iff_exists.mp ((CellMap.getMapping_isSome _ _).mpr ho)
      simp [view, CellMap.getMapping_modifyCell, hcopy]
    · simp [view, CellMap.getMapping_modifyCell, hk]
  tracked := by
    intro x hx
    simp only [CellMap.objects_modifyCell]
    rcases mem_append.mp hx with hx | hx
    · exact h.tracked x hx
    · rw [mem_singleton.mp hx]
      exact .inr ho
  located := trivial

/-- Registering a copy of the current contents changes nothing the transaction sees. -/
theorem LiveInv.add (h : LiveInv heap t) {v : Val} (ho : o ∉ t.writeSet.objects) :
    LiveInv heap { t with writeSet := t.writeSet.addMapping o (heap o), pc := .storeField o f v } where
  nodup := by
    simp only [CellMap.objects_addMapping]
    rw [nodup_append]
    refine ⟨h.nodup, nodup_singleton o, ?_⟩
    grind
  explained := h.explained
  seen := by
    rw [h.seen]
    funext k
    simp only [view, CellMap.getMapping_addMapping]
    by_cases hk : k = o
    · subst hk
      simp [(CellMap.getMapping_eq_none _ _).mpr ho]
    · simp [hk]
  tracked := by
    intro x hx
    rcases h.tracked x hx with hr | hw
    · exact .inl hr
    · exact .inr (by simp [hw])
  located := by simp [Located]

theorem LiveInv.addRead (h : LiveInv heap t) (ho : o ∉ t.writeSet.objects) :
    LiveInv heap { t with readSet := t.readSet.addMapping o o, pc := .loadField o f .original } where
  nodup := h.nodup
  explained := h.explained
  seen := h.seen
  tracked := by
    intro x hx
    rcases h.tracked x hx with hr | hw
    · exact .inl (by simp [hr])
    · exact .inr hw
  located := by simp [Located, ho]

omit [DecidableEq Field] in
theorem view_of_not_mem (ho : o ∉ t.writeSet.objects) : view heap t o = heap o := by
  simp [view, (CellMap.getMapping_eq_none _ _).mpr ho]

theorem liveInv_redirectLoad (h : LiveInv heap t) (hlive : t.aborted = false)
    (ht : redirectLoad heap t t.pc = some t') : LiveInv heap t' := by
  have hloc := h.located
  cases hpc : t.pc <;> rw [hpc] at ht hloc <;> simp only [redirectLoad] at ht <;> try cases ht
  case loadTest o f =>
    apply h.goto
    simp [hlive, Located]
  case loadWriteSet o f =>
    apply h.goto
    split
    · rename_i hm
      simpa [Located] using hm
    · rename_i hm
      simpa [Located] using hm
  case loadReadSet o f =>
    apply h.goto
    split
    · rename_i hm
      exact ⟨by simpa using hm, hloc⟩
    · exact hloc
  case loadAdd o f => exact h.addRead hloc
  case loadField o f cell =>
    cases cell with
    | copy =>
      simp only [map_eq_some_iff] at ht
      obtain ⟨copy, hcopy, rfl⟩ := ht
      exact h.load (by simp [view, hcopy]) (.inr hloc)
    | original =>
      cases ht
      exact h.load (by rw [view_of_not_mem hloc.2]) (.inl hloc.1)

theorem liveInv_redirectStore (h : LiveInv heap t) (hlive : t.aborted = false)
    (ht : redirectStore heap t t.pc = some t') : LiveInv heap t' := by
  have hloc := h.located
  cases hpc : t.pc <;> rw [hpc] at ht hloc <;> simp only [redirectStore] at ht <;> cases ht
  case storeTest o f v =>
    apply h.goto
    simp [hlive, Located]
  case storeWriteSet o f v =>
    apply h.goto
    split
    · rename_i hm
      simpa [Located] using hm
    · rename_i hm
      simpa [Located] using hm
  case createCopy o f v => exact h.goto _ ⟨hloc, rfl⟩
  case storeAdd o f v copy =>
    obtain ⟨ho, rfl⟩ := hloc
    exact h.add ho
  case storeField o f v => exact h.store hloc

omit [DecidableEq Field] in
theorem redirectLoad_aborted (ht : redirectLoad heap t t.pc = some t') : t'.aborted = t.aborted := by
  cases hpc : t.pc <;> rw [hpc] at ht <;> simp only [redirectLoad] at ht <;> try cases ht
  all_goals try rfl
  case loadField o f cell =>
    cases cell with
    | copy =>
      grind [map_eq_some_iff]
    | original =>
      cases ht
      rfl

theorem redirectStore_aborted (ht : redirectStore heap t t.pc = some t') : t'.aborted = t.aborted := by
  cases hpc : t.pc <;> rw [hpc] at ht <;> simp only [redirectStore] at ht <;> cases ht <;> rfl

/-- One step inside a live transaction. -/
theorem liveInv_transactionStep {c : Option (Call Obj Field Val)} (h : LiveInv heap t)
    (hlive : t.aborted = false) (ht : transactionStep heap t c = some t') : LiveInv heap t' := by
  cases c with
  | some c =>
    simp only [transactionStep, ite_none_right_eq_some, Option.some.injEq] at ht
    obtain ⟨-, rfl⟩ := ht
    cases c <;> exact h.goto _ trivial
  | none =>
    simp only [transactionStep, advance] at ht
    split at ht <;> first
      | exact liveInv_redirectLoad h hlive ht
      | exact liveInv_redirectStore h hlive ht
      | cases ht

theorem transactionStep_aborted {c : Option (Call Obj Field Val)}
    (ht : transactionStep heap t c = some t') : t'.aborted = t.aborted := by
  cases c with
  | some c =>
    simp only [transactionStep, ite_none_right_eq_some, Option.some.injEq] at ht
    obtain ⟨-, rfl⟩ := ht
    rfl
  | none =>
    simp only [transactionStep, advance] at ht
    split at ht <;> first
      | exact redirectLoad_aborted ht
      | exact redirectStore_aborted ht
      | cases ht

/-- A heap that agrees on the read and write sets, and on a copied object that is
not yet in them, is as good for a transaction. -/
theorem LiveInv.frame (h : LiveInv heap t)
    (hsets : ∀ o, o ∈ t.readSet.objects ∨ o ∈ t.writeSet.objects → heap' o = heap o)
    (hcopy : ∀ o f v copy, t.pc = .storeAdd o f v copy → heap' o = heap o) : LiveInv heap' t where
  nodup := h.nodup
  explained := h.explained.congr fun x hx => hsets _ (h.tracked x hx)
  seen := by
    funext o
    by_cases ho : o ∈ t.readSet.objects ∨ o ∈ t.writeSet.objects
    · rw [execute_congr t.log (hsets o ho), h.seen]
      simp only [view]
      rw [hsets o ho]
    · have hnot : ∀ x ∈ t.log, x.key ≠ o := by
        intro x hx he
        exact ho (he ▸ h.tracked x hx)
      rw [execute_of_not_mem heap' hnot, view_of_not_mem fun hw => ho (.inr hw)]
  tracked := h.tracked
  located := by
    have hloc := h.located
    cases hpc : t.pc <;> rw [hpc] at hloc
    case storeAdd o f v copy => exact ⟨hloc.1, hloc.2.trans (hcopy o f v copy hpc).symm⟩
    case loadField o f cell => cases cell <;> exact hloc
    all_goals exact hloc

theorem commitHeap_apply (h : LiveInv heap t) : commitHeap t heap = execute heap t.log := by
  rw [h.seen]
  funext o
  exact CellMap.commitChanges_update _ _ h.nodup o

omit [DecidableEq Field] in
theorem commitHeap_of_not_mem (hm : t.writeSet.objects.Nodup) (ho : o ∉ t.writeSet.objects) :
    commitHeap t heap o = heap o := by
  rw [commitHeap, CellMap.commitChanges_update _ _ hm, (CellMap.getMapping_eq_none _ _).mpr ho]
  rfl

/-- The commit of `t` keeps every other transaction that it does not abort. -/
theorem LiveInv.abortConflict {u : Transaction Obj Field Val} (ht : LiveInv heap t)
    (hu : LiveInv heap u) (hlate : lateCopy t u = false) (hlive : (abortConflict t u).aborted = false) :
    LiveInv (commitHeap t heap) (Stm.abortConflict t u) := by
  simp only [Stm.abortConflict, hasConflicts, Bool.or_eq_false_iff, CellMap.intersects_eq_false] at hlive
  obtain ⟨hu', hread, hwrite⟩ := hlive
  have hself : Stm.abortConflict t u = u := by
    simp [Stm.abortConflict, hasConflicts, (CellMap.intersects_eq_false _ _).mpr hread, (CellMap.intersects_eq_false _ _).mpr hwrite]
  rw [hself]
  apply hu.frame
  · intro o ho
    apply commitHeap_of_not_mem ht.nodup
    grind
  · intro o f v copy hpc
    apply commitHeap_of_not_mem ht.nodup
    simp_all [lateCopy, hasConflicts, CellMap.intersects_eq_false]

end transaction

/-- The committed transactions explain the heap, and every live one sees it. -/
structure SerialInv (h₀ : Heap Obj Field Val) (s : State τ Obj Field Val) : Prop where
  serial : Serial h₀ s.committed s.heap
  live : ∀ a t, s.thread a = some t → t.aborted = false → LiveInv s.heap t

omit [DecidableEq τ] in
theorem serialInv_initial (h₀ : Heap Obj Field Val) : SerialInv h₀ (initial τ h₀) where
  serial := serial_nil h₀
  live := by simp [initial]

section step

variable {h₀ : Heap Obj Field Val} {s s' : State τ Obj Field Val} {stmAborts : Bool}

theorem serialInv_startTransaction (hs : SerialInv h₀ s) {a : τ} (h : startTransaction s a = some s') :
    SerialInv h₀ s' := by
  unfold startTransaction at h
  split at h
  · cases h
    refine ⟨hs.serial, ?_⟩
    intro b t hb hlive
    by_cases hba : b = a
    · grind [liveInv_new]
    · simp only [Function.update_of_ne hba] at hb
      exact hs.live b t hb hlive
  · cases h

theorem serialInv_mutate (hs : SerialInv h₀ s) {a : τ} {c : Option (Call Obj Field Val)}
    (h : mutate s a c = some s') : SerialInv h₀ s' := by
  simp only [mutate, bind_eq_some_iff, map_eq_some_iff] at h
  obtain ⟨t, ht, t', htt, rfl⟩ := h
  refine ⟨hs.serial, ?_⟩
  intro b u hb hlive
  by_cases hba : b = a
  · subst hba
    simp at hb
    subst hb
    have hold : t.aborted = false := (transactionStep_aborted htt).symm.trans hlive
    exact liveInv_transactionStep (hs.live b t ht hold) hold htt
  · simp only [Function.update_of_ne hba] at hb
    exact hs.live b u hb hlive

theorem serialInv_commitTransaction (hs : SerialInv h₀ s) {a : τ} {committed : Bool}
    (hreg : CopyRegistered stmAborts s (.commit a))
    (h : commitTransaction stmAborts s a = some (committed, s')) : SerialInv h₀ s' := by
  unfold commitTransaction at h
  split at h
  · cases h
  rename_i t ht
  simp only [ite_none_right_eq_some] at h
  obtain ⟨-, h⟩ := h
  split at h
  · cases h
    refine ⟨hs.serial, ?_⟩
    intro b u hb hlive
    by_cases hba : b = a
    · subst hba
      simp at hb
    · simp only [Function.update_of_ne hba] at hb
      exact hs.live b u hb hlive
  · rename_i hab
    have hab' : abortsAtCommit stmAborts s t = false := by simpa using hab
    have halive : t.aborted = false := by
      simp_all [abortsAtCommit]
    have hlt := hs.live a t ht halive
    cases h
    constructor
    · simp only [commitHeap_apply hlt]
      exact hs.serial.snoc hlt.explained
    · intro b u' hb hlive
      by_cases hba : b = a
      · subst hba
        simp at hb
      · simp only [hba, if_false, map_eq_some_iff] at hb
        obtain ⟨u, hu, rfl⟩ := hb
        have hulive : u.aborted = false := by
          simp_all [abortConflict]
        exact hlt.abortConflict (hs.live b u hu hulive) (hreg t ht hab' b hba u hu) hlive

theorem serialInv_step (hs : SerialInv h₀ s) {m : Move τ Obj Field Val}
    (hm : CopyRegistered stmAborts s m) (h : step stmAborts s m = some s') : SerialInv h₀ s' := by
  cases m with
  | start a => exact serialInv_startTransaction hs h
  | call a c => exact serialInv_mutate hs h
  | advance a => exact serialInv_mutate hs h
  | commit a =>
    simp only [step, map_eq_some_iff] at h
    obtain ⟨⟨committed, s''⟩, hc, rfl⟩ := h
    exact serialInv_commitTransaction hs hm hc

end step

/-- In every run in which no commit falls between the copying and the registering
of an object it writes, the committed transactions, executed one after another in
commit order, read what they read and leave the heap that is there. -/
theorem serializable (stmAborts : Bool) (h₀ : Heap Obj Field Val) {s : State τ Obj Field Val}
    (h : Reach (step stmAborts) (CopyRegistered stmAborts) (initial τ h₀) s) :
    Serial h₀ s.committed s.heap := by
  have hs : SerialInv h₀ s :=
    h.invariant (serialInv_initial h₀) fun _ _ _ hs hm hstep => serialInv_step hs hm hstep
  exact hs.serial

/-- Thread `a` has stored into field 0 of object 0 and committed; thread `b`, which
has read the object, is aborted. -/
def conflictingRun (a b : τ) : List (Move τ Nat Nat Nat) :=
  [.start a, .start b, .call b (.load 0 0), .advance b, .advance b, .advance b, .advance b, .advance b,
    .call a (.store 0 0 5), .advance a, .advance a, .advance a, .advance a, .advance a,
    .commit a, .call b (.load 0 1), .advance b, .commit b]

theorem serializable_conflicting : ∃ s : State (Fin 2) Nat Nat Nat,
      Reach (step false) (CopyRegistered false) (initial (Fin 2) fun _ _ => 0) s ∧
      s.committed = [[.store 0 0 5]] ∧ Serial (fun _ _ => 0) s.committed s.heap := by
  obtain ⟨s, hs, hq⟩ := exists_reach_of_run (step false) (CopyRegistered false)
    (initial (Fin 2) fun _ _ => 0) (conflictingRun 0 1)
    (fun s => s.committed == [[Access.store 0 0 5]]) (by decide +kernel)
  exact ⟨s, hs, by simpa using hq, serializable false _ hs⟩

/-- Thread `b` commits its store into field 1 of object 0 after thread `a` has copied
the object and before it registers the copy. -/
def lostUpdate (a b : τ) : List (Move τ Nat Nat Nat) :=
  [.start a, .start b, .call a (.store 0 0 5), .advance a, .advance a, .advance a,
    .call b (.store 0 1 7), .advance b, .advance b, .advance b, .advance b, .advance b, .commit b,
    .advance a, .advance a, .commit a]

theorem not_serializable : ¬ ∀ s : State (Fin 2) Nat Nat Nat,
    Reach (step false) unguarded (initial (Fin 2) fun _ _ => 0) s →
      Serial (fun _ _ => 0) s.committed s.heap := by
  intro hall
  obtain ⟨s, hs, hq⟩ := exists_reach_of_run (step false) unguarded (initial (Fin 2) fun _ _ => 0)
    (lostUpdate 0 1)
    (fun s => s.committed == [[Access.store 0 1 7], [Access.store 0 0 5]] && s.heap 0 1 == 0)
    (by decide +kernel)
  simp only [Bool.and_eq_true, beq_iff_eq] at hq
  have hserial := (hall s hs).2
  rw [hq.1] at hserial
  have hfield := congrFun (congrFun hserial 0) 1
  rw [hq.2] at hfield
  simp [execute, Access.apply, write] at hfield

end W16.Stm
