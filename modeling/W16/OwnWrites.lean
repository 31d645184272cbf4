import W16.PrivateCopies

/-!
# Reading one's own writes

A transaction performs stores and loads on original objects while other transactions
commit changes to objects it does not track. Its loads are compared with those of a
sequential execution of the same accesses on a plain heap that changes in the same
way. `LoadIC::Load` redirects the receiver only: a property stored into a prototype
is in the prototype's copy, and the lookup does not go there.
-/
namespace W16.InlineCache

open Option

set_option linter.dupNamespace false

variable {Obj Name Prim : Type*}

/-- An access of the transaction, or a commit of another one that gives `o` the
properties `c`. -/
inductive Event (Obj Name Prim : Type*) where
  | store (o : Obj) (n : Name) (v : Value Obj Prim)
  | load (o : Obj) (n : Name)
  | commitOther (o : Obj) (c : Name → Option (Value Obj Prim))

/-- The object is in the read or the write set. -/
def tracked [DecidableEq Obj] (s : State Obj Name Prim) (o : Obj) : Bool :=
  (s.readSet.getMapping (.original o)).isSome || (s.writeSet.getMapping (.original o)).isSome

variable [DecidableEq Obj] [DecidableEq Name]

def write (heap : PlainHeap Obj Name Prim) (o : Obj) (n : Name) (v : Value Obj Prim) :
    PlainHeap Obj Name Prim :=
  Function.update heap o (Function.update (heap o) n (some v))

/-- The state of a transaction against what it has stored and what is shared. -/
structure TraceInv (stored shared : PlainHeap Obj Name Prim) (s : State Obj Name Prim) : Prop where
  copies : CopyInv stored.original s
  shared : s.shared = shared.original
  reads : ∀ r r', s.readSet.getMapping r = some r' → r' = r

/-- The plain heap that a sequential execution has reached. -/
def overlay (stored shared : PlainHeap Obj Name Prim) : PlainHeap Obj Name Prim :=
  fun o n => (stored o n).or (shared o n)

section load

variable {stored shared : PlainHeap Obj Name Prim} {s : State Obj Name Prim}

omit [DecidableEq Name] in
theorem TraceInv.redirectLoad (hs : TraceInv stored shared s) (r : Ref Obj) :
    TraceInv stored shared (InlineCache.redirectLoad s r).1 := by
  unfold InlineCache.redirectLoad
  split
  · exact hs
  · split
    · exact hs
    · refine ⟨⟨hs.copies.bound, hs.copies.allocated, hs.copies.nodup, hs.copies.distinct,
        hs.copies.order, hs.copies.content, hs.copies.untouched⟩, hs.shared, ?_⟩
      intro r₁ r₂ h
      rw [CellMap.getMapping_addMapping] at h
      cases hold : s.readSet.getMapping r₁ with
      | some r₃ =>
        simp only [hold, some_or, Option.some.injEq] at h
        exact h ▸ hs.reads r₁ r₃ hold
      | none =>
        grind

omit [DecidableEq Name] in
/-- The redirected receiver shows what the transaction stored into it. -/
theorem TraceInv.receiver (hs : TraceInv stored shared s) (o : Obj) (n : Name) :
    Shows (stored.original o n) (shared.original o n) ((InlineCache.redirectLoad s (.original o)).1.contents
        (InlineCache.redirectLoad s (.original o)).2 n) := by
  unfold InlineCache.redirectLoad
  cases hw : s.writeSet.getMapping (.original o) with
  | some i =>
    rw [← hs.shared]
    exact hs.copies.content o i hw n
  | none =>
    have hnone := hs.copies.untouched o hw n
    cases hr : s.readSet.getMapping (.original o) with
    | some r =>
      rw [hnone, hs.reads _ r hr]
      simp [Shows, State.contents, hs.shared]
    | none =>
      rw [hnone]
      simp [Shows, State.contents, hs.shared]

end load

section trace

variable {stored shared : PlainHeap Obj Name Prim} {s : State Obj Name Prim}

theorem record_original (stored : PlainHeap Obj Name Prim) (o : Obj) (n : Name) (v : Value Obj Prim) :
    record stored.original (.original o) n v.original = (write stored o n v).original := by
  funext o' n'
  by_cases ho : o' = o
  · subst ho
    by_cases hn : n' = n
    · subst hn
      simp [record, write, PlainHeap.original]
    · simp [record, write, PlainHeap.original, hn]
  · simp [record, write, PlainHeap.original, ho]

theorem TraceInv.store (hs : TraceInv stored shared s) (o : Obj) (n : Name) (v : Value Obj Prim) :
    TraceInv (write stored o n v) shared (InlineCache.store s (.original o) n v.original) where
  copies := by
    rw [← record_original]
    refine hs.copies.store (show Allocated s (.original o) from trivial) ?_ n
    cases v <;> trivial
  shared := (store_shared s _ _ _).trans hs.shared
  reads := by
    rw [store_readSet]
    exact hs.reads

omit [DecidableEq Name] in
/-- A commit of another transaction does not reach the objects that have a copy. -/
theorem TraceInv.commitOther (hs : TraceInv stored shared s) {o : Obj} (ho : tracked s o = false)
    (c : Name → Option (Value Obj Prim)) :
    TraceInv stored (Function.update shared o c)
      { s with shared := Function.update s.shared o fun n => (c n).map Value.original } where
  copies := by
    refine ⟨hs.copies.bound, hs.copies.allocated, hs.copies.nodup, hs.copies.distinct,
      hs.copies.order, ?_, hs.copies.untouched⟩
    intro o' i hi n
    have hne : o' ≠ o := by
      grind [tracked]
    simp only [Function.update_of_ne hne]
    exact hs.copies.content o' i hi n
  shared := by
    funext o' n
    by_cases he : o' = o
    · subst he
      simp [PlainHeap.original]
    · simp [PlainHeap.original, he, hs.shared]
  reads := hs.reads

end trace

end W16.InlineCache
