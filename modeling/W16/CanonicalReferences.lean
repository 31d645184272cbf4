import Mathlib.Data.Fintype.Basic
import Mathlib.Tactic.FinCases
import W16.PrivateCopies
import W16.Transition

/-!
# References after a commit

A stored object reference is redirected to a private copy, and the commit copies the
fields of the copies back as they are. So the shared heap stays free of references to
copies just when every object reference stored into an original object was
overwritten by something else before the commit.
-/
namespace W16.InlineCache

open Transition

set_option linter.dupNamespace false

variable {Obj Name Prim : Type*}

/-- A store through `StoreIC`, or through `KeyedStoreIC` with the given key. -/
structure StoreOp (Obj Name Prim : Type*) where
  receiver : Ref Obj
  key : Option (Value (Ref Obj) Prim) := none
  name : Name
  value : Value (Ref Obj) Prim

/-- The references of the operation exist. -/
structure StoreOp.Legal (s : State Obj Name Prim) (op : StoreOp Obj Name Prim) : Prop where
  receiver : Allocated s op.receiver
  key : ∀ k ∈ op.key, k.Allocated s
  value : op.value.Allocated s

/-- Every object reference in a field of a shared object is an original object. -/
def Canonical (s : State Obj Name Prim) : Prop :=
  ∀ o n r, s.shared o n = some (.object r) → ∃ o', r = .original o'

instance (s : State Obj Name Prim) (r : Ref Obj) : Decidable (Allocated s r) :=
  match r with
  | .original _ => isTrue trivial
  | .copy i => inferInstanceAs (Decidable (i < s.next))

instance (s : State Obj Name Prim) (v : Value (Ref Obj) Prim) : Decidable (v.Allocated s) :=
  match v with
  | .undefined | .primitive _ => isTrue trivial
  | .object r => inferInstanceAs (Decidable (Allocated s r))

instance (s : State Obj Name Prim) (op : StoreOp Obj Name Prim) : Decidable (op.Legal s) :=
  decidable_of_iff (Allocated s op.receiver ∧ (∀ k ∈ op.key, k.Allocated s) ∧ op.value.Allocated s)
    ⟨fun h => ⟨h.1, h.2.1, h.2.2⟩, fun h => ⟨h.receiver, h.key, h.value⟩⟩

variable [DecidableEq Obj] [DecidableEq Name]

def StoreOp.apply (s : State Obj Name Prim) (op : StoreOp Obj Name Prim) : State Obj Name Prim :=
  match op.key with
  | none => store s op.receiver op.name op.value
  | some key => keyedStore s op.receiver key op.name op.value

def storeStep (s : State Obj Name Prim) (op : StoreOp Obj Name Prim) : Option (State Obj Name Prim) :=
  if op.Legal s then some (op.apply s) else none

/-- The value of the last store into each property of each original object. -/
def lastStored (stored : Obj → Contents Obj Name Prim) (ops : List (StoreOp Obj Name Prim)) :
    Obj → Contents Obj Name Prim :=
  ops.foldl (fun stored op => record stored op.receiver op.name op.value) stored

variable {s : State Obj Name Prim} {stored : Obj → Contents Obj Name Prim}

theorem CopyInv.apply (hs : CopyInv stored s) {op : StoreOp Obj Name Prim} (hop : op.Legal s) :
    CopyInv (record stored op.receiver op.name op.value) (op.apply s) := by
  unfold StoreOp.apply
  split
  · exact hs.store hop.receiver hop.value op.name
  · rename_i key hkey
    exact hs.keyedStore hop.receiver (hop.key key hkey) hop.value op.name

theorem apply_shared (s : State Obj Name Prim) (op : StoreOp Obj Name Prim) :
    (op.apply s).shared = s.shared := by
  grind [StoreOp.apply, store_shared, keyedStore_shared]

theorem copyInv_run {t : State Obj Name Prim}
    (ops : List (StoreOp Obj Name Prim)) (hs : CopyInv stored s) (h : run storeStep s ops = some t) :
    CopyInv (lastStored stored ops) t ∧ t.shared = s.shared := by
  induction ops generalizing stored s with
  | nil =>
    cases h
    exact ⟨hs, rfl⟩
  | cons op ops ih =>
    simp only [run, storeStep, Option.bind_eq_some_iff, Option.ite_none_right_eq_some, Option.some.injEq] at h
    obtain ⟨u, ⟨hop, rfl⟩, hrest⟩ := h
    obtain ⟨hinv, hshared⟩ := ih (hs.apply hop) hrest
    exact ⟨hinv, hshared.trans (apply_shared s op)⟩

omit [DecidableEq Name] in
theorem commitHeap_shared (hs : CopyInv stored s) (o : Obj) (n : Name) :
    Shows (stored o n) (s.shared o n) ((commitHeap s).shared o n) := by
  rw [commitHeap, commitChanges_shared _ _ hs.nodup hs.order]
  cases hi : s.writeSet.getMapping (.original o) with
  | some i => exact hs.content o i hi n
  | none => simp [hs.untouched o hi n, Shows]

/-- After a commit the shared heap refers to original objects only, if and only if the
last store into every property of an original object stored no object. -/
theorem references_canonical_iff (heap : PlainHeap Obj Name Prim) (ops : List (StoreOp Obj Name Prim))
    {s : State Obj Name Prim} (h : run storeStep { shared := heap.original } ops = some s) :
    Canonical (commitHeap s) ↔ ∀ o n v, lastStored (fun _ _ => none) ops o n = some v → v.isObject = false := by
  obtain ⟨hs, hshared⟩ := copyInv_run ops (copyInv_initial heap.original) h
  constructor
  · intro hcanon o n v hv
    cases v with
    | undefined => rfl
    | primitive p => rfl
    | object r =>
      have hshow := commitHeap_shared hs o n
      rw [hv] at hshow
      obtain ⟨i, hi⟩ := hshow
      obtain ⟨o', ho'⟩ := hcanon o n _ hi
      cases ho'
  · intro hlast o n r hr
    have hshow := commitHeap_shared hs o n
    rw [hr] at hshow
    cases hv : lastStored (fun _ _ => none) ops o n with
    | none =>
      -- An untouched property is what it was, and no reference was a copy then.
      rw [hv, hshared] at hshow
      simp only [Shows, PlainHeap.original] at hshow
      cases hw : heap o n with
      | none => simp [hw] at hshow
      | some w =>
        cases w <;> simp [hw, Value.original] at hshow
        exact ⟨_, hshow⟩
    | some v =>
      rw [hv] at hshow
      have hobj := hlast o n v hv
      cases v <;> simp [Shows, Stands, Value.isObject] at hshow hobj

/-- An object reference is stored and overwritten by a primitive value. -/
def overwrittenStore (a b : Obj) : List (StoreOp Obj Unit Unit) :=
  [{ receiver := .original a, name := (), value := .object (.original b) },
    { receiver := .original a, key := some (.primitive ()), name := (), value := .primitive () }]

theorem references_canonical_overwritten : ∃ s, run storeStep { shared := PlainHeap.original fun _ _ => none }
        (overwrittenStore (0 : Fin 2) 1) = some s ∧
      Canonical (commitHeap s) := by
  obtain ⟨s, hs⟩ := Option.isSome_iff_exists.mp (show (run storeStep
    { shared := PlainHeap.original fun _ _ => none } (overwrittenStore (0 : Fin 2) 1)).isSome = true by
      decide +kernel)
  refine ⟨s, hs, (references_canonical_iff _ (overwrittenStore 0 1) hs).mpr ?_⟩
  intro o n v hv
  fin_cases o
  · have hlast : lastStored (fun _ _ => none) (overwrittenStore (0 : Fin 2) 1) 0 () =
        some (.primitive ()) := by rfl
    cases hlast.symm.trans hv
    rfl
  · have hlast : lastStored (fun _ _ => none) (overwrittenStore (0 : Fin 2) 1) 1 () = none := by rfl
    cases hlast.symm.trans hv

/-- `a.x = b`. -/
def aliasStore (a b : Obj) : List (StoreOp Obj Unit Unit) :=
  [{ receiver := .original a, name := (), value := .object (.original b) }]

theorem references_not_canonical : ¬ ∀ (ops : List (StoreOp (Fin 2) Unit Unit)) s,
      run storeStep { shared := PlainHeap.original fun _ _ => none } ops = some s →
      Canonical (commitHeap s) := by
  intro hall
  obtain ⟨s, hs⟩ := Option.isSome_iff_exists.mp (show (run storeStep
    { shared := PlainHeap.original fun _ _ => none } (aliasStore (0 : Fin 2) 1)).isSome = true by
      decide +kernel)
  have hfield : (commitHeap s).shared 0 () = some (.object (.copy 1)) := by
    cases hs
    rfl
  obtain ⟨o, ho⟩ := hall (aliasStore 0 1) s hs 0 () _ hfield
  cases ho

end W16.InlineCache
