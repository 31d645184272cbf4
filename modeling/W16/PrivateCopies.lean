import W16.CellMap

/-!
# Property loads and stores of one transaction

`LoadIC::Load` redirects its receiver, `StoreIC::Store` its receiver and value,
and `KeyedStoreIC::Store` the key as well; then the property is looked up in, or
set on, the redirected receiver. References are original objects or the private
copies of the transaction, numbered in the order `CreateCopy` makes them; a copy
can be loaded back and copied in turn. A copy has the map of its object and so
the same prototypes, which are original objects.
-/
namespace W16.InlineCache

set_option linter.dupNamespace false

variable {Obj Name Prim : Type*}

inductive Ref (Obj : Type*) where
  | original (o : Obj)
  | copy (i : Nat)
  deriving DecidableEq, Repr

/-- Values with object references of type `ρ`. Functions are never redirected and
count as primitive values. -/
inductive Value (ρ Prim : Type*) where
  | undefined
  | primitive (p : Prim)
  | object (r : ρ)
  deriving DecidableEq, Repr

/-- The value is a non-function `JSObject`. -/
def Value.isObject {ρ : Type*} : Value ρ Prim → Bool
  | .object _ => true
  | _ => false

/-- A value of the program that no transaction has redirected. -/
def Value.original : Value Obj Prim → Value (Ref Obj) Prim
  | .undefined => .undefined
  | .primitive p => .primitive p
  | .object o => .object (.original o)

/-- The own properties of every object, without transactions. -/
abbrev PlainHeap (Obj Name Prim : Type*) := Obj → Name → Option (Value Obj Prim)

/-- The own properties of an object. -/
abbrev Contents (Obj Name Prim : Type*) := Name → Option (Value (Ref Obj) Prim)

def PlainHeap.original (heap : PlainHeap Obj Name Prim) : Obj → Contents Obj Name Prim :=
  fun o name => (heap o name).map Value.original

structure State (Obj Name Prim : Type*) where
  shared : Obj → Contents Obj Name Prim
  copies : Nat → Contents Obj Name Prim := fun _ _ => none
  next : Nat := 0
  readSet : CellMap (Ref Obj) (Ref Obj) := []
  writeSet : CellMap (Ref Obj) Nat := []

def State.contents (s : State Obj Name Prim) : Ref Obj → Contents Obj Name Prim
  | .original o => s.shared o
  | .copy i => s.copies i

variable [DecidableEq Obj]

def State.setContents (s : State Obj Name Prim) (r : Ref Obj) (c : Contents Obj Name Prim) :
    State Obj Name Prim :=
  match r with
  | .original o => { s with shared := Function.update s.shared o c }
  | .copy i => { s with copies := Function.update s.copies i c }

/-- `Transaction::RedirectLoad` of a transaction that is not aborted. -/
def redirectLoad (s : State Obj Name Prim) (obj : Ref Obj) : State Obj Name Prim × Ref Obj :=
  match s.writeSet.getMapping obj with
  | some i => (s, .copy i)
  | none =>
    match s.readSet.getMapping obj with
    | some r => (s, r)
    | none => ({ s with readSet := s.readSet.addMapping obj obj }, obj)

/-- `Transaction::RedirectStore`: the object's cell in the write set, which is added
with a fresh copy if there is none. -/
def redirectStore (s : State Obj Name Prim) (obj : Ref Obj) : State Obj Name Prim × Nat :=
  match s.writeSet.getMapping obj with
  | some i => (s, i)
  | none =>
    ({ s with
        copies := Function.update s.copies s.next (s.contents obj)
        next := s.next + 1
        writeSet := s.writeSet.addMapping obj s.next }, s.next)

/-- `RedirectStore` of any value: only non-function `JSObject`s are redirected. -/
def redirectValue (s : State Obj Name Prim) : Value (Ref Obj) Prim → State Obj Name Prim × Value (Ref Obj) Prim
  | .object r => ((redirectStore s r).1, .object (.copy (redirectStore s r).2))
  | v => (s, v)

variable [DecidableEq Name]

/-- `SetProperty` on a copy. -/
def setProperty (s : State Obj Name Prim) (i : Nat) (name : Name) (v : Value (Ref Obj) Prim) :
    State Obj Name Prim :=
  { s with copies := Function.update s.copies i (Function.update (s.copies i) name (some v)) }

/-- `StoreIC::Store`. -/
def store (s : State Obj Name Prim) (receiver : Ref Obj) (name : Name) (value : Value (Ref Obj) Prim) :
    State Obj Name Prim :=
  let object := redirectStore s receiver
  let value := redirectValue object.1 value
  setProperty value.1 object.2 name value.2

/-- `KeyedStoreIC::Store`, where the key converts to `name`. -/
def keyedStore (s : State Obj Name Prim) (receiver : Ref Obj) (key : Value (Ref Obj) Prim) (name : Name)
    (value : Value (Ref Obj) Prim) : State Obj Name Prim :=
  let object := redirectStore s receiver
  let key := redirectValue object.1 key
  let value := redirectValue key.1 value
  setProperty value.1 object.2 name value.2

/-- `Object::Lookup`: the first object of the chain that has the property. -/
def lookup (contents : Ref Obj → Contents Obj Name Prim) (chain : List (Ref Obj)) (name : Name) :
    Value (Ref Obj) Prim :=
  (chain.findSome? fun r => contents r name).getD .undefined

/-- `LoadIC::Load` from an original object: the receiver is redirected, the
prototypes are looked up where the maps point to. -/
def load (prototypes : Obj → List Obj) (s : State Obj Name Prim) (receiver : Obj) (name : Name) :
    State Obj Name Prim × Value (Ref Obj) Prim :=
  let object := redirectLoad s (.original receiver)
  (object.1, lookup object.1.contents (object.2 :: (prototypes receiver).map .original) name)

/-- `Transaction::CommitHeap`: every copy over its object, in insertion order. -/
def commitHeap (s : State Obj Name Prim) : State Obj Name Prim :=
  s.writeSet.commitChanges (fun s r i => s.setContents r (s.copies i)) s

end W16.InlineCache

/-!
## What the private copies hold

The copy of an original object holds the shared contents overlaid with what the
transaction has stored into the object, where every stored object reference has
become a reference to a private copy. Distinct objects have distinct copies, and a
copy is made before it can be copied in turn, so committing in insertion order
gives every original object the contents of its own copy.
-/
namespace W16.InlineCache

variable {Obj Name Prim : Type*}

/-- `x` is what `RedirectStore` makes of a stored value: objects become private
copies, everything else stays. -/
def Stands : Value (Ref Obj) Prim → Option (Value (Ref Obj) Prim) → Prop
  | .object _, x => ∃ i, x = some (.object (.copy i))
  | v, x => x = some v

/-- `x` is the field of a copy with shared value `w` into which `v` was stored last. -/
def Shows (v w x : Option (Value (Ref Obj) Prim)) : Prop :=
  match v with
  | none => x = w
  | some v => Stands v x

/-- The reference is an original object or a copy that exists. -/
def Allocated (s : State Obj Name Prim) : Ref Obj → Prop
  | .original _ => True
  | .copy i => i < s.next

def Value.Allocated (s : State Obj Name Prim) : Value (Ref Obj) Prim → Prop
  | .object r => InlineCache.Allocated s r
  | _ => True

variable {s t : State Obj Name Prim}

theorem Allocated.mono {r : Ref Obj} (h : Allocated s r) (hnext : s.next ≤ t.next) : Allocated t r := by
  cases r with
  | original o => trivial
  | copy i => exact Nat.lt_of_lt_of_le h hnext

theorem Value.Allocated.mono {v : Value (Ref Obj) Prim} (h : v.Allocated s)
    (hnext : s.next ≤ t.next) : v.Allocated t := by
  cases v with
  | object r => exact InlineCache.Allocated.mono h hnext
  | undefined => trivial
  | primitive p => trivial

variable [DecidableEq Obj]

/-- `stored o n` is the value that the transaction stored last into property `n` of
the original object `o`. -/
structure CopyInv (stored : Obj → Contents Obj Name Prim) (s : State Obj Name Prim) : Prop where
  bound : ∀ r i, s.writeSet.getMapping r = some i → i < s.next
  allocated : ∀ r ∈ s.writeSet.objects, Allocated s r
  nodup : s.writeSet.objects.Nodup
  distinct : ∀ r r' i, s.writeSet.getMapping r = some i → s.writeSet.getMapping r' = some i → r = r'
  order : s.writeSet.Pairwise fun p q => p.1 ≠ .copy q.2
  content : ∀ o i, s.writeSet.getMapping (.original o) = some i →
    ∀ n, Shows (stored o n) (s.shared o n) (s.copies i n)
  untouched : ∀ o, s.writeSet.getMapping (.original o) = none → ∀ n, stored o n = none

theorem copyInv_initial (shared : Obj → Contents Obj Name Prim) : CopyInv (fun _ _ => none) { shared } where
  bound := by simp [CellMap.getMapping]
  allocated := by simp
  nodup := List.nodup_nil
  distinct := by simp [CellMap.getMapping]
  order := List.Pairwise.nil
  content := by simp [CellMap.getMapping]
  untouched := by simp

/-- The mappings, the shared heap and the read set survive a redirection. -/
structure Extends (s t : State Obj Name Prim) : Prop where
  next : s.next ≤ t.next
  mapping : ∀ r i, s.writeSet.getMapping r = some i → t.writeSet.getMapping r = some i
  shared : t.shared = s.shared
  readSet : t.readSet = s.readSet

theorem Extends.refl (s : State Obj Name Prim) : Extends s s := ⟨Nat.le_refl _, fun _ _ h => h, rfl, rfl⟩

theorem Extends.trans {u : State Obj Name Prim} (h : Extends s t) (h' : Extends t u) : Extends s u :=
  ⟨Nat.le_trans h.next h'.next, fun r i hr => h'.mapping r i (h.mapping r i hr),
    h'.shared.trans h.shared, h'.readSet.trans h.readSet⟩

section redirect

variable {stored : Obj → Contents Obj Name Prim} {s : State Obj Name Prim}

theorem redirectStore_extends (s : State Obj Name Prim) (r : Ref Obj) : Extends s (redirectStore s r).1 := by
  unfold redirectStore
  split
  · exact .refl s
  · refine ⟨Nat.le_succ _, ?_, rfl, rfl⟩
    intro r' i hr'
    simp [CellMap.getMapping_addMapping, hr']

theorem redirectStore_mapping (s : State Obj Name Prim) (r : Ref Obj) :
    (redirectStore s r).1.writeSet.getMapping r = some (redirectStore s r).2 := by
  grind [redirectStore, CellMap.getMapping_addMapping]

/-- The new copy holds the contents of the object, into which nothing was stored. -/
theorem CopyInv.redirectStore (hs : CopyInv stored s) {r : Ref Obj} (hr : Allocated s r) :
    CopyInv stored (InlineCache.redirectStore s r).1 := by
  unfold InlineCache.redirectStore
  split
  · exact hs
  · rename_i hnone
    have hnew : r ∉ s.writeSet.objects := (CellMap.getMapping_eq_none _ _).mp hnone
    -- A mapping after the step is an old one, to an old copy, or the new one.
    have hmap : ∀ r' i, (s.writeSet.addMapping r s.next).getMapping r' = some i →
        (s.writeSet.getMapping r' = some i ∧ i < s.next) ∨ (r' = r ∧ i = s.next) := by
      intro r' i hi
      rw [CellMap.getMapping_addMapping] at hi
      cases hold : s.writeSet.getMapping r' with
      | some j =>
        simp only [hold, Option.some_or, Option.some.injEq] at hi
        subst hi
        exact .inl ⟨rfl, hs.bound r' j hold⟩
      | none =>
        grind
    constructor
    case bound =>
      grind
    case allocated =>
      intro r' hr'
      simp only [CellMap.objects_addMapping, List.mem_append, List.mem_singleton] at hr'
      rcases hr' with hold | rfl
      · exact (hs.allocated r' hold).mono (Nat.le_succ _)
      · exact hr.mono (Nat.le_succ _)
    case nodup =>
      simp only [CellMap.objects_addMapping, List.nodup_append]
      refine ⟨hs.nodup, List.nodup_singleton r, ?_⟩
      grind
    case distinct =>
      intro r₁ r₂ i h₁ h₂
      rcases hmap r₁ i h₁ with ⟨h₁, hlt₁⟩ | ⟨rfl, rfl⟩ <;>
        rcases hmap r₂ _ h₂ with ⟨h₂, hlt₂⟩ | ⟨rfl, hi⟩
      · exact hs.distinct r₁ r₂ i h₁ h₂
      · omega
      · omega
      · rfl
    case order =>
      simp only [CellMap.addMapping, List.pairwise_append, List.pairwise_singleton, List.mem_singleton]
      refine ⟨hs.order, trivial, ?_⟩
      rintro p hp q rfl hpq
      have halloc := hs.allocated p.1 (List.mem_map_of_mem hp)
      rw [hpq] at halloc
      exact Nat.lt_irrefl _ halloc
    case content =>
      intro o i hi n
      rcases hmap _ i hi with ⟨hold, hlt⟩ | ⟨rfl, rfl⟩
      · simp only [Function.update_of_ne (Nat.ne_of_lt hlt)]
        exact hs.content o i hold n
      · simp [hs.untouched o hnone n, Shows, State.contents]
    case untouched =>
      intro o ho n
      rw [CellMap.getMapping_addMapping, Option.or_eq_none_iff] at ho
      exact hs.untouched o ho.1 n

theorem redirectValue_extends (s : State Obj Name Prim) (v : Value (Ref Obj) Prim) :
    Extends s (redirectValue s v).1 := by
  cases v with
  | object r => exact redirectStore_extends s r
  | undefined => exact .refl s
  | primitive p => exact .refl s

theorem redirectValue_stands (s : State Obj Name Prim) (v : Value (Ref Obj) Prim) :
    Stands v (some (redirectValue s v).2) := by
  cases v with
  | object r => exact ⟨_, rfl⟩
  | undefined => rfl
  | primitive p => rfl

theorem CopyInv.redirectValue (hs : CopyInv stored s) {v : Value (Ref Obj) Prim} (hv : v.Allocated s) :
    CopyInv stored (InlineCache.redirectValue s v).1 := by
  cases v with
  | object r => exact hs.redirectStore hv
  | undefined => exact hs
  | primitive p => exact hs

end redirect

variable [DecidableEq Name]

/-- What the transaction has stored after one more store. -/
def record (stored : Obj → Contents Obj Name Prim) (receiver : Ref Obj) (name : Name)
    (v : Value (Ref Obj) Prim) : Obj → Contents Obj Name Prim :=
  match receiver with
  | .original o => Function.update stored o (Function.update (stored o) name (some v))
  | .copy _ => stored

section store

variable {stored : Obj → Contents Obj Name Prim} {s : State Obj Name Prim}

variable {receiver : Ref Obj}

theorem CopyInv.setProperty (hs : CopyInv stored s) {i : Nat}
    (hi : s.writeSet.getMapping receiver = some i) {v v' : Value (Ref Obj) Prim} (hv : Stands v (some v'))
    (name : Name) : CopyInv (record stored receiver name v) (InlineCache.setProperty s i name v') where
  bound := hs.bound
  allocated := hs.allocated
  nodup := hs.nodup
  distinct := hs.distinct
  order := hs.order
  content := by
    intro o j hj n
    have hold := hs.content o j hj n
    simp only [InlineCache.setProperty] at hj ⊢
    by_cases hr : receiver = .original o
    · -- The copy that was written is the one of `o`.
      subst hr
      rw [hi] at hj
      cases hj
      by_cases hn : n = name
      · subst hn
        simpa [record, Shows] using hv
      · simpa [record, hn] using hold
    · have hne : j ≠ i := by
        rintro rfl
        exact hr (hs.distinct receiver (.original o) j hi hj)
      have hrec : record stored receiver name v o = stored o := by
        cases receiver with
        | original o' =>
          refine Function.update_of_ne ?_ _ _
          rintro rfl
          exact hr rfl
        | copy k => rfl
      rw [hrec, Function.update_of_ne hne]
      exact hold
  untouched := by
    intro o ho n
    have hrec : record stored receiver name v o = stored o := by
      cases receiver with
      | original o' =>
        refine Function.update_of_ne ?_ _ _
        grind [InlineCache.setProperty]
      | copy k => rfl
    rw [hrec]
    exact hs.untouched o ho n

theorem CopyInv.store (hs : CopyInv stored s) {value : Value (Ref Obj) Prim}
    (hr : Allocated s receiver) (hv : value.Allocated s) (name : Name) :
    CopyInv (record stored receiver name value) (InlineCache.store s receiver name value) := by
  have h₁ := hs.redirectStore hr
  have e₁ := redirectStore_extends s receiver
  have h₂ := h₁.redirectValue (hv.mono e₁.next)
  have e₂ := redirectValue_extends (InlineCache.redirectStore s receiver).1 value
  exact h₂.setProperty (e₂.mapping _ _ (redirectStore_mapping s receiver)) (redirectValue_stands _ _) name

theorem CopyInv.keyedStore (hs : CopyInv stored s) {key value : Value (Ref Obj) Prim}
    (hr : Allocated s receiver) (hk : key.Allocated s) (hv : value.Allocated s) (name : Name) :
    CopyInv (record stored receiver name value) (InlineCache.keyedStore s receiver key name value) := by
  have h₁ := hs.redirectStore hr
  have e₁ := redirectStore_extends s receiver
  have h₂ := h₁.redirectValue (hk.mono e₁.next)
  have e₂ := e₁.trans (redirectValue_extends (InlineCache.redirectStore s receiver).1 key)
  have h₃ := h₂.redirectValue (hv.mono e₂.next)
  have hkey := (redirectValue_extends (InlineCache.redirectStore s receiver).1 key).mapping _ _
    (redirectStore_mapping s receiver)
  exact h₃.setProperty ((redirectValue_extends _ value).mapping _ _ hkey) (redirectValue_stands _ _) name

theorem store_shared (s : State Obj Name Prim) (receiver : Ref Obj) (name : Name)
    (value : Value (Ref Obj) Prim) : (InlineCache.store s receiver name value).shared = s.shared :=
  ((redirectStore_extends s receiver).trans (redirectValue_extends _ value)).shared

theorem store_readSet (s : State Obj Name Prim) (receiver : Ref Obj) (name : Name)
    (value : Value (Ref Obj) Prim) : (InlineCache.store s receiver name value).readSet = s.readSet :=
  ((redirectStore_extends s receiver).trans (redirectValue_extends _ value)).readSet

theorem keyedStore_shared (s : State Obj Name Prim) (receiver : Ref Obj) (key : Value (Ref Obj) Prim)
    (name : Name) (value : Value (Ref Obj) Prim) :
    (InlineCache.keyedStore s receiver key name value).shared = s.shared :=
  (((redirectStore_extends s receiver).trans (redirectValue_extends _ key)).trans
    (redirectValue_extends _ value)).shared

end store

omit [DecidableEq Name] in
/-- Committing in insertion order gives every original object the contents that its
copy had before the commit. -/
theorem commitChanges_shared (m : CellMap (Ref Obj) Nat) (s : State Obj Name Prim)
    (hm : m.objects.Nodup) (horder : m.Pairwise fun p q => p.1 ≠ .copy q.2) (o : Obj) :
    (m.commitChanges (fun s r i => s.setContents r (s.copies i)) s).shared o =
      match m.getMapping (.original o) with
      | some i => s.copies i
      | none => s.shared o := by
  induction m generalizing s with
  | nil => rfl
  | cons p m ih =>
    obtain ⟨r, i⟩ := p
    rw [CellMap.objects_cons, List.nodup_cons] at hm
    rw [List.pairwise_cons] at horder
    have hrest := ih (s.setContents r (s.copies i)) hm.2 horder.2
    simp only [CellMap.commitChanges, List.foldl_cons] at hrest ⊢
    rw [hrest, CellMap.getMapping_cons]
    by_cases hr : r = .original o
    · subst hr
      simp [(CellMap.getMapping_eq_none m _).mpr hm.1, State.setContents]
    · simp only [hr, if_false]
      cases hj : CellMap.getMapping m (.original o) with
      | none =>
        cases r with
        | original o' =>
          have hne : o ≠ o' := fun he => hr (he ▸ rfl)
          simp [State.setContents, hne]
        | copy k => rfl
      | some j =>
        -- The copy is made when its pair is added, so no earlier pair overwrites it.
        have hne : r ≠ .copy j := horder.1 _ (CellMap.mem_of_getMapping hj)
        cases r with
        | original o' => rfl
        | copy k =>
          have hkj : j ≠ k := fun he => hne (he ▸ rfl)
          simp [State.setContents, hkj]

end W16.InlineCache
