import Mathlib.Logic.Function.Basic
import W16.SplayTreeOperations

/-!
# Runs on a splay tree

A run of operations shows what an ordered map would, where no entry is moved that is the
only one.
-/
namespace W16.SplayTrees

open Option Function

set_option linter.dupNamespace false

variable {K V : Type} [LinearOrder K]

/-- What clients do. Where an operation binds its locator, a value may be written through
it. -/
inductive Op (K V : Type) where
  | insert (key : K) (write : Option V)
  | find (key : K) (write : Option V)
  | findGreatestLessThan (key : K) (write : Option V)
  | findLeastGreaterThan (key : K) (write : Option V)
  | findGreatest (write : Option V)
  | findLeast (write : Option V)
  | move (oldKey newKey : K)
  | remove (key : K)
  | forEach

/-- What clients see: a result with what the locator is bound to, or what is visited. -/
inductive Out (K V : Type) where
  | result (found : Bool) (locator : Option (K × V))
  | visited (l : List (K × V))
  deriving DecidableEq

/-- `set_value` of a bound locator. -/
def write (t : Tree K V) : Option (K × V) → Option V → Tree K V
  | some x, some value => t.setValue x.1 value
  | _, _ => t

/-- The result of a search. -/
def searched (value : Option V) (r : Tree K V × Option (K × V)) : Tree K V × Out K V :=
  (write r.1 r.2 value, .result r.2.isSome r.2)

def step (noValue : V) (t : Tree K V) : Op K V → Option (Tree K V × Out K V)
  | .insert key value =>
    let r := t.insert noValue key
    some (write r.1 r.1.root value, .result r.2 r.1.root)
  | .find key value => some (searched value (t.find key))
  | .findGreatestLessThan key value => some (searched value (t.findGreatestLessThan key))
  | .findLeastGreaterThan key value => some (searched value (t.findLeastGreaterThan key))
  | .findGreatest value => some (searched value (t, t.findGreatest))
  | .findLeast value => some (searched value (t, t.findLeast))
  | .move oldKey newKey => (t.move oldKey newKey).map fun (t, moved) => (t, .result moved none)
  | .remove key =>
    let r := t.remove key
    some (r.1, .result r.2 none)
  | .forEach => t.forEach.map fun l => (t, .visited l)

def run (noValue : V) : Tree K V → List (Op K V) → Option (Tree K V × List (Out K V))
  | t, [] => some (t, [])
  | t, op :: ops => do
    let (t, out) ← step noValue t op
    let (t, outs) ← run noValue t ops
    some (t, out :: outs)

/-! ## Ordered maps -/

abbrev OrderedMap (K V : Type) := K → Option V

namespace OrderedMap

variable (A : OrderedMap K V)

def write (key : K) : Option V → OrderedMap K V
  | none => A
  | some value => Function.update A key (some value)

/-- A search for the best key with a property. -/
def Selects (P : K → Prop) (best : K → K → Prop) (value : Option V) (out : Out K V)
    (A' : OrderedMap K V) : Prop :=
  ((∀ k, A k ≠ none → ¬P k) ∧ out = .result false none ∧ A' = A) ∨
    ∃ k v, A k = some v ∧ P k ∧ (∀ k', A k' ≠ none → P k' → best k k') ∧
      out = .result true (some (k, v)) ∧ A' = A.write k value

/-- A step of an ordered map. -/
def Step (noValue : V) : Op K V → Out K V → OrderedMap K V → Prop
  | .insert key value, out, A' =>
    out = .result (A key).isNone (some (key, (A key).getD noValue)) ∧
      A' = (A.write key (some ((A key).getD noValue))).write key value
  | .find key value, out, A' => A.Selects (· = key) (fun _ _ => True) value out A'
  | .findGreatestLessThan key value, out, A' => A.Selects (· ≤ key) (fun k k' => k' ≤ k) value out A'
  | .findLeastGreaterThan key value, out, A' => A.Selects (key ≤ ·) (fun k k' => k ≤ k') value out A'
  | .findGreatest value, out, A' => A.Selects (fun _ => True) (fun k k' => k' ≤ k) value out A'
  | .findLeast value, out, A' => A.Selects (fun _ => True) (fun k k' => k ≤ k') value out A'
  | .move oldKey newKey, out, A' =>
    (A oldKey = none ∧ out = .result false none ∧ A' = A) ∨
      (A oldKey ≠ none ∧ A newKey ≠ none ∧ newKey ≠ oldKey ∧ out = .result false none ∧
        A' = Function.update A oldKey none) ∨
      ∃ v, A oldKey = some v ∧ (A newKey = none ∨ newKey = oldKey) ∧ out = .result true none ∧
        A' = Function.update (Function.update A oldKey none) newKey (some v)
  | .remove key, out, A' =>
    out = .result (A key).isSome none ∧ A' = Function.update A key none
  | .forEach, out, A' =>
    A' = A ∧ ∃ l, out = .visited l ∧ l.Pairwise (·.1 ≠ ·.1) ∧ ∀ k v, A k = some v ↔ (k, v) ∈ l

inductive Run (noValue : V) : OrderedMap K V → List (Op K V) → List (Out K V) → OrderedMap K V → Prop
  | nil (A : OrderedMap K V) : Run noValue A [] [] A
  | cons {A A' A'' : OrderedMap K V} {op : Op K V} {out : Out K V} {ops : List (Op K V)}
      {outs : List (Out K V)} :
      A.Step noValue op out A' → Run noValue A' ops outs A'' → Run noValue A (op :: ops) (out :: outs) A''

end OrderedMap

/-! ## Refinement -/

variable {noValue : V} {t t' : Tree K V} {A : OrderedMap K V}

def Represents (t : Tree K V) (A : OrderedMap K V) : Prop := ∀ k v, A k = some v ↔ (k, v) ∈ t.entries

omit [LinearOrder K] in
theorem Represents.ne_none (h : Represents t A) {k : K} : A k ≠ none ↔ ∃ x ∈ t.entries, x.1 = k := by
  rw [ne_none_iff_exists']
  constructor
  · rintro ⟨v, hv⟩
    exact ⟨(k, v), (h k v).1 hv, rfl⟩
  · rintro ⟨⟨k', v⟩, hx, rfl⟩
    exact ⟨v, (h k' v).2 hx⟩

omit [LinearOrder K] in
theorem Represents.of_entries (h : Represents t A) (hent : t'.entries = t.entries) : Represents t' A := by
  intro k v
  rw [hent]
  exact h k v

/-- One key gets a value. -/
theorem Represents.update (h : Represents t A) {key : K} {value : V}
    (hmem : ∀ x, x ∈ t'.entries ↔ x = (key, value) ∨ (x ∈ t.entries ∧ x.1 ≠ key)) :
    Represents t' (Function.update A key (some value)) := by
  intro k v
  rw [hmem, update_apply]
  split
  · next hk =>
    subst hk
    simp [eq_comm]
  · next hk =>
    rw [h]
    simp [hk]

/-- One key is removed. -/
theorem Represents.erase (h : Represents t A) {key : K}
    (hmem : ∀ x, x ∈ t'.entries ↔ x ∈ t.entries ∧ x.1 ≠ key) :
    Represents t' (Function.update A key none) := by
  intro k v
  rw [hmem, update_apply]
  split
  · next hk => simp [hk]
  · next hk =>
    rw [h]
    simp [hk]

theorem Represents.write (h : Represents t A) (ht : t.Ordered) {key : K} {v : V}
    (hkey : (key, v) ∈ t.entries) (value : Option V) :
    Represents (write t (some (key, v)) value) (A.write key value) ∧
      (write t (some (key, v)) value).Ordered := by
  cases value with
  | none => exact ⟨h, ht⟩
  | some value =>
    refine ⟨h.update fun x => ?_, Tree.ordered_setValue key value ht⟩
    rw [W16.SplayTrees.write, Tree.entries_setValue, List.mem_map]
    grind

/-- A search of the tree selects the entry. -/
theorem Represents.selects (h : Represents t A) (ht : t.Ordered) (P : K → Prop) (best : K → K → Prop)
    {r : Tree K V × Option (K × V)} (hent : r.1.entries = t.entries)
    (hsome : ∀ x, r.2 = some x → x ∈ t.entries ∧ P x.1 ∧ ∀ y ∈ t.entries, P y.1 → best x.1 y.1)
    (hnone : r.2 = none → ∀ x ∈ t.entries, ¬P x.1) (value : Option V) :
    ∃ A', A.Selects P best value (searched value r).2 A' ∧ Represents (searched value r).1 A' ∧
      (searched value r).1.Ordered := by
  obtain ⟨t', locator⟩ := r
  have ht' : t'.Ordered := by
    rw [Tree.Ordered, hent]
    exact ht
  have h' := h.of_entries hent
  cases locator with
  | none =>
    refine ⟨A, .inl ⟨fun k hk hP => ?_, rfl, rfl⟩, h', ht'⟩
    obtain ⟨x, hx, rfl⟩ := h.ne_none.1 hk
    exact hnone rfl x hx hP
  | some x =>
    obtain ⟨hx, hP, hbest⟩ := hsome x rfl
    obtain ⟨hwrite, hord⟩ := h'.write ht' (hent.symm ▸ hx : (x.1, x.2) ∈ t'.entries) value
    refine ⟨_, .inr ⟨x.1, x.2, (h x.1 x.2).2 hx, hP, fun k hk hPk => ?_, rfl, rfl⟩, hwrite, hord⟩
    obtain ⟨y, hy, rfl⟩ := h.ne_none.1 hk
    exact hbest y hy hPk

/-- The operation does not move the only entry. -/
def Sound (t : Tree K V) (op : Op K V) : Prop :=
  ∀ oldKey newKey v, op = .move oldKey newKey → t ≠ .node .nil oldKey v .nil

def SoundRun (noValue : V) : Tree K V → List (Op K V) → Prop
  | _, [] => True
  | t, op :: ops => Sound t op ∧ ∀ t' out, step noValue t op = some (t', out) → SoundRun noValue t' ops

/-- A tree with an entry that is not the only one has another key. -/
theorem exists_other (ht : t.Ordered) {key : K} (hne : ∀ v, t ≠ .node .nil key v .nil)
    (hkey : ∃ x ∈ t.entries, x.1 = key) : ∃ x ∈ t.entries, x.1 ≠ key := by
  by_contra hall
  push Not at hall
  cases t with
  | nil =>
    obtain ⟨x, hx, -⟩ := hkey
    cases hx
  | node l k v r =>
    obtain ⟨-, -, hl, hr⟩ := Tree.ordered_node.1 ht
    have hk : k = key := hall (k, v) (by simp)
    have hnil : l = .nil := Tree.eq_nil_of_entries (List.eq_nil_iff_forall_not_mem.2 fun x hx =>
      ne_of_lt (hl x hx) ((hall x (by simp [hx])).trans hk.symm))
    have hnir : r = .nil := Tree.eq_nil_of_entries (List.eq_nil_iff_forall_not_mem.2 fun x hx =>
      ne_of_gt (hr x hx) ((hall x (by simp [hx])).trans hk.symm))
    subst hk hnil hnir
    exact hne v rfl

theorem step_spec (ht : t.Ordered) (hA : Represents t A) {op : Op K V} (hsound : Sound t op) :
    ∃ t' out A', step noValue t op = some (t', out) ∧ A.Step noValue op out A' ∧ t'.Ordered ∧
      Represents t' A' := by
  cases op with
  | insert key value =>
    obtain ⟨hord, hcases⟩ := Tree.insert_spec noValue key ht
    rcases hcases with ⟨hb, hnew, hroot, hmem⟩ | ⟨hb, hent, v, hroot, hv⟩
    · have hnone : A key = none := by
        by_contra hsome
        obtain ⟨x, hx, hk⟩ := hA.ne_none.1 hsome
        exact hnew x hx hk
      have hA' : Represents (t.insert noValue key).1 (Function.update A key (some noValue)) := by
        refine hA.update fun x => (hmem x).trans (or_congr_right ?_)
        grind
      obtain ⟨hwrite, hord'⟩ := hA'.write hord ((hmem _).2 (.inl rfl)) value
      refine ⟨_, _, _, by rw [step, hroot, hb], ⟨?_, ?_⟩, hord', hwrite⟩
      · rw [hnone]
        rfl
      · rw [hnone]
        rfl
    · have hA' := hA.of_entries hent
      have hkey : A key = some v := (hA key v).2 hv
      obtain ⟨hwrite, hord'⟩ := hA'.write hord (hent.symm ▸ hv) value
      refine ⟨_, _, _, by rw [step, hroot, hb], ⟨?_, ?_⟩, hord', hwrite⟩
      · rw [hkey]
        rfl
      · rw [hkey, getD_some, OrderedMap.write.eq_2 A key v, ← hkey, update_eq_self]
  | find key value =>
    obtain ⟨hent, hsome, hnone⟩ := Tree.find_spec key ht
    obtain ⟨A', hstep, hA', ht'⟩ := hA.selects ht (· = key) (fun _ _ => True) hent
      (fun x hx => ⟨(hsome x hx).1, (hsome x hx).2, fun _ _ _ => trivial⟩) hnone value
    exact ⟨_, _, A', rfl, hstep, ht', hA'⟩
  | findGreatestLessThan key value =>
    obtain ⟨hent, hsome, hnone⟩ := Tree.findGreatestLessThan_spec key ht
    obtain ⟨A', hstep, hA', ht'⟩ := hA.selects ht (· ≤ key) (fun k k' => k' ≤ k)
      hent hsome (fun hn x hx => not_le_of_gt (hnone hn x hx)) value
    exact ⟨_, _, A', rfl, hstep, ht', hA'⟩
  | findLeastGreaterThan key value =>
    obtain ⟨hent, hsome, hnone⟩ := Tree.findLeastGreaterThan_spec key ht
    obtain ⟨A', hstep, hA', ht'⟩ := hA.selects ht (key ≤ ·) (fun k k' => k ≤ k')
      hent hsome (fun hn x hx => not_le_of_gt (hnone hn x hx)) value
    exact ⟨_, _, A', rfl, hstep, ht', hA'⟩
  | findGreatest value =>
    obtain ⟨hsome, hnone⟩ := Tree.findGreatest_spec ht
    obtain ⟨A', hstep, hA', ht'⟩ := hA.selects ht (fun _ => True) (fun k k' => k' ≤ k)
      (r := (t, t.findGreatest)) rfl
      (fun x hx => ⟨(hsome x hx).1, trivial, fun y hy _ => (hsome x hx).2 y hy⟩)
      (fun hn x hx => by rw [hnone hn] at hx; cases hx) value
    exact ⟨_, _, A', rfl, hstep, ht', hA'⟩
  | findLeast value =>
    obtain ⟨hsome, hnone⟩ := Tree.findLeast_spec ht
    obtain ⟨A', hstep, hA', ht'⟩ := hA.selects ht (fun _ => True) (fun k k' => k ≤ k')
      (r := (t, t.findLeast)) rfl
      (fun x hx => ⟨(hsome x hx).1, trivial, fun y hy _ => (hsome x hx).2 y hy⟩)
      (fun hn x hx => by rw [hnone hn] at hx; cases hx) value
    exact ⟨_, _, A', rfl, hstep, ht', hA'⟩
  | move oldKey newKey =>
    obtain ⟨t', b, hmove, ht', hcases⟩ := Tree.move_spec oldKey newKey ht
      (exists_other ht fun v => hsound oldKey newKey v rfl)
    rcases hcases with ⟨rfl, hnone, hent⟩ | ⟨rfl, hne, hold, hnew, hmem⟩ | ⟨v, rfl, hold, hfree, hmem⟩
    · refine ⟨t', _, A, by rw [step, hmove]; rfl, .inl ⟨?_, rfl, rfl⟩, ht', hA.of_entries hent⟩
      by_contra hsome
      obtain ⟨x, hx, hk⟩ := hA.ne_none.1 hsome
      exact hnone x hx hk
    · exact ⟨t', _, _, by rw [step, hmove]; rfl,
        .inr (.inl ⟨hA.ne_none.2 hold, hA.ne_none.2 hnew, hne, rfl, rfl⟩), ht', hA.erase hmem⟩
    · refine ⟨t', _, _, by rw [step, hmove]; rfl,
        .inr (.inr ⟨v, (hA oldKey v).2 hold, ?_, rfl, rfl⟩), ht', fun k w => ?_⟩
      · by_contra hboth
        push Not at hboth
        obtain ⟨x, hx, hk⟩ := hA.ne_none.1 hboth.1
        grind
      · rw [hmem, update_apply]
        split
        · grind
        · next hk =>
          rw [update_apply]
          split
          · grind
          · next hko =>
            rw [hA]
            simp [hk, hko]
  | remove key =>
    obtain ⟨ht', hb, hmem⟩ := Tree.remove_spec key ht
    refine ⟨_, _, _, rfl, ⟨?_, rfl⟩, ht', hA.erase hmem⟩
    have hiff : (t.remove key).2 = true ↔ (A key).isSome = true := by
      rw [hb, isSome_iff_ne_none, hA.ne_none]
    rw [Bool.eq_iff_iff.2 hiff]
  | forEach =>
    obtain ⟨visited, hvisit, hperm⟩ := t.forEach_spec
    refine ⟨t, _, A, by rw [step, hvisit]; rfl, ⟨rfl, visited, rfl, ?_, fun k v => ?_⟩, ht, hA⟩
    · exact (hperm.pairwise_iff (fun h => h.symm)).2 (ht.imp ne_of_lt)
    · rw [hperm.mem_iff]
      exact hA k v

theorem run_spec {ops : List (Op K V)} (ht : t.Ordered) (hA : Represents t A)
    (hsound : SoundRun noValue t ops) :
    ∃ t' outs A', run noValue t ops = some (t', outs) ∧ OrderedMap.Run noValue A ops outs A' ∧
      t'.Ordered ∧ Represents t' A' := by
  induction ops generalizing t A with
  | nil => exact ⟨t, [], A, rfl, .nil A, ht, hA⟩
  | cons op ops ih =>
    obtain ⟨t', out, A', hstep, hspec, ht', hA'⟩ := step_spec ht hA hsound.1
    obtain ⟨t'', outs, A'', hrun, hspecs, ht'', hA''⟩ := ih ht' hA' (hsound.2 t' out hstep)
    exact ⟨t'', out :: outs, A'', by rw [run, hstep]; simp [hrun], .cons hspec hspecs, ht'', hA''⟩

/-- A splay tree refines an ordered map in every run that moves no entry that is the only
one. -/
theorem splayTree_refines (noValue : V) (ops : List (Op K V)) (hsound : SoundRun noValue .nil ops) :
    ∃ t outs A, run noValue .nil ops = some (t, outs) ∧
      OrderedMap.Run noValue (fun _ => none) ops outs A ∧ t.Ordered ∧ Represents t A :=
  run_spec .nil (fun _ _ => ⟨fun h => (nomatch h), fun h => nomatch h⟩) hsound

/-- Two insertions, a search between them and a move. -/
theorem splayTree_refines_small : let ops : List (Op Nat Nat) :=
      [.insert 1 (some 10), .insert 5 none, .findGreatestLessThan 3 none, .move 1 7]
    ∃ t outs A, run 0 .nil ops = some (t, outs) ∧ OrderedMap.Run 0 (fun _ => none) ops outs A ∧
      t.Ordered ∧ Represents t A := by
  refine splayTree_refines 0 _ ⟨fun _ _ _ h => (nomatch h), ?_⟩
  rintro t out h
  obtain ⟨rfl, -⟩ := Prod.mk.inj (some.inj h)
  refine ⟨fun _ _ _ h => (nomatch h), ?_⟩
  rintro t out h
  obtain ⟨rfl, -⟩ := Prod.mk.inj (some.inj h)
  refine ⟨fun _ _ _ h => (nomatch h), ?_⟩
  rintro t out h
  obtain ⟨rfl, -⟩ := Prod.mk.inj (some.inj h)
  exact ⟨fun _ _ _ _ h => (nomatch h), fun _ _ _ => trivial⟩

/-- `Move` to a key that has a node deletes the entry that was to be moved. -/
theorem move_deletes : (run 0 .nil ([.insert 1 (some 10), .insert 5 (some 50), .move 1 5, .find 1 none] :
        List (Op Nat Nat))).map Prod.snd =
      some [.result true (some (1, 0)), .result true (some (5, 0)), .result false none,
        .result false none] := by decide

end W16.SplayTrees
