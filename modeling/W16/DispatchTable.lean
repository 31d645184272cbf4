import Mathlib
import W16.SplayTreeRuns

/-!
# Sets of small integers in a zone

`OutSet` keeps the values below 32 in a word and the others in a list. A set that extends
another one begins with its list, by reference.
-/
namespace W16.DispatchTables

open List Option

set_option linter.dupNamespace false

/-- `remaining_` and `successors_` may be `NULL`; a list of values is named by its place in
the zone. -/
structure OutSet where
  first : BitVec 32
  remaining : Option Nat
  successors : Option (List Nat)

/-- The sets and the lists of values that have been allocated. -/
structure Zone where
  sets : List OutSet
  lists : List (List Nat)

def kFirstLimit : Nat := 32

namespace Zone

variable (z : Zone) (o : Nat) (value : Nat)

def list (l : Nat) : List Nat := z.lists.getD l []

/-- `Get` of the set at `o`. -/
def get : Bool :=
  match z.sets[o]? with
  | none => false
  | some s =>
    if value < kFirstLimit then s.first.getLsbD value
    else
      match s.remaining with
      | none => false
      | some l => (z.list l).contains value

/-- `Set` of the set at `o`. -/
def set : Zone :=
  if value < kFirstLimit then
    { z with sets := z.sets.modify o fun s => { s with first := s.first ||| (1 : BitVec 32) <<< value } }
  else
    match (z.sets[o]?).bind OutSet.remaining with
    | none =>
      { sets := z.sets.modify o fun s => { s with remaining := some z.lists.length }
        lists := z.lists ++ [[value]] }
    | some l =>
      if (z.list l).isEmpty || !(z.list l).contains value then
        { z with lists := z.lists.modify l (· ++ [value]) }
      else z

/-- `successors()->Add(result)`. -/
def addSuccessor (result : Nat) : Zone :=
  { z with sets := z.sets.modify o fun s =>
      { s with successors := some (s.successors.getD [] ++ [result]) } }

/-- `Extend` of the set at `o`. -/
def extend : Zone × Nat :=
  if z.get o value then (z, o)
  else
    match z.sets[o]? with
    | none => (z, o)
    | some s =>
      match (s.successors.getD []).find? fun successor => z.get successor value with
      | some successor => (z, successor)
      | none =>
        let result := z.sets.length
        let z : Zone := { z with sets := z.sets ++ [⟨s.first, s.remaining, none⟩] }
        ((z.set result value).addSuccessor o result, result)

end Zone

/-! ## Values of sets -/

variable {z z' : Zone} {o o' v w : Nat} {s : OutSet}

/-- The values of a set record. -/
def Zone.values (z : Zone) (s : OutSet) (v : Nat) : Bool :=
  if v < kFirstLimit then s.first.getLsbD v
  else
    match s.remaining with
    | none => false
    | some l => (z.list l).contains v

theorem get_of_getElem? (h : z.sets[o]? = some s) (v : Nat) : z.get o v = z.values s v := by
  rw [Zone.get, h]
  rfl

/-- Lists hold the values from 32 on, successors have one value more, and all references
are to what has been allocated. -/
structure Good (z : Zone) : Prop where
  remaining : ∀ {o l : Nat} {s : OutSet}, z.sets[o]? = some s → s.remaining = some l →
    l < z.lists.length ∧ z.list l ≠ [] ∧ ∀ v ∈ z.list l, kFirstLimit ≤ v
  successors : ∀ {o o' : Nat} {s : OutSet}, z.sets[o]? = some s → o' ∈ s.successors.getD [] →
    o' < z.sets.length ∧ ∃ u, z.get o u = false ∧ ∀ v, z.get o' v = (z.get o v || decide (v = u))

/-- Sets keep their values. -/
structure Extends (z z' : Zone) : Prop where
  length : z.sets.length ≤ z'.sets.length
  get : ∀ o < z.sets.length, ∀ v, z'.get o v = z.get o v

theorem Extends.refl (z : Zone) : Extends z z := ⟨le_rfl, fun _ _ _ => rfl⟩

theorem Extends.trans {z₁ z₂ z₃ : Zone} (h₁ : Extends z₁ z₂) (h₂ : Extends z₂ z₃) : Extends z₁ z₃ :=
  ⟨le_trans h₁.length h₂.length, fun o ho v =>
    (h₂.get o (lt_of_lt_of_le ho h₁.length) v).trans (h₁.get o ho v)⟩

/-- The values of a record do not depend on its successors or on lists added later. -/
theorem values_congr {s' : OutSet} (hfirst : s'.first = s.first) (hrem : s'.remaining = s.remaining)
    (hlist : ∀ l, s.remaining = some l → z'.list l = z.list l) (v : Nat) :
    z'.values s' v = z.values s v := by
  rw [Zone.values, Zone.values, hfirst, hrem]
  grind

/-! ## Extending a set -/

/-- The zone with a new set that is a successor of the one at `o`. -/
def withSuccessor (z : Zone) (o : Nat) (s' : OutSet) (extra : List (List Nat)) : Zone :=
  Zone.addSuccessor { sets := z.sets ++ [s'], lists := z.lists ++ extra } o z.sets.length

section WithSuccessor

variable {s' : OutSet} {extra : List (List Nat)} (hz : Good z) (ho : z.sets[o]? = some s)

theorem getElem?_withSuccessor (i : Nat) : (withSuccessor z o s' extra).sets[i]? =
      ((z.sets ++ [s'])[i]?).map fun s => if o = i then
        { s with successors := some (s.successors.getD [] ++ [z.sets.length]) } else s := by
  rw [withSuccessor, Zone.addSuccessor, List.getElem?_modify]
  simp

theorem length_withSuccessor : (withSuccessor z o s' extra).sets.length = z.sets.length + 1 := by
  simp [withSuccessor, Zone.addSuccessor]

theorem list_withSuccessor {l : Nat} (hl : l < z.lists.length) :
    (withSuccessor z o s' extra).list l = z.list l := by
  show (z.lists ++ extra).getD l [] = z.lists.getD l []
  grind

include hz in
theorem extends_withSuccessor : Extends z (withSuccessor z o s' extra) := by
  refine ⟨by rw [length_withSuccessor]; omega, fun i hi v => ?_⟩
  obtain ⟨q, hq⟩ : ∃ q, z.sets[i]? = some q := ⟨_, List.getElem?_eq_getElem hi⟩
  have hq' : (withSuccessor z o s' extra).sets[i]? = _ := getElem?_withSuccessor i
  rw [List.getElem?_append_left hi, hq, map_some] at hq'
  rw [get_of_getElem? hq, get_of_getElem? hq']
  refine values_congr ?_ ?_ (fun l hl => list_withSuccessor (hz.remaining hq hl).1) v
  · split <;> rfl
  · split <;> rfl

include ho in
theorem getElem?_new : (withSuccessor z o s' extra).sets[z.sets.length]? = some s' := by
  have hlt : o < z.sets.length := (List.getElem?_eq_some_iff.1 ho).1
  rw [getElem?_withSuccessor, List.getElem?_append_right (Nat.le_refl _), Nat.sub_self]
  grind

include hz ho in
/-- A new set with one value more keeps the zone good. -/
theorem good_withSuccessor (hv : z.get o v = false) (hsuccs : s'.successors = none)
    (hrem : ∀ {l}, s'.remaining = some l → l < (z.lists ++ extra).length ∧
      (z.lists ++ extra).getD l [] ≠ [] ∧ ∀ v ∈ (z.lists ++ extra).getD l [], kFirstLimit ≤ v)
    (hvals : ∀ w, (withSuccessor z o s' extra).values s' w = (z.get o w || decide (w = v))) :
    Good (withSuccessor z o s' extra) ∧ ∀ w, (withSuccessor z o s' extra).get z.sets.length w =
        (z.get o w || decide (w = v)) := by
  have hext : Extends z (withSuccessor z o s' extra) := extends_withSuccessor hz
  have hnew : (withSuccessor z o s' extra).sets[z.sets.length]? = some s' :=
    getElem?_new ho
  have hget : ∀ w, (withSuccessor z o s' extra).get z.sets.length w =
      (z.get o w || decide (w = v)) := fun w => (get_of_getElem? hnew w).trans (hvals w)
  refine ⟨⟨?_, ?_⟩, hget⟩
  · intro i l q hq hl
    by_cases hi : i < z.sets.length
    · rw [getElem?_withSuccessor, List.getElem?_append_left hi, map_eq_some_iff] at hq
      obtain ⟨q', hq', rfl⟩ := hq
      have hl' : q'.remaining = some l := by
        split at hl <;> exact hl
      obtain ⟨hlen, hne, hlarge⟩ := hz.remaining hq' hl'
      rw [list_withSuccessor hlen]
      exact ⟨lt_of_lt_of_le hlen (by simp [withSuccessor, Zone.addSuccessor]), hne, hlarge⟩
    · have hin : i = z.sets.length := by
        have := (List.getElem?_eq_some_iff.1 hq).1
        rw [length_withSuccessor] at this
        omega
      subst hin
      obtain rfl := some.inj (hnew.symm.trans hq)
      exact hrem hl
  · intro i o' q hq ho'
    by_cases hi : i < z.sets.length
    · rw [getElem?_withSuccessor, List.getElem?_append_left hi, map_eq_some_iff] at hq
      obtain ⟨q', hq', rfl⟩ := hq
      have hold : o' ∈ q'.successors.getD [] → o' < (withSuccessor z o s' extra).sets.length ∧
            ∃ u, (withSuccessor z o s' extra).get i u = false ∧ ∀ v, (withSuccessor z o s' extra).get o' v =
                ((withSuccessor z o s' extra).get i v || decide (v = u)) := by
        intro hmem
        obtain ⟨hlen, u, hu, hall⟩ := hz.successors hq' hmem
        refine ⟨lt_of_lt_of_le hlen hext.length, u, by rw [hext.get i hi, hu], fun v => ?_⟩
        rw [hext.get o' hlen, hext.get i hi, hall]
      split at ho'
      · next hoi =>
        subst hoi
        simp only [getD_some, mem_append, mem_singleton] at ho'
        rcases ho' with ho' | rfl
        · exact hold ho'
        · refine ⟨by rw [length_withSuccessor]; omega, v, by rw [hext.get o hi, hv], fun w => ?_⟩
          rw [hget, hext.get o hi]
      · exact hold ho'
    · have hin : i = z.sets.length := by
        grind [length_withSuccessor]
      grind

end WithSuccessor

/-- Setting a value of the last set. -/
theorem set_last (s : OutSet) (lists : List (List Nat)) (v : Nat) :
    (v < kFirstLimit → Zone.set ⟨z.sets ++ [s], lists⟩ z.sets.length v =
      ⟨z.sets ++ [{ s with first := s.first ||| (1 : BitVec 32) <<< v }], lists⟩) ∧
    (¬v < kFirstLimit → s.remaining = none → Zone.set ⟨z.sets ++ [s], lists⟩ z.sets.length v =
      ⟨z.sets ++ [{ s with remaining := some lists.length }], lists ++ [[v]]⟩) := by
  have hmodify : ∀ f : OutSet → OutSet, (z.sets ++ [s]).modify z.sets.length f = z.sets ++ [f s] := by
    intro f
    apply ext_getElem?
    intro i
    rw [List.getElem?_modify]
    rcases lt_trichotomy i z.sets.length with hi | rfl | hi
    · have hne : z.sets.length ≠ i := by omega
      grind
    · simp
    grind
  constructor
  · intro hv
    rw [Zone.set, if_pos hv, hmodify]
  · simp_all [Zone.set]

/-- What `Extend` is to give: a set with the value, where all others are as before. -/
structure Extended (z : Zone) (o v : Nat) (r : Zone × Nat) : Prop where
  good : Good r.1
  extends_zone : Extends z r.1
  lt : r.2 < r.1.sets.length
  get : ∀ w, r.1.get r.2 w = (z.get o w || decide (w = v))

/-- A new set whose record has one value more. -/
theorem extended_withSuccessor (hz : Good z) (hs : z.sets[o]? = some s) (hv : z.get o v = false)
    {s' : OutSet} {extra : List (List Nat)} (hsuccs : s'.successors = none)
    (hrem : ∀ {l}, s'.remaining = some l → l < (z.lists ++ extra).length ∧
      (z.lists ++ extra).getD l [] ≠ [] ∧ ∀ v ∈ (z.lists ++ extra).getD l [], kFirstLimit ≤ v)
    (hvals : ∀ w, (withSuccessor z o s' extra).values s' w = (z.values s w || decide (w = v))) :
    Extended z o v (withSuccessor z o s' extra, z.sets.length) := by
  obtain ⟨hgood, hget⟩ := good_withSuccessor hz hs hv hsuccs hrem
    fun w => by rw [hvals, get_of_getElem? hs]
  exact ⟨hgood, extends_withSuccessor hz, by rw [length_withSuccessor]; exact Nat.lt_succ_self _, hget⟩

theorem getLsbD_setBit (b : BitVec 32) {v w : Nat} (hw : w < 32) :
    (b ||| (1 : BitVec 32) <<< v).getLsbD w = (b.getLsbD w || decide (w = v)) := by
  grind -linarith

/-- A small value goes into the word. -/
theorem extended_small (hz : Good z) (hs : z.sets[o]? = some s) (hv : z.get o v = false)
    (hsmall : v < kFirstLimit) :
    Extended z o v (withSuccessor z o ⟨s.first ||| (1 : BitVec 32) <<< v, s.remaining, none⟩ [],
      z.sets.length) := by
  refine extended_withSuccessor hz hs hv rfl (fun hl => ?_) fun w => ?_
  · rw [append_nil]
    exact hz.remaining hs hl
  · rw [Zone.values, Zone.values]
    split
    · next hw => exact getLsbD_setBit s.first hw
    · next hw =>
      have hne : w ≠ v := by
        rintro rfl
        exact hw hsmall
      cases hl : s.remaining with
      | none => simp [hne]
      | some l =>
        simp only [list_withSuccessor (hz.remaining hs hl).1, hne, decide_false, Bool.or_false]

/-- The first large value of a set begins a new list. -/
theorem extended_large (hz : Good z) (hs : z.sets[o]? = some s) (hv : z.get o v = false)
    (hlarge : ¬v < kFirstLimit) (hnone : s.remaining = none) :
    Extended z o v (withSuccessor z o ⟨s.first, some z.lists.length, none⟩ [[v]], z.sets.length) := by
  refine extended_withSuccessor hz hs hv rfl (fun hl => ?_) fun w => ?_
  · grind
  · have hlist : (withSuccessor z o ⟨s.first, some z.lists.length, none⟩ [[v]]).list z.lists.length = [v] := by
      show (z.lists ++ [[v]]).getD z.lists.length [] = [v]
      simp
    rw [Zone.values, Zone.values, hnone]
    grind

/-- A set that has no other large value is extended without touching the lists that are
there. -/
theorem extend_spec (hz : Good z) (ho : o < z.sets.length)
    (hlarge : kFirstLimit ≤ v → ∀ w, z.get o w = true → kFirstLimit ≤ w → w = v) :
    Extended z o v (z.extend o v) := by
  obtain ⟨s, hs⟩ : ∃ s, z.sets[o]? = some s := ⟨_, List.getElem?_eq_getElem ho⟩
  by_cases hv : z.get o v = true
  · rw [Zone.extend, if_pos hv]
    refine ⟨hz, .refl z, ho, fun w => ?_⟩
    grind -linarith
  · have hv : z.get o v = false := by simpa using hv
    rw [Zone.extend, hv, hs]
    simp only [Bool.false_eq_true, if_false]
    cases hfind : (s.successors.getD []).find? fun successor => z.get successor v with
    | some o' =>
      obtain ⟨hlen, u, hu, hall⟩ := hz.successors hs (mem_of_find?_eq_some hfind)
      have hget : z.get o' v = true := by simpa using find?_some hfind
      have huv : v = u := by
        grind -linarith
      exact ⟨hz, .refl z, hlen, fun w => by rw [hall, huv]⟩
    | none =>
      by_cases hsmall : v < kFirstLimit
      · have heq : withSuccessor z o ⟨s.first ||| (1 : BitVec 32) <<< v, s.remaining, none⟩ [] =
            Zone.addSuccessor (Zone.set ⟨z.sets ++ [⟨s.first, s.remaining, none⟩], z.lists⟩
              z.sets.length v) o z.sets.length := by
          simp [set_last, withSuccessor, hsmall]
        exact heq ▸ extended_small hz hs hv hsmall
      · have hnone : s.remaining = none := by
          by_contra hsome
          obtain ⟨l, hl⟩ := ne_none_iff_exists'.1 hsome
          obtain ⟨-, hne, hall⟩ := hz.remaining hs hl
          obtain ⟨w, hw⟩ := exists_mem_of_ne_nil _ hne
          have hget : z.get o w = true := by
            simp [get_of_getElem?, Zone.values, hs, hall, hw, hl]
          grind -linarith
        have heq : withSuccessor z o ⟨s.first, some z.lists.length, none⟩ [[v]] =
            Zone.addSuccessor (Zone.set ⟨z.sets ++ [⟨s.first, s.remaining, none⟩], z.lists⟩
              z.sets.length v) o z.sets.length := by
          simp [set_last, withSuccessor, hsmall, hnone]
        exact heq ▸ extended_large hz hs hv hsmall hnone

/-! ## A set of its own -/

/-- A zone with one set, which may have a list. -/
structure Alone (z : Zone) : Prop where
  sets : ∃ s, z.sets = [s] ∧ (s.remaining = none ∧ z.lists = [] ∨ s.remaining = some 0 ∧ ∃ l, z.lists = [l])

theorem get_alone {lists : List (List Nat)} (w : Nat) :
    Zone.get ⟨[s], lists⟩ 0 w = Zone.values ⟨[s], lists⟩ s w := get_of_getElem? rfl w

/-- `Set` adds the value and no other. -/
theorem alone_set (h : Alone z) (v : Nat) :
    Alone (z.set 0 v) ∧ ∀ w, (z.set 0 v).get 0 w = (z.get 0 w || decide (w = v)) := by
  obtain ⟨sets, lists⟩ := z
  obtain ⟨s, hs, hlists⟩ := h
  obtain rfl : sets = [s] := hs
  by_cases hv : v < kFirstLimit
  · rw [Zone.set, if_pos hv]
    refine ⟨⟨_, rfl, hlists⟩, fun w => ?_⟩
    show Zone.get ⟨[{ s with first := s.first ||| (1 : BitVec 32) <<< v }], lists⟩ 0 w = _
    rw [get_alone, get_alone, Zone.values, Zone.values]
    by_cases hw : w < kFirstLimit
    · rw [if_pos hw, if_pos hw]
      exact getLsbD_setBit s.first hw
    · have hne : w ≠ v := by
        rintro rfl
        exact hw hv
      rw [if_neg hw, if_neg hw, decide_eq_false hne, Bool.or_false]
      rfl
  · rw [Zone.set, if_neg hv]
    rcases hlists with ⟨hnone, hempty⟩ | ⟨hsome, l, hl⟩
    · obtain rfl : lists = [] := hempty
      have hbind : (([s] : List OutSet)[0]?).bind OutSet.remaining = none := hnone
      simp only [hbind]
      refine ⟨⟨_, rfl, .inr ⟨rfl, [v], rfl⟩⟩, fun w => ?_⟩
      show Zone.get ⟨[{ s with remaining := some 0 }], [[v]]⟩ 0 w = _
      rw [get_alone, get_alone, Zone.values, Zone.values, hnone]
      by_cases hw : w < kFirstLimit
      · grind -linarith
      · rw [if_neg hw, if_neg hw, Bool.false_or]
        show [v].contains w = _
        by_cases heq : w = v <;> simp [heq]
    · obtain rfl : lists = [l] := hl
      have hbind : (([s] : List OutSet)[0]?).bind OutSet.remaining = some 0 := hsome
      have hlist : Zone.list ⟨[s], [l]⟩ 0 = l := rfl
      simp only [hbind, hlist]
      split
      · refine ⟨⟨_, rfl, .inr ⟨hsome, l ++ [v], rfl⟩⟩, fun w => ?_⟩
        rw [get_alone, get_alone, Zone.values, Zone.values, hsome]
        by_cases hw : w < kFirstLimit
        · grind -linarith
        · rw [if_neg hw, if_neg hw]
          show (l ++ [v]).contains w = (l.contains w || decide (w = v))
          by_cases heq : w = v <;> simp [heq]
      · next hin =>
        refine ⟨⟨_, rfl, .inr ⟨hsome, l, rfl⟩⟩, fun w => ?_⟩
        simp_all [get_alone, Zone.values]

end W16.DispatchTables

/-!
## Dispatch tables

`DispatchTable` keeps in a splay tree, for disjoint ranges of characters, the sets of values
that were added for them. A reference to an entry is the key of its node.
-/
namespace W16.DispatchTables

open SplayTrees (Tree Represents OrderedMap)

/-- Both ends belong to the range. -/
structure CharacterRange where
  from_ : Nat
  to_ : Nat
  deriving DecidableEq

structure Entry where
  from_ : Nat
  to_ : Nat
  outSet : Nat
  deriving DecidableEq

/-- The set of `Config::kNoValue` is `NULL`; it is not read. -/
def kNoValue : Entry := ⟨0, 0, 0⟩

/-- The set at 0 is `empty_`. -/
structure DispatchTable where
  tree : Tree Nat Entry
  zone : Zone

def kMaxUC16CharCode : Nat := 0xffff

/-- A conversion to `uc16`. -/
def uc16 (n : Nat) : Nat := n % 2 ^ 16

/-- The value of the node with the key. -/
def entryAt (tree : Tree Nat Entry) (key : Nat) : Option Entry :=
  (tree.entries.find? fun x => x.1 = key).map (·.2)

/-- `tree()->Insert(key, &ins)`. -/
def insertKey (tree : Tree Nat Entry) (key : Nat) : Tree Nat Entry := (tree.insert kNoValue key).1

/-- `ins.set_value(entry)`, where `ins` is bound to the root. -/
def setRoot (tree : Tree Nat Entry) (entry : Entry) : Tree Nat Entry :=
  match tree.root with
  | none => tree
  | some x => tree.setValue x.1 entry

namespace DispatchTable

variable (d : DispatchTable)

/-- A new range with the one value. -/
def addFree (range : CharacterRange) (value : Nat) : DispatchTable :=
  let r := d.zone.extend 0 value
  { tree := setRoot (insertKey d.tree range.from_) ⟨range.from_, range.to_, r.2⟩, zone := r.1 }

/-- The step before the loop of `AddRange`: a range that begins to the left of `from` and
overlaps is snapped in half. -/
def splitLeft (from_ : Nat) : Option DispatchTable :=
  match d.tree.findGreatestLessThan from_ with
  | (tree, none) => some { d with tree := tree }
  | (tree, some (k, entry)) =>
    if entry.from_ < from_ ∧ entry.to_ ≥ from_ then do
      let left : CharacterRange := ⟨entry.from_, uc16 (from_ + (2 ^ 16 - 1))⟩
      let right : CharacterRange := ⟨from_, entry.to_⟩
      let tree := insertKey (tree.setValue k { entry with to_ := left.to_ }) right.from_
      let entry ← entryAt tree k
      some { d with tree := setRoot tree ⟨right.from_, right.to_, entry.outSet⟩ }
    else some { d with tree := tree }

/-- The part of the entry at `k` behind `to` is snapped off. -/
def splitRight (k to_ : Nat) : Option DispatchTable := do
  let entry ← entryAt d.tree k
  if entry.to_ > to_ then
    let tree := insertKey d.tree (uc16 (to_ + 1))
    let entry ← entryAt tree k
    let tree := setRoot tree ⟨uc16 (to_ + 1), entry.to_, entry.outSet⟩
    let entry ← entryAt tree k
    some { d with tree := tree.setValue k { entry with to_ := to_ } }
  else some d

/-- `entry->AddValue(value)` of the entry at `k`. -/
def addValue (k value : Nat) : Option DispatchTable := do
  let entry ← entryAt d.tree k
  let r := d.zone.extend entry.outSet value
  some { tree := d.tree.setValue k { entry with outSet := r.2 }, zone := r.1 }

/-- The loop of `AddRange`. It has no result where it does not end. -/
def addRangeLoop (value : Nat) : Nat → CharacterRange → DispatchTable → Option DispatchTable
  | 0, _, _ => none
  | fuel + 1, current, d =>
    if current.from_ ≤ current.to_ then
      match d.tree.findLeastGreaterThan current.from_ with
      | (tree, none) => some (addFree { d with tree := tree } current value)
      | (tree, some (k, entry)) =>
        if entry.from_ ≤ current.to_ ∧ entry.to_ ≥ current.from_ then do
          let d : DispatchTable := { d with tree := tree }
          let d := if current.from_ < entry.from_ then
              d.addFree ⟨current.from_, uc16 (entry.from_ + (2 ^ 16 - 1))⟩ value
            else d
          let d ← d.splitRight k current.to_
          let d ← d.addValue k value
          let entry ← entryAt d.tree k
          if entry.to_ = kMaxUC16CharCode then some d
          else addRangeLoop value fuel ⟨uc16 (entry.to_ + 1), current.to_⟩ d
        else some (addFree { d with tree := tree } current value)
    else some d

/-- `AddRange`. Each round of the loop begins further right. -/
def addRange (fullRange : CharacterRange) (value : Nat) : Option DispatchTable :=
  match d.tree with
  | .nil => some (d.addFree fullRange value)
  | .node .. => do
    let d ← d.splitLeft fullRange.from_
    addRangeLoop value (2 ^ 16 + 1) fullRange d

/-- `Get`: the set, and the tree as it has been splayed. -/
def get (value : Nat) : DispatchTable × Nat :=
  match d.tree.findGreatestLessThan value with
  | (tree, none) => ({ d with tree := tree }, 0)
  | (tree, some (_, entry)) => ({ d with tree := tree }, if value ≤ entry.to_ then entry.outSet else 0)

/-- `ForEach`. -/
def forEach : Option (List (Nat × Entry)) := d.tree.forEach

/-- The empty table. -/
def initial : DispatchTable := ⟨.nil, ⟨[⟨0, none, none⟩], []⟩⟩

end DispatchTable

end W16.DispatchTables
