import W16.IndexedLists
import W16.ValueSlots
import Mathlib.Data.List.Forall2

/-!
# The arrays of the value map

`HValueMap` stores the first value of a position in `array_` and the others in lists through
`lists_`, where the free elements are one more list. An operation fails where an index is out of
bounds or an assertion does not hold.
-/
namespace W16.ValueMap

open IndexedLists ValueSlots List

set_option linter.dupNamespace false

/-- What the map calls of its values. The hash code is cast to `uint32_t`. -/
structure HValue (V : Type) where
  flags : V → BitVec 32
  hashcode : V → BitVec 32
  equals : V → V → Bool

/-- `none` is `kNil`, the end of a list. -/
structure HValueMapListElement (V : Type) where
  value : Option V
  next : Option Nat

/-- `array_size_` and `lists_size_` are the lengths of the arrays. -/
structure HValueMap (V : Type) where
  array : List (HValueMapListElement V)
  lists : List (HValueMapListElement V)
  count : Int
  presentFlags : BitVec 32
  freeListHead : Option Nat

def kInitialSize : Nat := 16

def convertChangesToDependsFlags (flags : BitVec 32) : BitVec 32 := flags <<< 1

def bound (arraySize : Nat) (hash : BitVec 32) : Nat := hash.toNat &&& (arraySize - 1)

/-- `NewArray` and `memset`. -/
def zeroed (V : Type) (size : Nat) : List (HValueMapListElement V) :=
  replicate size ⟨none, some 0⟩

namespace HValueMap

variable {V : Type} (H : HValue V) (m : HValueMap V)

/-- An element becomes the head of the free list. -/
def free (i : Nat) : Option (HValueMap V) :=
  (m.lists[i]?).bind fun e =>
    some { m with lists := m.lists.set i { e with next := m.freeListHead }, freeListHead := some i }

def resizeLists (newSize : Nat) : Option (HValueMap V) :=
  if m.lists.length < newSize then
    let added := newSize - m.lists.length
    (List.range' m.lists.length added).foldlM free { m with lists := m.lists ++ zeroed V added }
  else none

/-- Both `Insert` and `Resize` make sure of a free element. -/
def ensureFree : Option (HValueMap V) :=
  if m.freeListHead = none then m.resizeLists (m.lists.length * 2) else some m

/-- `Insert` of a collision. The assertion reads the element that was the first of the list. -/
def insertCollision (pos : Nat) (direct : HValueMapListElement V) (v : V) : Option (HValueMap V) :=
  m.freeListHead.bind fun new => (m.lists[new]?).bind fun e =>
    let lists := m.lists.set new ⟨some v, direct.next⟩
    if direct.next.all fun next => ((lists[next]?).bind fun e => e.value).isSome then
      some { m with
        lists := lists
        freeListHead := e.next
        array := m.array.set pos { direct with next := some new } }
    else none

/-- `Insert` after the table has been resized. -/
def insertInRoom (v : V) : Option (HValueMap V) :=
  if m.count < m.array.length then
    let pos := bound m.array.length (H.hashcode v)
    let counted := { m with count := m.count + 1 }
    (m.array[pos]?).bind fun direct =>
      match direct.value with
      | none => some { counted with array := m.array.set pos ⟨some v, none⟩ }
      | some _ => counted.ensureFree.bind fun t => t.insertCollision pos direct v
  else none

/-- The loop of `Resize` over a list, with a bound on its length. The next index is read after the
insertion, and the element is then free. -/
def rehashChain (insert : HValueMap V → V → Option (HValueMap V)) :
    Nat → HValueMap V → Option Nat → Option (HValueMap V)
  | _, m, none => some m
  | 0, _, some _ => none
  | bound + 1, m, some current =>
    (m.lists[current]?).bind fun e => e.value.bind fun v =>
      (insert m v).bind fun t => (t.lists[current]?).bind fun e =>
        (t.free current).bind fun u => rehashChain insert bound u e.next

def rehashDirect (insert : HValueMap V → V → Option (HValueMap V)) (m : HValueMap V)
    (direct : HValueMapListElement V) : Option (HValueMap V) :=
  match direct.value with
  | none => some m
  | some v => (rehashChain insert m.lists.length m direct.next).bind fun t => insert t v

def resizeWith (insert : HValueMap V → V → Option (HValueMap V)) (newSize : Nat) : Option (HValueMap V) :=
  if m.count < newSize then
    m.ensureFree.bind fun t =>
      (m.array.foldlM (rehashDirect insert) { t with array := zeroed V newSize, count := 0 }).bind
        fun u => if u.count = m.count then some u else none
  else none

/-- `Insert`, with a bound on the recursion through `Resize`. -/
def insertWith : Nat → HValueMap V → V → Option (HValueMap V)
  | 0, _, _ => none
  | depth + 1, m, v =>
    if m.array.length / 2 ≤ m.count then
      (m.resizeWith (insertWith depth) (m.array.length * 2)).bind fun t => t.insertInRoom H v
    else m.insertInRoom H v

/-- The insertions of a `Resize` do not resize again. -/
def insert (v : V) : Option (HValueMap V) := insertWith H 2 m v

def resize (newSize : Nat) : Option (HValueMap V) := m.resizeWith (insertWith H 1) newSize

def add (v : V) : Option (HValueMap V) :=
  { m with presentFlags := m.presentFlags ||| H.flags v }.insert H v

/-- The constructor. -/
def new : Option (HValueMap V) :=
  (resizeLists ⟨[], [], 0, 0, none⟩ kInitialSize).bind fun t => t.resize H kInitialSize

/-- The copy has arrays of its own. -/
def copy : HValueMap V := ⟨m.array, m.lists, m.count, m.presentFlags, m.freeListHead⟩

/-- The loop of `Kill` over a list, with the list of kept elements. -/
def killChain (dependsFlags : BitVec 32) :
    Nat → HValueMap V → Option Nat → Option Nat → Option (HValueMap V × Option Nat)
  | _, m, kept, none => some (m, kept)
  | 0, _, _, some _ => none
  | bound + 1, m, kept, some current =>
    (m.lists[current]?).bind fun e => e.value.bind fun v =>
      if H.flags v &&& dependsFlags ≠ 0 then
        ({ m with count := m.count - 1 }.free current).bind fun t =>
          killChain dependsFlags bound t kept e.next
      else
        killChain dependsFlags bound { m with
            lists := m.lists.set current { e with next := kept }
            presentFlags := m.presentFlags ||| H.flags v }
          (some current) e.next

/-- The directly stored value is dropped: the first of the list takes its place. -/
def dropDirect (i : Nat) (head : Option Nat) : Option (HValueMap V) :=
  match head with
  | none => some { m with count := m.count - 1, array := m.array.set i ⟨none, none⟩ }
  | some head =>
    (m.lists[head]?).bind fun e =>
      { m with count := m.count - 1, array := m.array.set i e }.free head

def killDirect (dependsFlags : BitVec 32) (m : HValueMap V) (i : Nat) : Option (HValueMap V) :=
  (m.array[i]?).bind fun direct =>
    match direct.value with
    | none => some m
    | some v =>
      (killChain H dependsFlags m.lists.length m none direct.next).bind fun (t, kept) =>
        if H.flags v &&& dependsFlags ≠ 0 then t.dropDirect i kept
        else
          some { t with
            array := t.array.set i { direct with next := kept }
            presentFlags := t.presentFlags ||| H.flags v }

def kill (flags : BitVec 32) : Option (HValueMap V) :=
  let dependsFlags := convertChangesToDependsFlags flags
  if m.presentFlags &&& dependsFlags = 0 then some m
  else
    (List.range m.array.length).foldlM (killDirect H dependsFlags) { m with presentFlags := 0 }

def lookupChain (v : V) : Nat → Option Nat → Option (Option V)
  | _, none => some none
  | 0, some _ => none
  | bound + 1, some next =>
    (m.lists[next]?).bind fun e => e.value.bind fun w =>
      if H.equals w v then some (some w) else lookupChain v bound e.next

/-- The outer `none` is a failure. -/
def lookup (v : V) : Option (Option V) :=
  (m.array[bound m.array.length (H.hashcode v)]?).bind fun direct =>
    match direct.value with
    | none => some none
    | some w =>
      if H.equals w v then some (some w) else m.lookupChain H v m.lists.length direct.next

end HValueMap

end W16.ValueMap

/-!
## The arrays store slots

The lists of all positions, the free list and the elements that a loop is still to visit share
`lists_`, each index in one of them. Every operation keeps this, and does to the stored slots what
it says it does.
-/
namespace W16.ValueMap

open IndexedLists ValueSlots

variable {V : Type}

/-- What a position stores: its first value, and the indices and values of its list. -/
abbrev Cell (V : Type) := Option (V × List (Nat × V))

namespace Cell

def values : Cell V → List V
  | none => []
  | some (v, chain) => v :: chain.map Prod.snd

def indices : Cell V → List Nat
  | none => []
  | some (_, chain) => chain.map Prod.fst

@[simp] theorem values_none : Cell.values (none : Cell V) = [] := rfl

@[simp] theorem indices_none : Cell.indices (none : Cell V) = [] := rfl

@[simp] theorem values_some (v : V) (chain : List (Nat × V)) :
    Cell.values (some (v, chain)) = v :: chain.map Prod.snd := rfl

@[simp] theorem indices_some (v : V) (chain : List (Nat × V)) :
    Cell.indices (some (v, chain)) = chain.map Prod.fst := rfl

end Cell

/-- A list of the array with its values. -/
structure Chain (lists : List (HValueMapListElement V)) (start : Option Nat)
    (chain : List (Nat × V)) : Prop where
  linked : Linked HValueMapListElement.next lists start (chain.map Prod.fst)
  value : ∀ p ∈ chain, ((lists[p.1]?).bind HValueMapListElement.value) = some p.2

def Holds (lists : List (HValueMapListElement V)) (direct : HValueMapListElement V) : Cell V → Prop
  | none => direct.value = none
  | some (v, chain) => direct.value = some v ∧ Chain lists direct.next chain

/-- The reserved indices are the ones that a loop is still to visit. -/
structure Represents (m : HValueMap V) (cells : List (Cell V)) (free reserved : List Nat) : Prop where
  length : cells.length = m.array.length
  cell : ∀ (pos : Nat) (direct : HValueMapListElement V) (c : Cell V),
    m.array[pos]? = some direct → cells[pos]? = some c → Holds m.lists direct c
  freeList : Linked HValueMapListElement.next m.lists m.freeListHead free
  parted : (cells.flatMap Cell.indices ++ free ++ reserved).Perm (List.range m.lists.length)

/-- What does not change while the reserved elements wait. -/
structure Keeps (reserved : List Nat) (m t : HValueMap V) : Prop where
  element : ∀ i ∈ reserved, t.lists[i]? = m.lists[i]?
  length : m.lists.length ≤ t.lists.length
  presentFlags : t.presentFlags = m.presentFlags

theorem Keeps.refl (reserved : List Nat) (m : HValueMap V) : Keeps reserved m m :=
  ⟨fun _ _ => rfl, le_rfl, rfl⟩

theorem Keeps.trans {reserved : List Nat} {m t u : HValueMap V} (h : Keeps reserved m t)
    (h' : Keeps reserved t u) : Keeps reserved m u where
  element i hi := (h'.element i hi).trans (h.element i hi)
  length := le_trans h.length h'.length
  presentFlags := h'.presentFlags.trans h.presentFlags

theorem Keeps.mono {reserved fewer : List Nat} {m t : HValueMap V} (h : Keeps reserved m t)
    (hsub : ∀ i ∈ fewer, i ∈ reserved) : Keeps fewer m t where
  element i hi := h.element i (hsub i hi)
  length := h.length
  presentFlags := h.presentFlags

section Chains

variable {lists lists' : List (HValueMapListElement V)} {direct : HValueMapListElement V}
  {start : Option Nat} {chain : List (Nat × V)} {c : Cell V}

theorem Chain.frame (h : Chain lists start chain)
    (hsame : ∀ p ∈ chain, lists'[p.1]? = lists[p.1]?) : Chain lists' start chain where
  linked := by
    apply h.linked.frame
    grind
  value p hp := by
    rw [hsame p hp]
    exact h.value p hp

theorem chain_nil : Chain lists start [] ↔ start = none :=
  ⟨fun h => h.linked, fun h => ⟨h, fun _ hp => absurd hp List.not_mem_nil⟩⟩

/-- The first element of a list. -/
theorem Chain.cons {i : Nat} {v : V} (h : Chain lists start ((i, v) :: chain)) :
    start = some i ∧ ∃ e, lists[i]? = some e ∧ e.value = some v ∧ Chain lists e.next chain := by
  obtain ⟨hstart, e, he, hlink⟩ := h.linked
  have hvalue := h.value (i, v) List.mem_cons_self
  rw [he] at hvalue
  exact ⟨hstart, e, he, hvalue, hlink, fun p hp => h.value p (List.mem_cons_of_mem _ hp)⟩

theorem Chain.push {i : Nat} {e : HValueMapListElement V} {v : V} (h : Chain lists start chain)
    (hi : i < lists.length) (hnot : i ∉ chain.map Prod.fst) (hnext : e.next = start)
    (hvalue : e.value = some v) : Chain (lists.set i e) (some i) ((i, v) :: chain) where
  linked := h.linked.push hi hnot hnext
  value p hp := by
    rcases List.mem_cons.1 hp with rfl | hp
    · rw [List.getElem?_set_self hi]
      exact hvalue
    · have hne : i ≠ p.1 := fun heq => hnot (heq ▸ List.mem_map_of_mem hp)
      rw [List.getElem?_set_ne hne]
      exact h.value p hp

theorem Holds.frame (h : Holds lists direct c)
    (hsame : ∀ i ∈ c.indices, lists'[i]? = lists[i]?) : Holds lists' direct c := by
  cases c with
  | none => exact h
  | some p =>
    refine ⟨h.1, h.2.frame ?_⟩
    intro q hq
    exact hsame q.1 (List.mem_map_of_mem hq)

end Chains

section Cells

variable {cells : List (Cell V)} {pos : Nat} {c c' : Cell V}

/-- The indices after a position stores something else. -/
theorem count_indices_set (c' : Cell V) (h : cells[pos]? = some c) (i : Nat) :
    ((cells.set pos c').flatMap Cell.indices).count i + c.indices.count i =
      (cells.flatMap Cell.indices).count i + c'.indices.count i := by
  induction cells generalizing pos with
  | nil => exact nomatch h
  | cons d cells ih =>
    cases pos with
    | zero =>
      grind
    | succ pos =>
      rw [List.set_cons_succ, List.flatMap_cons, List.flatMap_cons, List.count_append, List.count_append]
      have := ih h
      omega

theorem mem_indices (h : cells[pos]? = some c) {i : Nat} (hi : i ∈ c.indices) :
    i ∈ cells.flatMap Cell.indices :=
  List.mem_flatMap.2 ⟨c, List.mem_of_getElem? h, hi⟩

/-- Two positions share no index. -/
theorem count_indices_pair {pos' : Nat} (hne : pos ≠ pos') (h : cells[pos]? = some c)
    (h' : cells[pos']? = some c') (i : Nat) :
    c.indices.count i + c'.indices.count i ≤ (cells.flatMap Cell.indices).count i := by
  have hset := count_indices_set none h i
  have hother : (cells.set pos none)[pos']? = some c' := by
    rw [List.getElem?_set_ne hne]
    exact h'
  have hset' := count_indices_set none hother i
  rw [Cell.indices_none, List.count_nil] at hset hset'
  omega

theorem values_set {slot : List V → List V} (h : cells[pos]? = some c) (hvals : c'.values = slot c.values) :
    (cells.set pos c').map Cell.values = (cells.map Cell.values).modify pos slot := by
  induction cells generalizing pos with
  | nil => exact nomatch h
  | cons d cells ih =>
    cases pos with
    | zero =>
      grind
    | succ pos =>
      simp_all

end Cells

namespace Represents

variable {m : HValueMap V} {cells : List (Cell V)} {free reserved : List Nat} {i : Nat}

theorem count (h : Represents m cells free reserved) (i : Nat) :
    (cells.flatMap Cell.indices).count i + free.count i + reserved.count i =
      if i < m.lists.length then 1 else 0 := by
  rw [← perm_range_iff.1 h.parted i, List.count_append, List.count_append]

theorem count_le_one (h : Represents m cells free reserved) (i : Nat) :
    (cells.flatMap Cell.indices).count i + free.count i + reserved.count i ≤ 1 := by
  rw [h.count i]
  split <;> omega

theorem lt_of_reserved (h : Represents m cells free reserved) (hi : i ∈ reserved) : i < m.lists.length := by
  have hcount := h.count i
  grind

/-- A reserved index is in no list. -/
theorem reserved_apart (h : Represents m cells free (i :: reserved)) :
    i ∉ cells.flatMap Cell.indices ∧ i ∉ free ∧ i ∉ reserved := by
  have hone := h.count_le_one i
  grind

theorem free_apart (h : Represents m cells (i :: free) reserved) :
    i ∉ cells.flatMap Cell.indices ∧ i ∉ free ∧ i ∉ reserved := by
  have hone := h.count_le_one i
  grind

/-- A reserved element becomes free. -/
theorem pushFree {e : HValueMapListElement V} (h : Represents m cells free (i :: reserved))
    (he : e.next = m.freeListHead) :
    Represents { m with lists := m.lists.set i e, freeListHead := some i } cells (i :: free) reserved := by
  have hlt : i < m.lists.length := h.lt_of_reserved List.mem_cons_self
  obtain ⟨hcells, hfree, -⟩ := h.reserved_apart
  constructor
  · exact h.length
  · intro pos direct c hdir hc
    apply (h.cell pos direct c hdir hc).frame
    intro j hj
    exact List.getElem?_set_ne (ne_of_mem_of_not_mem (mem_indices hc hj) hcells).symm
  · exact h.freeList.push hlt hfree he
  · rw [perm_range_iff]
    intro j
    have hj := h.count j
    grind

/-- A position stores something else, in its own elements and in free ones. -/
theorem replace {t : HValueMap V} {pos : Nat} {c c' : Cell V} {free' reserved' : List Nat}
    {direct : HValueMapListElement V} (h : Represents m cells free reserved)
    (hc : cells[pos]? = some c) (harray : t.array = m.array.set pos direct)
    (hlen : t.lists.length = m.lists.length)
    (hframe : ∀ i, i ∉ c.indices → i ∉ free → t.lists[i]? = m.lists[i]?)
    (hholds : Holds t.lists direct c')
    (hfree : Linked HValueMapListElement.next t.lists t.freeListHead free')
    (hcount : ∀ i, c'.indices.count i + free'.count i + reserved'.count i =
      c.indices.count i + free.count i + reserved.count i) :
    Represents t (cells.set pos c') free' reserved' := by
  constructor
  · rw [List.length_set, harray, List.length_set]
    exact h.length
  · intro pos' direct' d hdir hd
    have hlt : pos < cells.length := (List.getElem?_eq_some_iff.1 hc).1
    rw [harray] at hdir
    by_cases hpos : pos = pos'
    · grind
    · rw [List.getElem?_set_ne hpos] at hdir hd
      apply (h.cell pos' direct' d hdir hd).frame
      intro i hi
      have hpair := count_indices_pair hpos hc hd i
      have hone := h.count_le_one i
      grind
  · exact hfree
  · rw [perm_range_iff]
    intro i
    have hi := h.count i
    have hset := count_indices_set c' hc i
    grind

/-- The cell of a position. -/
theorem exists_cell {pos : Nat} {direct : HValueMapListElement V}
    (h : Represents m cells free reserved) (hdir : m.array[pos]? = some direct) :
    ∃ c, cells[pos]? = some c ∧ Holds m.lists direct c := by
  have hlt : pos < cells.length := h.length ▸ (List.getElem?_eq_some_iff.1 hdir).1
  exact ⟨cells[pos], List.getElem?_eq_getElem hlt, h.cell pos direct _ hdir (List.getElem?_eq_getElem hlt)⟩

end Represents

namespace HValueMap

variable {m : HValueMap V} {cells : List (Cell V)} {free reserved : List Nat}

theorem free_spec {i : Nat} (h : Represents m cells free (i :: reserved)) :
    ∃ t, m.free i = some t ∧ Represents t cells (i :: free) reserved ∧ t.array = m.array ∧
      t.count = m.count ∧ Keeps reserved m t := by
  have hlt : i < m.lists.length := h.lt_of_reserved List.mem_cons_self
  have he := List.getElem?_eq_getElem hlt
  refine ⟨_, ?_, h.pushFree (e := { m.lists[i] with next := m.freeListHead }) rfl, rfl, rfl, ?_⟩
  · rw [HValueMap.free, he, Option.bind_some]
  · constructor
    · intro j hj
      exact List.getElem?_set_ne (ne_of_mem_of_not_mem hj h.reserved_apart.2.2).symm
    · exact le_of_eq List.length_set.symm
    · rfl

theorem free_all_spec (indices : List Nat) (h : Represents m cells free (indices ++ reserved)) :
    ∃ t, indices.foldlM HValueMap.free m = some t ∧
      Represents t cells (indices.reverse ++ free) reserved ∧ t.array = m.array ∧
      t.count = m.count ∧ Keeps reserved m t := by
  induction indices generalizing m free with
  | nil => exact ⟨m, rfl, h, rfl, rfl, Keeps.refl reserved m⟩
  | cons i indices ih =>
    obtain ⟨t, ht, hrep, harray, hcount, hkeeps⟩ := free_spec h
    obtain ⟨u, hu, hrep', harray', hcount', hkeeps'⟩ := ih hrep
    refine ⟨u, ?_, ?_, harray'.trans harray, hcount'.trans hcount, ?_⟩
    · rw [List.foldlM_cons, ht]
      exact hu
    · rwa [List.reverse_cons, List.append_assoc]
    · exact (hkeeps.mono fun j hj => List.mem_append_right _ hj).trans hkeeps'

/-- The new elements are reserved before they are free. -/
theorem represents_append (n : Nat) (h : Represents m cells free reserved) :
    Represents { m with lists := m.lists ++ zeroed V n } cells free
      (List.range' m.lists.length n ++ reserved) := by
  constructor
  · exact h.length
  · intro pos direct c hdir hc
    apply (h.cell pos direct c hdir hc).frame
    intro i hi
    apply List.getElem?_append_left
    have hcount := h.count i
    have hpos := List.count_pos_iff.2 (mem_indices hc hi)
    split at hcount <;> omega
  · exact h.freeList.append _
  · have hrange : List.range (m.lists ++ zeroed V n).length =
        List.range m.lists.length ++ List.range' m.lists.length n := by
      have happ := @List.range'_append_1 0 m.lists.length n
      simp_all [zeroed, List.range_eq_range']
    rw [hrange]
    have hparted := h.parted.append_right (List.range' m.lists.length n)
    rw [List.append_assoc _ reserved] at hparted
    grind

theorem resizeLists_spec {newSize : Nat} (hsize : m.lists.length < newSize)
    (h : Represents m cells free reserved) :
    ∃ t free', m.resizeLists newSize = some t ∧ Represents t cells free' reserved ∧ free' ≠ [] ∧
      t.array = m.array ∧ t.count = m.count ∧ Keeps reserved m t := by
  obtain ⟨t, ht, hrep, harray, hcount, hkeeps⟩ :=
    free_all_spec _ (represents_append (newSize - m.lists.length) h)
  refine ⟨t, _, ?_, hrep, ?_, harray, hcount, ?_⟩
  · rw [resizeLists, if_pos hsize]
    exact ht
  · intro hnil
    have hlen := congrArg List.length hnil
    grind
  · constructor
    · intro i hi
      rw [hkeeps.element i hi]
      exact List.getElem?_append_left (h.lt_of_reserved hi)
    · apply le_trans _ hkeeps.length
      simp
    · exact hkeeps.presentFlags

theorem ensureFree_spec (hpos : 0 < m.lists.length) (h : Represents m cells free reserved) :
    ∃ t i free', m.ensureFree = some t ∧ Represents t cells (i :: free') reserved ∧
      t.array = m.array ∧ t.count = m.count ∧ Keeps reserved m t := by
  cases free with
  | cons i free =>
    refine ⟨m, i, free, ?_, h, rfl, rfl, Keeps.refl reserved m⟩
    have hhead : m.freeListHead = some i := h.freeList.1
    rw [ensureFree, if_neg]
    rw [hhead]
    exact nofun
  | nil =>
    have hsize : m.lists.length < m.lists.length * 2 := by omega
    obtain ⟨t, free', ht, hrep, hfree, hrest⟩ := resizeLists_spec hsize h
    obtain ⟨i, free', rfl⟩ := List.exists_cons_of_ne_nil hfree
    refine ⟨t, i, free', ?_, hrep, hrest⟩
    rw [ensureFree, if_pos (linked_nil.1 h.freeList)]
    exact ht

theorem insertCollision_spec {pos i : Nat} {direct : HValueMapListElement V} {v w : V}
    {chain : List (Nat × V)} (h : Represents m cells (i :: free) reserved)
    (hcell : cells[pos]? = some (some (w, chain)))
    (hholds : Holds m.lists direct (some (w, chain))) :
    ∃ t, m.insertCollision pos direct v = some t ∧
      Represents t (cells.set pos (some (w, (i, v) :: chain))) free reserved ∧
      t.array.length = m.array.length ∧ t.count = m.count ∧ Keeps reserved m t := by
  obtain ⟨hhead, e, he, hfree⟩ := h.freeList
  have hlt : i < m.lists.length := (List.getElem?_eq_some_iff.1 he).1
  obtain ⟨hcells, hnotFree, hnotReserved⟩ := h.free_apart
  have hnot : i ∉ chain.map Prod.fst := fun hmem => hcells (mem_indices hcell hmem)
  have hchain : Chain (m.lists.set i ⟨some v, direct.next⟩) direct.next chain := by
    apply hholds.2.frame
    grind
  have hassert : (direct.next.all fun next =>
      (((m.lists.set i ⟨some v, direct.next⟩)[next]?).bind fun e => e.value).isSome) = true := by
    cases chain with
    | nil =>
      rw [chain_nil.1 hchain]
      rfl
    | cons p chain =>
      obtain ⟨hstart, e', he', hvalue, -⟩ := hchain.cons
      grind
  have hins : m.insertCollision pos direct v = some { m with
      lists := m.lists.set i ⟨some v, direct.next⟩
      freeListHead := e.next
      array := m.array.set pos { direct with next := some i } } := by
    simp [insertCollision, hhead, he, hassert]
  refine ⟨_, hins, ?_, List.length_set, rfl, ?_⟩
  · apply h.replace hcell
    · exact rfl
    · exact List.length_set
    · grind
    · exact ⟨hholds.1, hholds.2.push hlt hnot rfl rfl⟩
    · apply hfree.frame
      grind
    · simp only [Cell.indices_some, List.map_cons, List.count_cons]
      omega
  · constructor
    · grind
    · exact le_of_eq List.length_set.symm
    · rfl

end HValueMap

end W16.ValueMap
