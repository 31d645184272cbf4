import Mathlib

/-!
# Splay trees

`SplayTree` with its top-down splaying. The two trees that hang on the dummy node are the
lists of the nodes linked to them, last one first: the last node of the left tree has room
for a right child, and that of the right tree for a left child.
-/
namespace W16.SplayTrees

open List

set_option linter.dupNamespace false

inductive Tree (K V : Type) where
  | nil
  | node (left : Tree K V) (key : K) (value : V) (right : Tree K V)

/-- A node with one child, where the other one is to come. -/
structure Frame (K V : Type) where
  key : K
  value : V
  child : Tree K V

variable {K V : Type}

namespace Tree

/-- The loop of `Splay`: the node in the middle, with the left and the right tree. -/
def splayLoop [LinearOrder K] (key : K) :
    Tree K V → List (Frame K V) → List (Frame K V) → Tree K V × List (Frame K V) × List (Frame K V)
  | .nil, lefts, rights => (.nil, lefts, rights)
  | .node l k v r, lefts, rights =>
    match compare key k with
    | .lt =>
      match l with
      | .nil => (.node .nil k v r, lefts, rights)
      | .node ll lk lv lr =>
        match compare key lk with
        | .lt =>
          -- rotate right
          match ll with
          | .nil => (.node .nil lk lv (.node lr k v r), lefts, rights)
          | .node a b c d => splayLoop key (.node a b c d) lefts (⟨lk, lv, .node lr k v r⟩ :: rights)
        | _ => splayLoop key (.node ll lk lv lr) lefts (⟨k, v, r⟩ :: rights)
    | .gt =>
      match r with
      | .nil => (.node l k v .nil, lefts, rights)
      | .node rl rk rv rr =>
        match compare key rk with
        | .gt =>
          -- rotate left
          match rr with
          | .nil => (.node (.node l k v rl) rk rv .nil, lefts, rights)
          | .node a b c d => splayLoop key (.node a b c d) (⟨rk, rv, .node l k v rl⟩ :: lefts) rights
        | _ => splayLoop key (.node rl rk rv rr) (⟨k, v, l⟩ :: lefts) rights
    | .eq => (.node l k v r, lefts, rights)

/-- The left tree with its last right child. -/
def assembleLeft (lefts : List (Frame K V)) (last : Tree K V) : Tree K V :=
  lefts.foldl (fun t f => .node f.child f.key f.value t) last

/-- The right tree with its last left child. -/
def assembleRight (rights : List (Frame K V)) (last : Tree K V) : Tree K V :=
  rights.foldl (fun t f => .node t f.key f.value f.child) last

def splay [LinearOrder K] (key : K) (t : Tree K V) : Tree K V :=
  match splayLoop key t [] [] with
  | (.nil, _, _) => .nil
  | (.node l k v r, lefts, rights) => .node (assembleLeft lefts l) k v (assembleRight rights r)

/-- `InsertInternal`. -/
def insertInternal (cmp : Ordering) (key : K) (value : V) : Tree K V → Tree K V
  | .nil => .nil
  | .node l k v r =>
    if cmp = .gt then .node (.node l k v .nil) key value r
    else .node l key value (.node .nil k v r)

/-- `Insert`; the locator is bound to the root. -/
def insert [LinearOrder K] (noValue : V) (key : K) : Tree K V → Tree K V × Bool
  | .nil => (.node .nil key noValue .nil, true)
  | t =>
    match splay key t with
    | .nil => (.nil, false)
    | .node l k v r =>
      let cmp := compare key k
      if cmp = .eq then (.node l k v r, false)
      else (insertInternal cmp key noValue (.node l k v r), true)

/-- `FindInternal`. -/
def findInternal [LinearOrder K] (key : K) (t : Tree K V) : Tree K V × Bool :=
  match splay key t with
  | .nil => (.nil, false)
  | .node l k v r => (.node l k v r, compare key k = .eq)

/-- The key and value of the root, to which a locator is bound. -/
def root : Tree K V → Option (K × V)
  | .nil => none
  | .node _ k v _ => some (k, v)

/-- `Find`. -/
def find [LinearOrder K] (key : K) (t : Tree K V) : Tree K V × Option (K × V) :=
  match findInternal key t with
  | (t, true) => (t, t.root)
  | (t, false) => (t, none)

/-- `FindGreatest`. -/
def findGreatest : Tree K V → Option (K × V)
  | .nil => none
  | .node _ k v .nil => some (k, v)
  | .node _ _ _ r => findGreatest r

/-- `FindLeast`. -/
def findLeast : Tree K V → Option (K × V)
  | .nil => none
  | .node .nil k v _ => some (k, v)
  | .node l _ _ _ => findLeast l

/-- `FindGreatestLessThan`. -/
def findGreatestLessThan [LinearOrder K] (key : K) (t : Tree K V) : Tree K V × Option (K × V) :=
  match splay key t with
  | .nil => (.nil, none)
  | .node l k v r => (.node l k v r, if compare k key ≠ .gt then some (k, v) else findGreatest l)

/-- `FindLeastGreaterThan`. -/
def findLeastGreaterThan [LinearOrder K] (key : K) (t : Tree K V) : Tree K V × Option (K × V) :=
  match splay key t with
  | .nil => (.nil, none)
  | .node l k v r => (.node l k v r, if compare k key ≠ .lt then some (k, v) else findLeast r)

/-- `RemoveRootNode`. -/
def removeRootNode [LinearOrder K] (key : K) : Tree K V → Tree K V
  | .nil => .nil
  | .node .nil _ _ r => r
  | .node l _ _ r =>
    match splay key l with
    | .nil => .nil
    | .node l k v _ => .node l k v r

/-- `Remove`. -/
def remove [LinearOrder K] (key : K) (t : Tree K V) : Tree K V × Bool :=
  match findInternal key t with
  | (t, true) => (removeRootNode key t, true)
  | (t, false) => (t, false)

/-- `Move`. There is no result where the key of an empty root is read. -/
def move [LinearOrder K] (oldKey newKey : K) (t : Tree K V) : Option (Tree K V × Bool) :=
  match findInternal oldKey t with
  | (t, false) => some (t, false)
  | (.nil, true) => none
  | (.node l k v r, true) =>
    match splay newKey (removeRootNode oldKey (.node l k v r)) with
    | .nil => none
    | .node l' k' v' r' =>
      let cmp := compare newKey k'
      -- the node to move is deleted when there is one with the new key
      if cmp = .eq then some (.node l' k' v' r', false)
      else some (insertInternal cmp newKey v (.node l' k' v' r'), true)

/-- `set_value` of a locator that is bound to the node with the key. -/
def setValue [LinearOrder K] (key : K) (value : V) : Tree K V → Tree K V
  | .nil => .nil
  | .node l k v r =>
    .node (setValue key value l) k (if k = key then value else v) (setValue key value r)

/-- The child nodes that are there. -/
def children : Tree K V → List (Tree K V)
  | .nil => []
  | .node l _ _ r => [l, r].filter fun | .nil => false | .node .. => true

/-- The loop of `ForEachNode` over the nodes to visit. It has no result where it does not
end. -/
def visit : Nat → List (Tree K V) → Option (List (K × V))
  | _, [] => some []
  | 0, _ :: _ => none
  | fuel + 1, t :: rest => (visit fuel (rest ++ t.children)).map (t.root.toList ++ ·)

def size : Tree K V → Nat
  | .nil => 0
  | .node l _ _ r => l.size + r.size + 1

/-- `ForEach`. -/
def forEach (t : Tree K V) : Option (List (K × V)) :=
  visit t.size (match t with | .nil => [] | t => [t])

/-! ## The entries of a tree -/

/-- The keys and values from left to right. -/
def entries : Tree K V → List (K × V)
  | .nil => []
  | .node l k v r => l.entries ++ (k, v) :: r.entries

@[simp] theorem entries_nil : (.nil : Tree K V).entries = [] := rfl

@[simp] theorem entries_node (l : Tree K V) (k : K) (v : V) (r : Tree K V) :
    (Tree.node l k v r).entries = l.entries ++ (k, v) :: r.entries := rfl

/-- A search tree with unique keys. -/
def Ordered [LinearOrder K] (t : Tree K V) : Prop := t.entries.Pairwise (·.1 < ·.1)

variable {key k : K} {v : V} {t l r : Tree K V}

theorem ordered_node [LinearOrder K] : (Tree.node l k v r).Ordered ↔
    l.Ordered ∧ r.Ordered ∧ (∀ x ∈ l.entries, x.1 < k) ∧ ∀ x ∈ r.entries, k < x.1 := by
  rw [Ordered, entries_node, pairwise_append, pairwise_cons]
  constructor
  · rintro ⟨hl, ⟨hkr, hr⟩, hlr⟩
    exact ⟨hl, hr, fun x hx => hlr x hx _ mem_cons_self, fun x hx => hkr x hx⟩
  · rintro ⟨hl, hr, hlk, hkr⟩
    refine ⟨hl, ⟨hkr, hr⟩, fun x hx y hy => ?_⟩
    grind

/-- The entries that are linked to the left tree. -/
def leftEntries : List (Frame K V) → List (K × V)
  | [] => []
  | f :: fs => leftEntries fs ++ (f.child.entries ++ [(f.key, f.value)])

def rightEntries : List (Frame K V) → List (K × V)
  | [] => []
  | f :: fs => (f.key, f.value) :: f.child.entries ++ rightEntries fs

theorem entries_assembleLeft (lefts : List (Frame K V)) (t : Tree K V) :
    (assembleLeft lefts t).entries = leftEntries lefts ++ t.entries := by
  induction lefts generalizing t with
  | nil => rfl
  | cons f fs ih =>
    rw [assembleLeft, foldl_cons, ← assembleLeft, ih]
    simp [leftEntries]

theorem entries_assembleRight (rights : List (Frame K V)) (t : Tree K V) :
    (assembleRight rights t).entries = t.entries ++ rightEntries rights := by
  induction rights generalizing t with
  | nil => simp [assembleRight, rightEntries]
  | cons f fs ih =>
    rw [assembleRight, foldl_cons, ← assembleRight, ih]
    simp [rightEntries]

/-! ## Splaying -/

variable [LinearOrder K]

/-- What the loop of `Splay` makes of a tree. -/
structure Splayed (key : K) (t : Tree K V) (lefts rights : List (Frame K V))
    (result : Tree K V × List (Frame K V) × List (Frame K V)) : Prop where
  entries : leftEntries result.2.1 ++ result.1.entries ++ rightEntries result.2.2 =
    leftEntries lefts ++ t.entries ++ rightEntries rights
  nonempty : t ≠ .nil → result.1 ≠ .nil
  left : (∀ x ∈ leftEntries lefts, x.1 < key) → ∀ x ∈ leftEntries result.2.1, x.1 < key
  right : (∀ x ∈ rightEntries rights, key < x.1) → ∀ x ∈ rightEntries result.2.2, key < x.1
  inner : ∀ {l k v r}, result.1 = .node l k v r → (∀ x ∈ l.entries, x.1 < key) ∧ ∀ x ∈ r.entries, key < x.1

/-- The loop goes on with a part of the tree. -/
theorem Splayed.step {t t' : Tree K V} {lefts rights lefts' rights' : List (Frame K V)}
    {result : Tree K V × List (Frame K V) × List (Frame K V)}
    (h : Splayed key t' lefts' rights' result) (ht : t' ≠ .nil)
    (hent : leftEntries lefts' ++ t'.entries ++ rightEntries rights' =
      leftEntries lefts ++ t.entries ++ rightEntries rights)
    (hleft : (∀ x ∈ leftEntries lefts, x.1 < key) → ∀ x ∈ leftEntries lefts', x.1 < key)
    (hright : (∀ x ∈ rightEntries rights, key < x.1) → ∀ x ∈ rightEntries rights', key < x.1) :
    Splayed key t lefts rights result where
  entries := h.entries.trans hent
  nonempty _ := h.nonempty ht
  left hl := h.left (hleft hl)
  right hr := h.right (hright hr)
  inner := h.inner

/-- The loop ends with the node in the middle. -/
theorem Splayed.done {t t' : Tree K V} {lefts rights : List (Frame K V)}
    (hent : t'.entries = t.entries) (ht : t' ≠ .nil)
    (hinner : ∀ {l k v r}, t' = .node l k v r → (∀ x ∈ l.entries, x.1 < key) ∧ ∀ x ∈ r.entries, key < x.1) :
    Splayed key t lefts rights (t', lefts, rights) where
  entries := by rw [hent]
  nonempty _ := ht
  left hl := hl
  right hr := hr
  inner := hinner

theorem splayLoop_spec (key : K) (t : Tree K V) (lefts rights : List (Frame K V)) (h : t.Ordered) :
    Splayed key t lefts rights (splayLoop key t lefts rights) := by
  fun_induction splayLoop key t lefts rights with
  | case1 lefts rights => exact ⟨rfl, fun h => absurd rfl h, id, id, fun h => (nomatch h)⟩
  | case2 k v r lefts rights hk =>
    obtain ⟨-, -, -, hr⟩ := ordered_node.1 h
    have hk := compare_lt_iff_lt.1 hk
    refine .done rfl (fun h => nomatch h) fun heq => ?_
    cases heq
    exact ⟨fun x hx => (nomatch hx), fun x hx => lt_trans hk (hr x hx)⟩
  | case3 k v r lefts rights hk b c d hb =>
    obtain ⟨hl, hr, hlk, hkr⟩ := ordered_node.1 h
    obtain ⟨-, -, -, hbd⟩ := ordered_node.1 hl
    have hk := compare_lt_iff_lt.1 hk
    have hb := compare_lt_iff_lt.1 hb
    refine .done (by simp) (fun h => nomatch h) fun heq => ?_
    cases heq
    refine ⟨fun x hx => (nomatch hx), fun x hx => ?_⟩
    rw [entries_node, mem_append, mem_cons] at hx
    grind
  | case4 k v r lefts rights hk b c d hb a b' c' d' ih =>
    obtain ⟨hl, hr, hlk, hkr⟩ := ordered_node.1 h
    obtain ⟨hll, -, -, hbd⟩ := ordered_node.1 hl
    have hk := compare_lt_iff_lt.1 hk
    have hb := compare_lt_iff_lt.1 hb
    refine (ih hll).step (fun h => nomatch h) (by simp [rightEntries]) id fun hright x hx => ?_
    rw [rightEntries, mem_append, mem_cons, entries_node, mem_append, mem_cons] at hx
    grind
  | case5 k v r lefts rights hk a b c d hb ih =>
    obtain ⟨hl, hr, hlk, hkr⟩ := ordered_node.1 h
    have hk := compare_lt_iff_lt.1 hk
    refine (ih hl).step (fun h => nomatch h) (by simp [rightEntries]) id fun hright x hx => ?_
    rw [rightEntries, mem_append, mem_cons] at hx
    grind
  | case6 l k v lefts rights hk =>
    obtain ⟨-, -, hl, -⟩ := ordered_node.1 h
    have hk := compare_gt_iff_gt.1 hk
    refine .done rfl (fun h => nomatch h) fun heq => ?_
    cases heq
    exact ⟨fun x hx => lt_trans (hl x hx) hk, fun x hx => (nomatch hx)⟩
  | case7 l k v lefts rights hk a b c hb =>
    obtain ⟨hl, hr, hlk, hkr⟩ := ordered_node.1 h
    obtain ⟨-, -, hab, -⟩ := ordered_node.1 hr
    have hk := compare_gt_iff_gt.1 hk
    have hb := compare_gt_iff_gt.1 hb
    refine .done (by simp) (fun h => nomatch h) fun heq => ?_
    cases heq
    refine ⟨fun x hx => ?_, fun x hx => (nomatch hx)⟩
    rw [entries_node, mem_append, mem_cons] at hx
    grind
  | case8 l k v lefts rights hk a b c hb a' b' c' d' ih =>
    obtain ⟨hl, hr, hlk, hkr⟩ := ordered_node.1 h
    obtain ⟨-, hrr, hab, -⟩ := ordered_node.1 hr
    have hk := compare_gt_iff_gt.1 hk
    have hb := compare_gt_iff_gt.1 hb
    refine (ih hrr).step (fun h => nomatch h) (by simp [leftEntries]) (fun hleft x hx => ?_) id
    rw [leftEntries, mem_append, mem_append, mem_singleton, entries_node,
      mem_append, mem_cons] at hx
    grind
  | case9 l k v lefts rights hk a b c d hb ih =>
    obtain ⟨hl, hr, hlk, hkr⟩ := ordered_node.1 h
    have hk := compare_gt_iff_gt.1 hk
    refine (ih hr).step (fun h => nomatch h) (by simp [leftEntries]) (fun hleft x hx => ?_) id
    rw [leftEntries, mem_append, mem_append, mem_singleton] at hx
    grind
  | case10 l k v r lefts rights hk =>
    obtain ⟨-, -, hl, hr⟩ := ordered_node.1 h
    obtain rfl := compare_eq_iff_eq.1 hk
    refine .done rfl (fun h => nomatch h) fun heq => ?_
    cases heq
    exact ⟨hl, hr⟩

/-- `Splay` keeps the entries, and brings up the key or one of its neighbours. -/
theorem splay_spec (key : K) {t : Tree K V} (h : t.Ordered) : (splay key t).entries = t.entries ∧
      (splay key t = .nil → t = .nil) ∧
      ∀ {l k v r}, splay key t = .node l k v r → (∀ x ∈ l.entries, x.1 < key) ∧ ∀ x ∈ r.entries, key < x.1 := by
  have hspec := splayLoop_spec key t [] [] h
  rw [splay]
  generalize splayLoop key t [] [] = result at hspec
  obtain ⟨c, lefts, rights⟩ := result
  have hent := hspec.entries
  have hleft := hspec.left (fun x hx => nomatch hx)
  have hright := hspec.right (fun x hx => nomatch hx)
  simp only [leftEntries, rightEntries, nil_append, append_nil] at hent
  cases c with
  | nil =>
    have ht : t = .nil := by
      by_contra hne
      exact hspec.nonempty hne rfl
    grind
  | node l k v r =>
    refine ⟨?_, fun h => (nomatch h), fun heq => ?_⟩
    · rw [← hent]
      simp [entries_assembleLeft, entries_assembleRight]
    · cases heq
      obtain ⟨hl, hr⟩ := hspec.inner rfl
      rw [entries_assembleLeft, entries_assembleRight]
      grind

end Tree

end W16.SplayTrees
