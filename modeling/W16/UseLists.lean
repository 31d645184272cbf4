import Mathlib.Data.List.Nodup
import Mathlib.Logic.Function.Basic
import W16.IndexedLists

/-!
# Use lists

A value has the list of its uses, in nodes that are linked and that go from list to list when an
operand is replaced. An operation fails where `NULL` is dereferenced.
-/
namespace W16.UseLists

open IndexedLists List Option Function

set_option linter.dupNamespace false

variable {ν : Type} [DecidableEq ν]

structure HUseListNode (ν : Type) where
  tail : Option Nat
  value : ν
  index : Nat

/-- The nodes, and the `use_list_` and the operands of all values. `none` is `NULL`. -/
structure HValues (ν : Type) where
  nodes : List (HUseListNode ν)
  useList : ν → Option Nat
  operands : ν → List (Option ν)

/-- The loop of `RemoveUse`, with a bound on the length of the list: the last node before the one
that is looked for, and this one. -/
def findUse (nodes : List (HUseListNode ν)) (value : ν) (index : Nat) :
    Nat → Option Nat → Option Nat → Option (Option Nat × Option Nat)
  | _, previous, none => some (previous, none)
  | 0, _, some _ => none
  | bound + 1, previous, some current =>
    (nodes[current]?).bind fun node =>
      if node.value = value ∧ node.index = index then some (previous, some current)
      else findUse nodes value index bound (some current) node.tail

namespace HValues

variable (g : HValues ν)

/-- `v->RemoveUse(value, index)`. -/
def removeUse (v value : ν) (index : Nat) : Option (HValues ν × Option Nat) :=
  (findUse g.nodes value index g.nodes.length none (g.useList v)).bind fun (previous, current) =>
    match current with
    | none => some (g, none)
    | some current =>
      (g.nodes[current]?).bind fun node =>
        match previous with
        | none => some ({ g with useList := Function.update g.useList v node.tail }, some current)
        | some previous =>
          (g.nodes[previous]?).bind fun before =>
            some ({ g with nodes := g.nodes.set previous { before with tail := node.tail } }, some current)

/-- The end of `RegisterUse`: a node that was removed is used again. -/
def addUse (w value : ν) (index : Nat) : Option Nat → Option (HValues ν)
  | none =>
    some { g with
      nodes := g.nodes ++ [⟨g.useList w, value, index⟩]
      useList := Function.update g.useList w (some g.nodes.length) }
  | some removed =>
    (g.nodes[removed]?).bind fun node =>
      some { g with
        nodes := g.nodes.set removed { node with tail := g.useList w }
        useList := Function.update g.useList w (some removed) }

def registerUse (value : ν) (index : Nat) (newValue : Option ν) : Option (HValues ν) :=
  ((g.operands value)[index]?).bind fun oldValue =>
    if oldValue = newValue then some g
    else
      (match oldValue with
        | none => some (g, none)
        | some v => g.removeUse v value index).bind fun (t, removed) =>
          match newValue with
          | none => some t
          | some w => t.addUse w value index removed

def setOperandAt (value : ν) (index : Nat) (newValue : Option ν) : Option (HValues ν) :=
  (g.registerUse value index newValue).map fun t =>
    { t with operands :=
        Function.update t.operands value ((t.operands value).set index newValue) }

def clearOperands (value : ν) : Option (HValues ν) :=
  (List.range (g.operands value).length).foldlM (fun t i => t.setOperandAt value i none) g

end HValues

/-- The uses of all values in their nodes. -/
abbrev Uses (ν : Type) := ν → List (Nat × ν × Nat)

/-- The nodes are linked to disjoint lists. -/
structure Lists (g : HValues ν) (uses : Uses ν) : Prop where
  linked : ∀ v, Linked HUseListNode.tail g.nodes (g.useList v) ((uses v).map Prod.fst)
  node : ∀ v, ∀ p ∈ uses v, ∃ n, g.nodes[p.1]? = some n ∧ n.value = p.2.1 ∧ n.index = p.2.2
  apart : ∀ v w, ∀ i ∈ (uses v).map Prod.fst, i ∈ (uses w).map Prod.fst → v = w
  nodup : ∀ v, ((uses v).map Prod.fst).Nodup

/-- The lists have each use once, and are those of the operands. -/
structure Consistent (g : HValues ν) (uses : Uses ν) : Prop extends Lists g uses where
  use_iff : ∀ v value index, (value, index) ∈ (uses v).map Prod.snd ↔ (g.operands value)[index]? = some (some v)
  once : ∀ v, ((uses v).map Prod.snd).Nodup

section Lists

variable {g : HValues ν} {uses : Uses ν} {v w value : ν} {index n : Nat} {pre post : List (Nat × ν × Nat)}

/-- The search stops at the first node of the use. -/
theorem findUse_eq {nodes : List (HUseListNode ν)} {bound : Nat} {start : Option Nat} (previous : Option Nat)
    (hnode : ∀ p ∈ pre ++ (n, value, index) :: post, ∃ m, nodes[p.1]? = some m ∧
      m.value = p.2.1 ∧ m.index = p.2.2)
    (hlink : Linked HUseListNode.tail nodes start ((pre ++ (n, value, index) :: post).map Prod.fst))
    (hnot : (value, index) ∉ pre.map Prod.snd)
    (hbound : (pre ++ (n, value, index) :: post).length ≤ bound) :
    findUse nodes value index bound previous start =
      some (((pre.getLast?).map Prod.fst).or previous, some n) := by
  induction pre generalizing previous start bound with
  | nil =>
    obtain ⟨hstart, m, hm, -⟩ := hlink
    obtain ⟨m', hm', hvalue, hindex⟩ := hnode (n, value, index) mem_cons_self
    have hsame : m = m' := some.inj (hm.symm.trans hm')
    obtain ⟨bound, rfl⟩ := Nat.exists_eq_add_of_lt (Nat.lt_of_lt_of_le (Nat.succ_pos _) hbound)
    rw [Nat.zero_add, hstart, findUse]
    grind
  | cons p pre ih =>
    obtain ⟨hstart, m, hm, hrest⟩ := hlink
    obtain ⟨m', hm', hvalue, hindex⟩ := hnode p mem_cons_self
    have hsame : m = m' := some.inj (hm.symm.trans hm')
    rw [cons_append, length_cons] at hbound
    obtain ⟨bound, rfl⟩ := Nat.exists_eq_add_of_lt (Nat.lt_of_lt_of_le (Nat.succ_pos _) hbound)
    rw [map_cons, mem_cons, not_or] at hnot
    have hother : ¬(m.value = value ∧ m.index = index) := by
      grind
    have hshorter : (pre ++ (n, value, index) :: post).length ≤ bound := by omega
    have hnext := ih (some p.1) (fun q hq => hnode q (mem_cons_of_mem p hq)) hrest hnot.2 hshorter
    rw [Nat.zero_add, hstart, findUse, hm, bind_some, if_neg hother, hnext]
    grind

/-- A node is taken out of its list. -/
theorem Lists.removeUse (h : Lists g uses) (huses : uses v = pre ++ (n, value, index) :: post)
    (hnot : (value, index) ∉ pre.map Prod.snd) :
    ∃ t, g.removeUse v value index = some (t, some n) ∧
      Lists t (Function.update uses v (pre ++ post)) ∧ t.operands = g.operands ∧
      ∃ m, t.nodes[n]? = some m ∧ m.value = value ∧ m.index = index := by
  have hlink := h.linked v
  have hnodup := h.nodup v
  have hnodes := h.node v
  have hlen := hlink.length_le hnodup
  rw [huses] at hlink hnodup hnodes
  rw [huses, length_map] at hlen
  obtain ⟨m, hm, hvalue, hindex⟩ := hnodes (n, value, index) (mem_append_right pre mem_cons_self)
  have hfound := findUse_eq none hnodes hlink hnot hlen
  rw [or_none] at hfound
  have hsub : ∀ x, ∀ p ∈ Function.update uses v (pre ++ post) x, p ∈ uses x := by
    intro x p hp
    by_cases hx : x = v
    · subst hx
      rw [update_self] at hp
      rw [huses]
      exact ((sublist_cons_self _ _).append_left pre).subset hp
    · rwa [update_of_ne hx] at hp
  have hapart : ∀ x y, ∀ i ∈ (Function.update uses v (pre ++ post) x).map Prod.fst,
      i ∈ (Function.update uses v (pre ++ post) y).map Prod.fst → x = y := by
    intro x y i hi hi'
    obtain ⟨p, hp, rfl⟩ := mem_map.1 hi
    obtain ⟨q, hq, heq⟩ := mem_map.1 hi'
    exact h.apart x y p.1 (mem_map_of_mem (hsub x p hp)) (heq ▸ mem_map_of_mem (hsub y q hq))
  have hnodup' : ∀ x, ((Function.update uses v (pre ++ post) x).map Prod.fst).Nodup := by
    intro x
    by_cases hx : x = v
    · subst hx
      rw [update_self]
      exact hnodup.sublist (((sublist_cons_self _ _).append_left pre).map Prod.fst)
    · rw [update_of_ne hx]
      exact h.nodup x
  rw [HValues.removeUse, hfound]
  simp only [bind_some, hm]
  rcases eq_nil_or_concat pre with rfl | ⟨pre, q, rfl⟩
  · -- the node is the first of its list
    refine ⟨_, rfl, ⟨?_, fun x p hp => h.node x p (hsub x p hp), hapart, hnodup'⟩, rfl, m, hm, hvalue, hindex⟩
    intro x
    by_cases hx : x = v
    · subst hx
      obtain ⟨-, m', hm', hrest⟩ := hlink
      grind
    · simp only [update_of_ne hx]
      exact h.linked x
  · -- the node before it goes on to the next one
    rw [concat_eq_append] at *
    obtain ⟨b, hb, hbvalue, hbindex⟩ := hnodes q (by simp)
    have hmap : ((pre ++ [q]) ++ (n, value, index) :: post).map Prod.fst =
        pre.map Prod.fst ++ q.1 :: n :: post.map Prod.fst := by simp
    have hmap' : ((pre ++ [q]) ++ post).map Prod.fst = pre.map Prod.fst ++ q.1 :: post.map Prod.fst := by simp
    rw [hmap] at hlink hnodup
    have hne : q.1 ≠ n := by
      grind
    have hqv : q.1 ∈ (uses v).map Prod.fst := by
      rw [huses]
      simp
    have hqlt : q.1 < g.nodes.length := (List.getElem?_eq_some_iff.1 hb).1
    simp only [getLast?_concat, map_some, hb, bind_some]
    refine ⟨_, rfl, ⟨?_, ?_, hapart, hnodup'⟩, rfl, m, ?_, hvalue, hindex⟩
    · intro x
      by_cases hx : x = v
      · subst hx
        rw [update_self, hmap']
        exact hlink.unlink hm rfl hnodup
      · rw [update_of_ne hx]
        apply (h.linked x).frame
        intro i hi
        have hother : q.1 ≠ i := by
          rintro rfl
          exact hx (h.apart x v q.1 hi hqv)
        exact List.getElem?_set_ne hother
    · intro x p hp
      obtain ⟨a, ha, havalue, haindex⟩ := h.node x p (hsub x p hp)
      by_cases hpq : q.1 = p.1
      · grind
      · grind
    · exact (List.getElem?_set_ne hne).trans hm

/-- The node that is taken out is in no list. -/
theorem Lists.removed_free (h : Lists g uses) (huses : uses v = pre ++ (n, value, index) :: post)
    (x : ν) : n ∉ (Function.update uses v (pre ++ post) x).map Prod.fst := by
  have hnodup := h.nodup v
  rw [huses, map_append, map_cons, nodup_middle, nodup_cons] at hnodup
  by_cases hx : x = v
  · grind
  · rw [update_of_ne hx]
    intro hn
    have hv : n ∈ (uses v).map Prod.fst := by
      rw [huses]
      simp
    exact hx (h.apart x v n hn hv)

/-- A node in no list becomes the first of one. -/
theorem Lists.push {nodes : List (HUseListNode ν)} {m : HUseListNode ν} (h : Lists g uses)
    (hsame : ∀ i, i ≠ n → i < g.nodes.length → nodes[i]? = g.nodes[i]?)
    (hm : nodes[n]? = some m) (htail : m.tail = g.useList w) (hvalue : m.value = value)
    (hindex : m.index = index) (hfree : ∀ x, n ∉ (uses x).map Prod.fst) :
    Lists { g with nodes := nodes, useList := Function.update g.useList w (some n) }
      (Function.update uses w ((n, value, index) :: uses w)) := by
  have hkept : ∀ x, ∀ i ∈ (uses x).map Prod.fst, nodes[i]? = g.nodes[i]? := by
    intro x i hi
    exact hsame i (ne_of_mem_of_not_mem hi (hfree x)) ((h.linked x).lt_length i hi)
  have hmem : ∀ x, ∀ i ∈ (Function.update uses w ((n, value, index) :: uses w) x).map Prod.fst,
      i = n ∧ x = w ∨ i ∈ (uses x).map Prod.fst := by
    grind
  constructor
  · intro x
    by_cases hx : x = w
    · subst hx
      simp only [update_self]
      refine ⟨rfl, m, hm, ?_⟩
      rw [htail]
      exact (h.linked x).frame (hkept x)
    · simp only [update_of_ne hx]
      exact (h.linked x).frame (hkept x)
  · intro x p hp
    have hold : ∀ p ∈ uses x, ∃ a, nodes[p.1]? = some a ∧ a.value = p.2.1 ∧ a.index = p.2.2 := by
      intro p hp
      rw [hkept x p.1 (mem_map_of_mem hp)]
      exact h.node x p hp
    by_cases hx : x = w
    · grind
    · grind
  · intro x y i hi hi'
    rcases hmem x i hi with ⟨hin, hx⟩ | hx
    · grind
    · rcases hmem y i hi' with ⟨hin, -⟩ | hy
      · exact absurd (hin ▸ hx) (hfree x)
      · exact h.apart x y i hx hy
  · intro x
    by_cases hx : x = w
    · subst hx
      rw [update_self, map_cons, nodup_cons]
      exact ⟨hfree x, h.nodup x⟩
    · rw [update_of_ne hx]
      exact h.nodup x

end Lists

section Operands

variable {g t : HValues ν} {uses uses' : Uses ν} {v w value : ν} {index n : Nat} {old new : Option ν}

theorem getElem?_update_operands {operands : ν → List (Option ν)}
    (hold : (operands value)[index]? = some old) (new : Option ν) (u : ν) (k : Nat) :
    (Function.update operands value ((operands value).set index new) u)[k]? =
      if u = value ∧ k = index then some new else (operands u)[k]? := by
  grind

/-- The lists after one operand has been replaced. -/
theorem Consistent.replaced (h : Consistent g uses) (hlists : Lists t uses')
    (hold : (g.operands value)[index]? = some old)
    (hops : t.operands = Function.update g.operands value ((g.operands value).set index new))
    (hmem : ∀ x u k, (u, k) ∈ (uses' x).map Prod.snd ↔
      if u = value ∧ k = index then new = some x else (u, k) ∈ (uses x).map Prod.snd)
    (honce : ∀ x, ((uses' x).map Prod.snd).Nodup) : Consistent t uses' where
  toLists := hlists
  use_iff x u k := by
    rw [hmem, hops, getElem?_update_operands hold]
    split
    · rw [Option.some.injEq]
    · exact h.use_iff x u k
  once := honce

omit [DecidableEq ν] in
/-- A use of one value is in no list of another. -/
theorem Consistent.not_mem (h : Consistent g uses) (hold : (g.operands value)[index]? = some old)
    (hne : old ≠ some w) : (value, index) ∉ (uses w).map Prod.snd := by
  rw [h.use_iff, hold, Option.some.injEq]
  exact hne

variable {post pre : List (Nat × ν × Nat)}

/-- The list without the use of a replaced operand. -/
theorem Consistent.mem_without (h : Consistent g uses) (hold : (g.operands value)[index]? = some (some v))
    (huses : uses v = pre ++ (n, value, index) :: post) (x u : ν) (k : Nat) :
    (u, k) ∈ (Function.update uses v (pre ++ post) x).map Prod.snd ↔
      ¬(u = value ∧ k = index) ∧ (u, k) ∈ (uses x).map Prod.snd := by
  by_cases hx : x = v
  · subst hx
    have honce := h.once x
    rw [huses, map_append, map_cons, nodup_middle, nodup_cons, ← map_append] at honce
    rw [update_self, huses, map_append, map_append, map_cons,
      mem_append, mem_append, mem_cons, Prod.mk.injEq]
    constructor
    · intro hmem
      have hmem' : (u, k) ∈ (pre ++ post).map Prod.snd := by
        grind
      grind
    grind
  · rw [update_of_ne hx]
    refine ⟨fun hmem => ⟨?_, hmem⟩, And.right⟩
    rintro ⟨rfl, rfl⟩
    refine h.not_mem hold (fun heq => hx ?_) hmem
    exact (some.inj heq).symm

theorem Consistent.once_without (h : Consistent g uses)
    (huses : uses v = pre ++ (n, value, index) :: post) (x : ν) :
    ((Function.update uses v (pre ++ post) x).map Prod.snd).Nodup := by
  by_cases hx : x = v
  · subst hx
    have honce := h.once x
    rw [huses] at honce
    rw [update_self]
    exact honce.sublist (((sublist_cons_self _ _).append_left pre).map Prod.snd)
  · rw [update_of_ne hx]
    exact h.once x

/-- The new use is the first of its list. -/
theorem mem_pushed (x u : ν) (k : Nat) :
    (u, k) ∈ (Function.update uses w ((n, value, index) :: uses w) x).map Prod.snd ↔
      x = w ∧ u = value ∧ k = index ∨ (u, k) ∈ (uses x).map Prod.snd := by
  grind

theorem once_pushed (honce : ∀ x, ((uses x).map Prod.snd).Nodup)
    (hnot : (value, index) ∉ (uses w).map Prod.snd) (x : ν) :
    ((Function.update uses w ((n, value, index) :: uses w) x).map Prod.snd).Nodup := by
  grind

/-- Where the lists have the uses of the operands after one has been replaced. -/
structure Moved (g t : HValues ν) (uses uses' : Uses ν) (value : ν) (index : Nat) (new : Option ν) : Prop where
  lists : Lists t uses'
  operands : t.operands = g.operands
  mem : ∀ x u k, (u, k) ∈ (uses' x).map Prod.snd ↔
    if u = value ∧ k = index then new = some x else (u, k) ∈ (uses x).map Prod.snd
  once : ∀ x, ((uses' x).map Prod.snd).Nodup
  others : ∀ v, new ≠ some v → uses' v = (uses v).filter fun p => p.2 ≠ (value, index)

theorem filter_of_not_mem {l : List (Nat × ν × Nat)} {use : ν × Nat}
    (h : use ∉ l.map Prod.snd) : (l.filter fun p => p.2 ≠ use) = l := by
  rw [filter_eq_self]
  grind

/-- Without its node, the list has no use of the operand. -/
theorem filter_split {use : ν × Nat} (h : use ∉ (pre ++ post).map Prod.snd) :
    ((pre ++ (n, use) :: post).filter fun p => p.2 ≠ use) = pre ++ post := by
  rw [map_append, mem_append, not_or] at h
  rw [filter_append, filter_cons, if_neg (by simp), filter_of_not_mem h.1, filter_of_not_mem h.2]

theorem Consistent.addNew (h : Consistent g uses) (hold : (g.operands value)[index]? = some none)
    (w : ν) : ∃ t uses', g.addUse w value index none = some t ∧ Moved g t uses uses' value index (some w) := by
  have hfree : ∀ x, g.nodes.length ∉ (uses x).map Prod.fst :=
    fun x hx => lt_irrefl _ ((h.linked x).lt_length _ hx)
  have hnot : ∀ x, (value, index) ∉ (uses x).map Prod.snd := fun x => h.not_mem hold nofun
  have hlast : (g.nodes ++ [⟨g.useList w, value, index⟩])[g.nodes.length]? =
      some ⟨g.useList w, value, index⟩ := List.getElem?_concat_length
  refine ⟨_, _, rfl, ?_, rfl, ?_, once_pushed (n := g.nodes.length) h.once (hnot w), ?_⟩
  · exact h.toLists.push (fun i _ hi => List.getElem?_append_left hi) hlast rfl rfl rfl hfree
  · intro x u k
    rw [mem_pushed]
    grind
  · intro v hv
    have hne : v ≠ w := fun heq => hv (congrArg some heq.symm)
    rw [update_of_ne hne, filter_of_not_mem (hnot v)]

/-- The node of the old use is used again. -/
theorem Consistent.moveUse (h : Consistent g uses)
    (hold : (g.operands value)[index]? = some (some v)) (hne : new ≠ some v) :
    ∃ t uses', g.registerUse value index new = some t ∧ Moved g t uses uses' value index new := by
  have hmem := (h.use_iff v value index).2 hold
  obtain ⟨⟨n, value, index⟩, hp, heq⟩ := mem_map.1 hmem
  cases heq
  obtain ⟨pre, post, huses⟩ := append_of_mem hp
  have honce := h.once v
  rw [huses, map_append, map_cons, nodup_middle, nodup_cons, ← map_append] at honce
  have hnot : (value, index) ∉ pre.map Prod.snd := by
    grind
  obtain ⟨t, ht, hlists, hops, m, hm, hmvalue, hmindex⟩ :=
    h.toLists.removeUse huses hnot
  have hfree := h.toLists.removed_free huses
  have hwithout := h.mem_without hold huses
  have honce' := h.once_without huses
  have hoth : ∀ x, Function.update uses v (pre ++ post) x =
      (uses x).filter fun p => p.2 ≠ (value, index) := by
    intro x
    by_cases hx : x = v
    · subst hx
      rw [update_self, huses, filter_split honce.1]
    · rw [update_of_ne hx]
      refine (filter_of_not_mem (h.not_mem hold fun heq => hx ?_)).symm
      exact (some.inj heq).symm
  rw [HValues.registerUse, hold, bind_some, if_neg (Ne.symm hne)]
  simp only [ht, bind_some]
  cases new with
  | none =>
    refine ⟨t, _, rfl, hlists, hops, ?_, honce', fun x _ => hoth x⟩
    simp [hwithout]
  | some w =>
    have hlt : n < t.nodes.length := (List.getElem?_eq_some_iff.1 hm).1
    have hadd : t.addUse w value index (some n) = some { t with
        nodes := t.nodes.set n { m with tail := t.useList w }
        useList := Function.update t.useList w (some n) } := by
      rw [HValues.addUse, hm]
      rfl
    have hnotw : (value, index) ∉ (Function.update uses v (pre ++ post) w).map Prod.snd := by
      grind
    refine ⟨_, _, hadd, ?_, hops, ?_, once_pushed (n := n) honce' hnotw, ?_⟩
    · apply hlists.push
      · grind
      · exact List.getElem?_set_self hlt
      · rfl
      · exact hmvalue
      · exact hmindex
      · exact hfree
    · intro x u k
      rw [mem_pushed, hwithout]
      split
      · grind
      · grind
    · intro x hx
      have hxw : x ≠ w := fun heq => hx (congrArg some heq.symm)
      rw [update_of_ne hxw]
      exact hoth x

/-- `SetOperandAt` keeps the use lists consistent. The other lists only lose the use. -/
theorem Consistent.setOperandAt (h : Consistent g uses)
    (hold : (g.operands value)[index]? = some old) (new : Option ν) :
    ∃ t uses', g.setOperandAt value index new = some t ∧ Consistent t uses' ∧
      t.operands = Function.update g.operands value ((g.operands value).set index new) ∧
      ∀ v, new ≠ some v → uses' v = (uses v).filter fun p => p.2 ≠ (value, index) := by
  by_cases hsame : old = new
  · subst hsame
    obtain ⟨hlt, hget⟩ := List.getElem?_eq_some_iff.1 hold
    have hset : (g.operands value).set index old = g.operands value := by
      rw [← hget]
      exact set_getElem_self hlt
    refine ⟨{ g with operands := Function.update g.operands value (g.operands value) }, uses, ?_, ?_, ?_, ?_⟩
    · rw [HValues.setOperandAt, HValues.registerUse, hold, bind_some, if_pos rfl, map_some, hset]
    · rw [update_eq_self]
      exact h
    · rw [hset]
    · intro v hv
      exact (filter_of_not_mem (h.not_mem hold hv)).symm
  · have hmoved : ∃ t uses', g.registerUse value index new = some t ∧ Moved g t uses uses' value index new := by
      cases old with
      | some v => exact h.moveUse hold (Ne.symm hsame)
      | none =>
        cases new with
        | none => exact absurd rfl hsame
        | some w =>
          rw [HValues.registerUse, hold, bind_some, if_neg hsame]
          exact h.addNew hold w
    obtain ⟨t, uses', ht, hmoved⟩ := hmoved
    refine ⟨{ t with operands :=
        Function.update t.operands value ((t.operands value).set index new) }, uses', ?_, ?_, ?_,
      hmoved.others⟩
    · rw [HValues.setOperandAt, ht, map_some]
    · have hlists := hmoved.lists
      refine h.replaced ⟨hlists.linked, hlists.node, hlists.apart, hlists.nodup⟩ hold ?_ hmoved.mem hmoved.once
      rw [hmoved.operands]
    · rw [hmoved.operands]

/-- The operands with these indices become `NULL`. -/
theorem Consistent.clear_all (h : Consistent g uses) (indices : List Nat)
    (hlt : ∀ k ∈ indices, k < (g.operands value).length) :
    ∃ t uses', indices.foldlM (fun t i => t.setOperandAt value i none) g = some t ∧
      Consistent t uses' ∧ (∀ u, u ≠ value → t.operands u = g.operands u) ∧
      ∀ k, (t.operands value)[k]? = if k ∈ indices then (g.operands value)[k]?.map fun _ => none
        else (g.operands value)[k]? := by
  induction indices generalizing g uses with
  | nil => grind
  | cons i indices ih =>
    have hi := hlt i mem_cons_self
    have hold := List.getElem?_eq_getElem hi
    obtain ⟨t, uses', ht, hcons, hops, -⟩ := h.setOperandAt hold none
    have hlen : (t.operands value).length = (g.operands value).length := by
      rw [hops, update_self, length_set]
    obtain ⟨t', uses'', ht', hcons', hoth, hcleared⟩ := ih hcons fun k hk => by
      grind
    refine ⟨t', uses'', ?_, hcons', ?_, ?_⟩
    · rw [foldlM_cons, ht]
      exact ht'
    · intro u hu
      rw [hoth u hu, hops, update_of_ne hu]
    · intro k
      have hk := getElem?_update_operands hold none value k
      rw [← hops] at hk
      grind

theorem Consistent.clearOperands (h : Consistent g uses) (value : ν) :
    ∃ t uses', g.clearOperands value = some t ∧ Consistent t uses' ∧
      (∀ u, u ≠ value → t.operands u = g.operands u) ∧
      t.operands value = (g.operands value).map fun _ => none := by
  obtain ⟨t, uses', ht, hcons, hoth, hcleared⟩ :=
    h.clear_all (List.range (g.operands value).length) fun k hk => mem_range.1 hk
  refine ⟨t, uses', ht, hcons, hoth, ?_⟩
  apply ext_getElem?
  intro k
  rw [hcleared k, List.getElem?_map]
  grind

end Operands

end W16.UseLists
