import W16.CellBlockMethods
import W16.RememberedSet
import Mathlib.Data.Set.Function

/-!
# Runs of a `CellMap`

Objects are added in any number, and a collection that moves objects may come at any time.
The cells stay where `AddMapping` returned them, and the object map leads to them from where
the objects are then.
-/
namespace W16.CellBlocks

open W16.CellBlocks.CellMap List

set_option linter.dupNamespace false

variable {α : Type}

/-- A call of `AddMapping`, with what `malloc` returns where the call needs a block. -/
structure Mapping (α : Type) where
  block : Nat
  cells : Nat → CellPair α
  object : α
  redirect : α

namespace Mapping

def pair (a : Mapping α) : CellPair α := ⟨a.object, a.redirect⟩

end Mapping

inductive Call (α : Type) where
  | addMapping (a : Mapping α)
  | iterate (relocate : α → α)

variable [DecidableEq α]

/-- The cells are those that the calls of `AddMapping` returned. -/
def run : CellMap α → List (Call α) → Option (CellMap α × List Cell)
  | m, [] => some (m, [])
  | m, .addMapping a :: calls => do
    let (m, c) ← m.addMapping a.block a.cells a.object a.redirect
    let (m, cs) ← run m calls
    some (m, c :: cs)
  | m, .iterate relocate :: calls =>
    match m.iterate (fun x (_ : Unit) => (relocate x, ())) () with
    | .ok (m, _) => run m calls
    | .error _ => none

omit [DecidableEq α] in
/-- The pairs that the calls leave, in the order in which they were added. -/
def pairsAfter : List (CellPair α) → List (Call α) → List (CellPair α)
  | pairs, [] => pairs
  | pairs, .addMapping a :: calls => pairsAfter (pairs ++ [a.pair]) calls
  | pairs, .iterate relocate :: calls =>
    pairsAfter (pairs.map fun p => ⟨relocate p.from_, relocate p.to_⟩) calls

def blocks : List (Call α) → List Nat
  | [] => []
  | .addMapping a :: calls => a.block :: blocks calls
  | .iterate _ :: calls => blocks calls

/-- The objects that are added are new, and no two objects of the pairs are moved together. -/
def Allowed : List (CellPair α) → List (Call α) → Prop
  | _, [] => True
  | pairs, .addMapping a :: calls =>
    a.object ∉ pairs.map CellPair.from_ ∧ Allowed (pairs ++ [a.pair]) calls
  | pairs, .iterate relocate :: calls =>
    Set.InjOn relocate {x | ∃ p ∈ pairs, x = p.from_ ∨ x = p.to_} ∧
      Allowed (pairs.map fun p => ⟨relocate p.from_, relocate p.to_⟩) calls

/-- The pairs that are there keep their cells, and the returned cells are those of the others. -/
theorem run_keyed {m : CellMap α} {pairs : List (CellPair α)} {calls : List (Call α)} (h : m.Keyed pairs)
    (hfresh : ∀ b ∈ blocks calls, b ∉ m.allocated) (hblocks : (blocks calls).Nodup) :
    ∃ m' cells, run m calls = some (m', cells) ∧ m'.Keyed (pairsAfter pairs calls) ∧
      (pairsAfter pairs calls).length = pairs.length + cells.length ∧
      (∀ k < pairs.length, m'.nthCell k = m.nthCell k) ∧
      ∀ k < cells.length, cells[k]? = some (m'.nthCell (pairs.length + k)) := by
  induction calls generalizing m pairs with
  | nil => exact ⟨m, [], rfl, h, rfl, fun _ _ => rfl, fun k hk => absurd hk (Nat.not_lt_zero k)⟩
  | cons call calls ih =>
    cases call with
    | addMapping a =>
      obtain ⟨hnotin, hblocks⟩ := nodup_cons.1 hblocks
      obtain ⟨m₁, c, hadd, hkeyed, hcell, hoth, halloc⟩ :=
        addMapping_keyed h (hfresh a.block (.head _)) a.cells a.object a.redirect
      have hfresh₁ : ∀ b ∈ blocks calls, b ∉ m₁.allocated := by
        intro b hb hmem
        rcases halloc b hmem with hold | rfl
        · exact hfresh b (.tail _ hb) hold
        · exact hnotin hb
      obtain ⟨m', cells, hrun, hkeyed', hlen, hkept, hreturned⟩ := ih hkeyed hfresh₁ hblocks
      rw [length_append, length_singleton] at hlen hkept hreturned
      refine ⟨m', c :: cells, ?_, hkeyed', ?_, fun k hk => ?_, fun k hk => ?_⟩
      · simp [run, hadd, hrun]
      · rw [length_cons]
        exact hlen.trans (by omega)
      · rw [hkept k (by omega), hoth k hk]
      · cases k with
        | zero => simp [hkept, hcell]
        | succ k =>
          rw [List.getElem?_cons_succ, hreturned k (Nat.lt_of_succ_lt_succ hk)]
          congr 2
          omega
    | iterate relocate =>
      obtain ⟨m₁, hiterate, hkeyed, halloc⟩ := iterate_spec h (fun x (_ : Unit) => (relocate x, ())) ()
      rw [visitPairs_map] at hiterate hkeyed
      obtain ⟨m', cells, hrun, hkeyed', hlen, hkept, hreturned⟩ :=
        ih hkeyed (by rw [halloc]; exact hfresh) hblocks
      rw [length_map] at hlen hkept hreturned
      refine ⟨m', cells, ?_, hkeyed', hlen, fun k hk => ?_, hreturned⟩
      · rw [run, hiterate]
        exact hrun
      · rw [hkept k hk, nthCell_congr halloc]

omit [DecidableEq α] in
theorem pairsAfter_nodup {pairs : List (CellPair α)} {calls : List (Call α)}
    (hpairs : (pairs.map CellPair.from_).Nodup) (h : Allowed pairs calls) :
    ((pairsAfter pairs calls).map CellPair.from_).Nodup := by
  induction calls generalizing pairs with
  | nil => exact hpairs
  | cons call calls ih =>
    cases call with
    | addMapping a =>
      refine ih ?_ h.2
      rw [map_append]
      exact nodup_append.2 ⟨hpairs, nodup_singleton _, by
        rintro x hx y hy rfl
        exact h.1 ((mem_singleton.1 hy : x = a.object) ▸ hx)⟩
    | iterate relocate =>
      refine ih ?_ h.2
      have hmap : (pairs.map fun p => (⟨relocate p.from_, relocate p.to_⟩ : CellPair α)).map CellPair.from_ =
          (pairs.map CellPair.from_).map relocate := by simp
      rw [hmap]
      refine hpairs.map_on fun x hx y hy heq => h.1 ?_ ?_ heq
      · obtain ⟨p, hp, rfl⟩ := List.mem_map.1 hx
        exact ⟨p, hp, .inl rfl⟩
      · obtain ⟨p, hp, rfl⟩ := List.mem_map.1 hy
        exact ⟨p, hp, .inl rfl⟩

/-- From an empty map on, the calls return the cells of the pairs. -/
theorem run_new (memory : Nat → Block α) {calls : List (Call α)} (hblocks : (blocks calls).Nodup) :
    ∃ m : CellMap α, run (new memory) calls = some (m, cells m (pairsAfter [] calls).length) ∧
      m.Keyed (pairsAfter [] calls) := by
  obtain ⟨m, returned, hrun, hkeyed, hlen, -, hcells⟩ :=
    run_keyed (new_keyed memory) (fun _ _ h => nomatch h) hblocks
  simp only [length_nil, Nat.zero_add] at hlen hcells
  have hreturned : returned = cells m (pairsAfter [] calls).length := by
    refine ext_getElem? fun k => ?_
    rcases Nat.lt_or_ge k returned.length with hk | hk
    · rw [hcells k hk, (getElem?_cells m _ k _).2 ⟨by omega, rfl⟩]
    · simp [cells, hk, hlen]
  exact ⟨m, hreturned ▸ hrun, hkeyed⟩

/-- After any calls the returned cells hold the relocated pairs, they are the locations that are
mapped, and an object is mapped to the cell of the pair whose relocated object it is, if any. -/
theorem cellMap_survives (memory : Nat → Block α) (calls : List (Call α)) (hblocks : (blocks calls).Nodup)
    (hallowed : Allowed [] calls) :
    ∃ m cells, run (new memory) calls = some (m, cells) ∧ cells.Nodup ∧ cells.map m.pair = pairsAfter [] calls ∧
      (∀ c, m.isMapped c = true ↔ c ∈ cells) ∧
      ∀ x c, m.getMapping x = some c ↔
        ∃ (k : Nat) (p : CellPair α), (pairsAfter [] calls)[k]? = some p ∧ p.from_ = x ∧ cells[k]? = some c := by
  obtain ⟨m, hrun, hkeyed⟩ := run_new memory hblocks
  refine ⟨m, _, hrun, hkeyed.cells_nodup, hkeyed.map_pair, fun c => ?_, fun x c => ?_⟩
  · rw [isMapped, decide_eq_true_iff, hkeyed.located, mem_iff_getElem?]
    exact exists_congr fun k => (getElem?_cells m _ k c).symm
  · have hnodup : ((pairsAfter [] calls).map CellPair.from_).Nodup := pairsAfter_nodup nodup_nil hallowed
    rw [getMapping, hkeyed.mapped, firstCell_eq_some _ hnodup]
    refine exists_congr fun k => exists_congr fun p => ?_
    rw [getElem?_cells]
    constructor
    · rintro ⟨hk, hfrom, hc⟩
      exact ⟨hk, hfrom, (List.getElem?_eq_some_iff.1 hk).1, hc⟩
    · rintro ⟨hk, hfrom, -, hc⟩
      exact ⟨hk, hfrom, hc⟩

/-- Blocks of the pool before their first use. -/
def unusedBlocks : Nat → Block Nat := fun _ => ⟨fun _ => ⟨0, 0⟩, none⟩

/-- The second object moves to where the first one was. -/
def shiftCalls : List (Call Nat) :=
  [.addMapping ⟨0, fun _ => ⟨0, 0⟩, 8, 8⟩, .addMapping ⟨1, fun _ => ⟨0, 0⟩, 16, 40⟩, .iterate (· - 8)]

theorem shiftCalls_allowed : Allowed [] shiftCalls := by
  refine ⟨by simp, by simp [Mapping.pair], ?_, trivial⟩
  intro x hx y hy heq
  simp [Mapping.pair] at hx hy heq
  omega

theorem cellMap_survives_shift : ∃ m cells, run (new unusedBlocks) shiftCalls = some (m, cells) ∧
      m.getMapping 8 = cells[1]? ∧ m.getMapping 16 = none := by
  obtain ⟨m, cells, hrun, -, hpairs, -, hmapping⟩ :=
    cellMap_survives unusedBlocks shiftCalls (by decide) shiftCalls_allowed
  have hlen : cells.length = 2 := by
    rw [← length_map, hpairs]
    rfl
  refine ⟨m, cells, hrun, ?_, ?_⟩
  · rw [List.getElem?_eq_getElem (show 1 < cells.length by omega), hmapping]
    exact ⟨1, ⟨8, 32⟩, rfl, rfl, List.getElem?_eq_getElem _⟩
  · refine Option.eq_none_iff_forall_ne_some.2 fun c hc => ?_
    obtain ⟨k, p, hk, hfrom, -⟩ := (hmapping 16 c).1 hc
    have hmem : p ∈ [(⟨0, 0⟩ : CellPair Nat), ⟨8, 32⟩] := mem_of_getElem? hk
    have hp : p = ⟨0, 0⟩ ∨ p = ⟨8, 32⟩ := by simpa using hmem
    rcases hp with rfl | rfl <;> simp at hfrom

end W16.CellBlocks

/-!
## Conflicts and commits over the blocks

What the walks of a `CellMap` visit after any number of calls of `AddMapping`. On the pairs in
their order the blocks refine the list of pairs of a read or write set, for the test of two sets
and for the commit, which copies each private copy over its object.
-/
namespace W16.CellBlocks

open W16.CellBlocks.CellMap

variable {α : Type}

/-! ## The walks -/

def additions (adds : List (Mapping α)) : List (Call α) := adds.map .addMapping

theorem pairsAfter_additions (pairs : List (CellPair α)) (adds : List (Mapping α)) :
    pairsAfter pairs (additions adds) = pairs ++ adds.map Mapping.pair := by
  induction adds generalizing pairs with
  | nil => exact (List.append_nil pairs).symm
  | cons a adds ih =>
    rw [List.map_cons, List.append_cons]
    exact ih (pairs ++ [a.pair])

theorem blocks_additions (adds : List (Mapping α)) : blocks (additions adds) = adds.map Mapping.block := by
  induction adds with
  | nil => rfl
  | cons a adds ih =>
    rw [List.map_cons, ← ih]
    rfl

variable [DecidableEq α]

/-- The walks over one map visit its cells, each of them once and in their order, and the cells
hold the pairs. -/
structure Walked (m : CellMap α) (cells : List Cell) (pairs : List (CellPair α)) : Prop where
  once : cells.Nodup
  held : cells.map m.pair = pairs
  iterate : ∀ (σ : Type) (visitPointer : α → σ → α × σ) (s : σ),
    visits m (visitPair visitPointer) (m, false, s) = cells ∧
      ∃ m', m.iterate visitPointer s = .ok (m', (visitPairs visitPointer pairs s).2) ∧
        cells.map m'.pair = (visitPairs visitPointer pairs s).1
  rebuildObjectMap : visits m (insertPair m) (fun _ => none) = cells ∧ m.rebuildObjectMap = .ok m
  mapped : ∀ x, m.getMapping x = cells.find? fun c => decide ((m.pair c).from_ = x)
  commitChanges : ∀ (H : Type) (copyBlock : H → α → α → H) (heap : H),
    visits m (copyPair m copyBlock) heap = cells ∧
      m.commitChanges copyBlock heap = .ok (pairs.foldl (fun heap p => copyBlock heap p.from_ p.to_) heap)

theorem walked {m : CellMap α} {pairs : List (CellPair α)} (h : m.Keyed pairs) :
    Walked m (m.cells pairs.length) pairs where
  once := h.cells_nodup
  held := h.map_pair
  iterate σ visitPointer s := by
    obtain ⟨m', hiterate, hkeyed, halloc⟩ := iterate_spec h visitPointer s
    have hcells : m'.cells pairs.length = m.cells pairs.length :=
      List.map_congr_left fun k _ => nthCell_congr halloc k
    refine ⟨?_, m', hiterate, ?_⟩
    · rw [visits_eq h.toHolds]
      exact visitsOf_ok _ (fun _ _ => ⟨_, rfl⟩) _ _
    · rw [← hkeyed.map_pair, length_visitPairs, hcells]
  rebuildObjectMap := by
    constructor
    · rw [visits_eq h.toHolds]
      exact visitsOf_ok _ (fun _ _ => ⟨_, rfl⟩) _ _
    · rw [rebuildObjectMap_eq h.toRepresents, ← h.mapped]
  mapped x := by
    have hfind : (pairs.findIdx? fun p => decide (p.from_ = x)) =
        (m.cells pairs.length).findIdx? fun c => decide ((m.pair c).from_ = x) := by
      conv_lhs => rw [← h.map_pair]
      rw [List.findIdx?_map]
      rfl
    rw [getMapping, h.mapped, firstCell, hfind, List.find?_eq_bind_findIdx?_getElem?]
    cases hk : (m.cells pairs.length).findIdx? fun c => decide ((m.pair c).from_ = x) with
    | none => rfl
    | some k =>
      have hlt := (List.findIdx?_eq_some_iff_getElem.1 hk).1
      have hcell := (getElem?_cells m pairs.length k (m.nthCell k)).2 ⟨by simpa [CellMap.cells] using hlt, rfl⟩
      exact hcell.symm
  commitChanges H copyBlock heap := by
    constructor
    · rw [visits_eq h.toHolds]
      exact visitsOf_ok _ (fun _ _ => ⟨_, rfl⟩) _ _
    · exact commitChanges_eq h.toRepresents copyBlock heap

/-- The objects that the calls add. -/
def objects (adds : List (Mapping α)) : List α := adds.map Mapping.object

/-! ## The sets of pairs -/

omit [DecidableEq α] in
/-- The read or write set that the blocks represent. -/
def pairSet (pairs : List (CellPair α)) : W16.CellMap α α := pairs.map fun p => (p.from_, p.to_)

omit [DecidableEq α] in
theorem objects_pairSet (pairs : List (CellPair α)) :
    W16.CellMap.objects (pairSet pairs) = pairs.map CellPair.from_ := by
  simp [pairSet, W16.CellMap.objects]

omit [DecidableEq α] in
theorem objects_additions (adds : List (Mapping α)) :
    W16.CellMap.objects (pairSet (adds.map Mapping.pair)) = objects adds := by
  rw [objects_pairSet, objects, List.map_map]
  rfl

theorem getMapping_ne_none {m : CellMap α} {pairs : List (CellPair α)} (h : m.Keyed pairs) (x : α) :
    m.getMapping x ≠ none ↔ x ∈ W16.CellMap.objects (pairSet pairs) := by
  rw [getMapping, h.mapped, firstCell_isSome, objects_pairSet]

theorem intersects_refines {a b : CellMap α} {pairs pairs' : List (CellPair α)} (ha : a.Keyed pairs)
    (hb : b.Keyed pairs') :
    a.intersects b = .ok (W16.CellMap.intersects (pairSet pairs) (pairSet pairs')) := by
  have hany : W16.CellMap.intersects (pairSet pairs) (pairSet pairs') =
      pairs'.any fun p => decide (a.getMapping p.from_ ≠ none) := by
    rw [W16.CellMap.intersects, pairSet, pairSet, List.any_map]
    refine congrArg _ (funext fun p => ?_)
    rw [Bool.eq_iff_iff, decide_eq_true_iff, getMapping_ne_none ha]
    exact W16.CellMap.getMapping_isSome _ _
  rw [intersects_eq hb.toRepresents, hany]

theorem commitChanges_refines {H : Type} {m : CellMap α} {pairs : List (CellPair α)} (h : m.Keyed pairs)
    (copyBlock : H → α → α → H) (heap : H) :
    m.commitChanges copyBlock heap = .ok (W16.CellMap.commitChanges copyBlock (pairSet pairs) heap) := by
  rw [commitChanges_eq h.toRepresents, W16.CellMap.commitChanges, pairSet, List.foldl_map]

/-- The test of two maps visits the cells of the second up to the first whose object the first maps. -/
theorem visits_intersects {a b : CellMap α} {pairs pairs' : List (CellPair α)} (ha : a.Keyed pairs)
    (hb : b.Keyed pairs') :
    visits b (testPair a b) () = (b.cells pairs'.length).take
      ((pairs'.findIdx fun p => decide (p.from_ ∈ pairs.map CellPair.from_)) + 1) := by
  have hfind : (b.cells pairs'.length).findIdx (fun c => decide (a.getMapping (b.pair c).from_ ≠ none)) =
      pairs'.findIdx fun p => decide (p.from_ ∈ pairs.map CellPair.from_) := by
    conv_rhs => rw [← hb.map_pair, List.findIdx_map]
    refine congrArg (fun test => List.findIdx test _) (funext fun c => ?_)
    rw [Function.comp_apply, Bool.eq_iff_iff, decide_eq_true_iff, decide_eq_true_iff, getMapping_ne_none ha,
      objects_pairSet]
  rw [visits_eq hb.toHolds, visitsOf_testPair, hfind]

/-! ## The commit -/

section Commit

open RememberedSet BlockCopy

/-- Objects lie apart. A private copy has the size of its object, and as it was made when its pair
was added, it is the object of no pair up to its own. -/
structure WriteSet (L : Layout) (mem : Memory Word) (isObject : Nat → Prop) (pairs : List (CellPair Nat)) :
    Prop where
  sized : ∀ o, isObject o → 0 < size L mem o
  apart : ∀ o o', isObject o → isObject o' → o ≠ o' → Apart o (size L mem o) o' (size L mem o')
  placed : ∀ p ∈ pairs, isObject p.from_ ∧ isObject p.to_ ∧ size L mem p.to_ = size L mem p.from_
  copied : ∀ p ∈ pairs, p.to_ ≠ p.from_
  fresh : pairs.Pairwise fun p q => q.from_ ≠ p.from_ ∧ q.to_ ≠ p.from_

variable {L : Layout} {mem : Memory Word} {isObject : Nat → Prop} {pairs : List (CellPair Nat)}

theorem WriteSet.wellPlaced (h : WriteSet L mem isObject pairs) : WellPlaced L mem (pairSet pairs) where
  sized := by
    intro pair hpair
    obtain ⟨p, hp, rfl⟩ := List.mem_map.1 hpair
    exact h.sized p.from_ (h.placed p hp).1
  undisturbed := by
    constructor
    · intro c hc
      obtain ⟨pair, hpair, rfl⟩ := List.mem_map.1 hc
      obtain ⟨p, hp, rfl⟩ := List.mem_map.1 hpair
      obtain ⟨hfrom, hto, hsize⟩ := h.placed p hp
      have hapart := h.apart p.from_ p.to_ hfrom hto (h.copied p hp).symm
      rwa [hsize] at hapart
    · rw [copies, pairSet, List.map_map, List.pairwise_map]
      refine h.fresh.imp_of_mem fun {p q} hp hq hne => ?_
      obtain ⟨hfrom, hto, hsize⟩ := h.placed q hq
      have hobj := h.apart p.from_ q.from_ (h.placed p hp).1 hfrom hne.1.symm
      have hcopy := h.apart p.from_ q.to_ (h.placed p hp).1 hto hne.2.symm
      rw [hsize] at hcopy
      exact ⟨hobj, hcopy⟩

/-- The commit writes the objects of the write set only. -/
theorem WriteSet.commit_frame {h : Heap} (hw : WriteSet L h.memory isObject pairs) {o : Nat}
    (ho : isObject o) (hnot : o ∉ pairs.map CellPair.from_) {i : Nat} (hi : i < size L h.memory o) :
    (commitChanges L (pairSet pairs) h).memory (o + i) = h.memory (o + i) := by
  rw [commitChanges_memory hw.wellPlaced]
  refine copyAll_frame h.memory _ fun c hc => ?_
  obtain ⟨pair, hpair, rfl⟩ := List.mem_map.1 hc
  obtain ⟨p, hp, rfl⟩ := List.mem_map.1 hpair
  have hne : o ≠ p.from_ := fun heq => hnot (heq ▸ List.mem_map_of_mem hp)
  have hapart := hw.apart o p.from_ ho (hw.placed p hp).1 hne
  show o + i < p.from_ ∨ p.from_ + size L h.memory p.from_ ≤ o + i
  unfold Apart at hapart
  omega

/-- After any calls of `AddMapping` on two maps each walk visits the pairs in their order, except
that the test of two maps ends at the first pair that decides it. The test tells whether an object
was added to both maps, and a commit gives the objects of a write set the words of their copies. -/
theorem walks_agree (memory memory' : Nat → Block Nat) (adds adds' : List (Mapping Nat))
    (hblocks : (adds.map Mapping.block).Nodup) (hblocks' : (adds'.map Mapping.block).Nodup) :
    ∃ a cells b cells', run (new memory) (additions adds) = some (a, cells) ∧
      run (new memory') (additions adds') = some (b, cells') ∧
      Walked a cells (adds.map Mapping.pair) ∧ Walked b cells' (adds'.map Mapping.pair) ∧
      visits b (testPair a b) () = cells'.take ((adds'.findIdx fun x => decide (x.object ∈ objects adds)) + 1) ∧
      a.intersects b = .ok (decide (∃ x ∈ objects adds', x ∈ objects adds)) ∧
      b.intersects a = a.intersects b ∧
      ∀ (L : Layout) (h : Heap) (isObject : Nat → Prop), WriteSet L h.memory isObject (adds.map Mapping.pair) →
        ∃ h', a.commitChanges (fun h dst src => copyBlock h dst src (size L h.memory dst)) h = .ok h' ∧
          (∀ o, isObject o → o ∉ objects adds → ∀ i < size L h.memory o, h'.memory (o + i) = h.memory (o + i)) ∧
          ∀ x ∈ adds, ∀ i < size L h.memory x.object, h'.memory (x.object + i) = h.memory (x.redirect + i) := by
  rw [← blocks_additions] at hblocks hblocks'
  obtain ⟨a, hrun, ha⟩ := run_new memory hblocks
  obtain ⟨b, hrun', hb⟩ := run_new memory' hblocks'
  rw [pairsAfter_additions, List.nil_append] at hrun hrun' ha hb
  have hfrom : ∀ adds : List (Mapping Nat), (adds.map Mapping.pair).map CellPair.from_ = objects adds := by
    intro adds
    rw [← objects_pairSet, objects_additions]
  have htest : ∀ adds adds' : List (Mapping Nat),
      W16.CellMap.intersects (pairSet (adds.map Mapping.pair)) (pairSet (adds'.map Mapping.pair)) =
        decide (∃ x ∈ objects adds', x ∈ objects adds) := by
    intro adds adds'
    rw [← Bool.not_inj_iff, Bool.eq_iff_iff, Bool.not_eq_true', W16.CellMap.intersects_eq_false,
      objects_additions, objects_additions]
    simp
  refine ⟨a, _, b, _, hrun, hrun', walked ha, walked hb, ?_, ?_, ?_, fun L h isObject hw => ?_⟩
  · rw [visits_intersects ha hb, hfrom, List.findIdx_map]
    rfl
  · rw [intersects_refines ha hb, htest]
  · rw [intersects_refines ha hb, intersects_refines hb ha, htest, htest]
    congr 2
    exact propext ⟨fun ⟨x, h, h'⟩ => ⟨x, h', h⟩, fun ⟨x, h, h'⟩ => ⟨x, h', h⟩⟩
  · refine ⟨_, commitChanges_refines ha _ h, fun o ho hnot i hi => ?_, fun x hx i hi => ?_⟩
    · exact hw.commit_frame ho (hfrom adds ▸ hnot) hi
    · have hmem : (x.object, x.redirect) ∈ pairSet (adds.map Mapping.pair) :=
        List.mem_map.2 ⟨x.pair, List.mem_map_of_mem hx, rfl⟩
      exact commitChanges_slot hw.wellPlaced hmem hi

/-- An addition whose block is at the address `block`. -/
def addition (block object redirect : Nat) : Mapping Nat := ⟨block, fun _ => ⟨0, 0⟩, object, redirect⟩

theorem walks_agree_copy : ∃ a cells, run (new unusedBlocks) (additions [addition 0 0 10]) = some (a, cells) ∧
      a.intersects a = .ok true ∧
      ∃ h', a.commitChanges (fun h dst src => copyBlock h dst src (size smallLayout h.memory dst))
        (smallHeap []) = .ok h' ∧ h'.memory 1 = .pointer 20 := by
  obtain ⟨a, cells, b, cells', hrun, hrun', -, -, -, htest, -, hcommit⟩ :=
    walks_agree unusedBlocks unusedBlocks [addition 0 0 10] [addition 0 0 10] (by decide) (by decide)
  obtain ⟨rfl, rfl⟩ := Prod.mk.inj (Option.some.inj (hrun.symm.trans hrun'))
  have hw : WriteSet smallLayout (smallHeap []).memory (fun o => o = 0 ∨ o = 10)
      ([addition 0 0 10].map Mapping.pair) := by
    refine ⟨fun o _ => Nat.zero_lt_two, ?_, ?_, ?_, List.pairwise_singleton _ _⟩
    · simp only [Apart, size, smallLayout]
      omega
    · simp [addition, Mapping.pair, size, smallLayout]
    · simp [addition, Mapping.pair]
  obtain ⟨h', hrun', -, hcopy⟩ := hcommit smallLayout (smallHeap []) _ hw
  exact ⟨a, cells, hrun, htest, h', hrun', hcopy (addition 0 0 10) (.head _) 1 Nat.one_lt_two⟩

/-- The test does not visit the pairs behind the first that decides it. -/
theorem intersects_leaves_pairs : ¬ ∀ (memory memory' : Nat → Block Nat) (adds adds' : List (Mapping Nat)),
      (adds.map Mapping.block).Nodup → (adds'.map Mapping.block).Nodup →
      ∀ a cells b cells', run (new memory) (additions adds) = some (a, cells) →
        run (new memory') (additions adds') = some (b, cells') → visits b (testPair a b) () = cells' := by
  intro hall
  obtain ⟨a, hrun, ha⟩ := @run_new Nat _ unusedBlocks (additions [addition 0 8 8]) (by decide)
  obtain ⟨b, hrun', hb⟩ := @run_new Nat _ unusedBlocks (additions [addition 0 8 8, addition 1 16 16]) (by decide)
  have hvisits := hall _ _ [addition 0 8 8] [addition 0 8 8, addition 1 16 16] (by decide) (by decide)
    a _ b _ hrun hrun'
  rw [visits_intersects ha hb] at hvisits
  have hlen := congrArg List.length hvisits
  simp [pairsAfter, additions, addition, Mapping.pair, CellMap.cells, List.findIdx_cons] at hlen

end Commit

end W16.CellBlocks
