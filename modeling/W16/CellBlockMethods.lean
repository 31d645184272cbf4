import Mathlib.Data.List.Induction
import W16.CellBlockWalks

/-!
# What the walks do

Each method that walks over the blocks is a fold over the pairs in the order in which they
were added. `Keyed` says that the object map and the location set belong to the pairs; a
visitor that moves objects leaves it true, since the map is rebuilt when a key has moved.
-/
namespace W16.CellBlocks.CellMap

open Function List

variable {α σ ρ : Type} {m : CellMap α} {pairs : List (CellPair α)}

/-- A fold over the positions of a list that looks at the elements. -/
theorem foldlM_range {γ ε : Type} {f : σ → Nat → Except ε σ} {g : σ → γ → Except ε σ} (l : List γ)
    (h : ∀ k p s, l[k]? = some p → f s k = g s p) (s : σ) :
    (List.range l.length).foldlM f s = l.foldlM g s := by
  induction l using reverseRecOn generalizing s with
  | nil => rfl
  | append_singleton l p ih =>
    rw [length_append, length_singleton, range_succ, foldlM_append,
      foldlM_append, ih fun k q s hk => h k q s (by
        grind)]
    congr 1
    funext s'
    simp [h l.length p s' (by simp)]

theorem foldlM_ok {γ ε : Type} (g : σ → γ → σ) (l : List γ) (s : σ) :
    l.foldlM (fun s p => (.ok (g s p) : Except ε σ)) s = .ok (l.foldl g s) := by
  induction l generalizing s with
  | nil => rfl
  | cons p l ih => exact ih (g s p)

/-- A walk that only reads the pairs is a fold over them. -/
theorem walk_pairs (h : m.Represents pairs) (f : CellPair α → σ → Except (Exit ρ) σ) (s : σ) :
    walk m (fun c => f (m.pair c)) s = pairs.foldlM (fun s p => f p s) s := by
  rw [walk_eq h.toHolds]
  exact foldlM_range pairs (fun k p s hk => by rw [h.cells k p hk]) s

theorem commitChanges_eq {H : Type} (h : m.Represents pairs) (copyBlock : H → α → α → H) (heap : H) :
    m.commitChanges copyBlock heap = .ok (pairs.foldl (fun heap p => copyBlock heap p.from_ p.to_) heap) := by
  have hwalk := walk_pairs h (ρ := Empty) (fun p heap => .ok (copyBlock heap p.from_ p.to_)) heap
  exact hwalk.trans (foldlM_ok _ pairs heap)

theorem intersects_eq [DecidableEq α] {other : CellMap α} (h : other.Represents pairs) :
    m.intersects other = .ok (pairs.any fun p => decide (m.getMapping p.from_ ≠ none)) := by
  have hfold : pairs.foldlM (fun (_ : Unit) p =>
      if m.getMapping p.from_ ≠ none then (.error (.return true) : Except (Exit Bool) Unit) else .ok ()) () =
        if pairs.any fun p => decide (m.getMapping p.from_ ≠ none) then .error (.return true) else .ok () := by
    clear h
    induction pairs with
    | nil => rfl
    | cons p pairs ih =>
      rw [foldlM_cons, any_cons]
      by_cases hp : m.getMapping p.from_ = none
      · rw [if_neg (not_not_intro hp), decide_eq_false (not_not_intro hp), Bool.false_or]
        exact ih
      · rw [if_pos hp, decide_eq_true hp, Bool.true_or]
        rfl
  have hwalk : walk other (testPair m other) () = _ := (walk_pairs h (fun p (_ : Unit) =>
    if m.getMapping p.from_ ≠ none then .error (.return true) else .ok ()) ()).trans hfold
  rw [intersects, hwalk]
  grind

/-! ## The visits -/

/-- Cells are visited until one of the visits leaves the walk. -/
def visitsOf (visit : Cell → σ → Except (Exit ρ) σ) : List Cell → Option σ → List Cell
  | [], _ => []
  | _ :: _, none => []
  | c :: cells, some s => c :: visitsOf visit cells (visit c s).toOption

theorem visitsOf_none (visit : Cell → σ → Except (Exit ρ) σ) (cells : List Cell) :
    visitsOf visit cells none = [] := by
  cases cells <;> rfl

theorem record_foldlM (visit : Cell → σ → Except (Exit ρ) σ) (cells : List Cell) (s : Option σ)
    (seen : List Cell) :
    ∃ s', cells.foldlM (fun s c => record visit c s) (s, seen) = .ok (s', seen ++ visitsOf visit cells s) := by
  induction cells generalizing s seen with
  | nil => exact ⟨s, by simp [visitsOf]; rfl⟩
  | cons c cells ih =>
    cases s with
    | none =>
      obtain ⟨s', hs'⟩ := ih none seen
      rw [visitsOf_none] at hs' ⊢
      exact ⟨s', hs'⟩
    | some before =>
      obtain ⟨s', hs'⟩ := ih (visit c before).toOption (seen ++ [c])
      rw [append_assoc] at hs'
      exact ⟨s', hs'⟩

/-- The first cells of the map, in the order in which they were added. -/
def cells (m : CellMap α) (n : Nat) : List Cell := (List.range n).map m.nthCell

theorem getElem?_cells (m : CellMap α) (n k : Nat) (c : Cell) :
    (cells m n)[k]? = some c ↔ k < n ∧ m.nthCell k = c := by
  simp [cells, List.getElem?_eq_some_iff]

theorem Holds.cells_nodup {n : Nat} (h : m.Holds n) : (m.cells n).Nodup := by
  refine nodup_range.map_on fun i hi j hj heq => ?_
  exact h.nthCell_inj (mem_range.1 hi) (mem_range.1 hj) heq

theorem Represents.map_pair (h : m.Represents pairs) : (m.cells pairs.length).map m.pair = pairs := by
  refine ext_getElem? fun k => ?_
  rw [List.getElem?_map]
  rcases Nat.lt_or_ge k pairs.length with hk | hk
  · rw [(getElem?_cells m _ k _).2 ⟨hk, rfl⟩, List.getElem?_eq_getElem hk]
    exact congrArg some (h.cells k _ (List.getElem?_eq_getElem hk))
  simp [CellMap.cells, hk]

theorem visits_eq {n : Nat} (h : m.Holds n) (visit : Cell → σ → Except (Exit ρ) σ) (s : σ) :
    visits m visit s = visitsOf visit (cells m n) (some s) := by
  obtain ⟨s', hs'⟩ := record_foldlM visit (cells m n) (some s) []
  rw [cells, foldlM_map] at hs'
  rw [visits, walk_eq h, hs']
  rfl

/-- A visitor that never leaves sees all of the cells. -/
theorem visitsOf_ok (visit : Cell → σ → Except (Exit ρ) σ) (hok : ∀ c s, ∃ s', visit c s = .ok s')
    (cells : List Cell) (s : σ) : visitsOf visit cells (some s) = cells := by
  induction cells generalizing s with
  | nil => rfl
  | cons c cells ih =>
    obtain ⟨s', hs'⟩ := hok c s
    rw [visitsOf, hs']
    exact congrArg (c :: ·) (ih s')

/-- The test sees the cells up to the first one whose object is mapped. -/
theorem visitsOf_testPair [DecidableEq α] (m other : CellMap α) (cells : List Cell) :
    visitsOf (testPair m other) cells (some ()) =
      cells.take ((cells.findIdx fun c => decide (m.getMapping (other.pair c).from_ ≠ none)) + 1) := by
  induction cells with
  | nil => rfl
  | cons c cells ih =>
    rw [visitsOf, testPair, findIdx_cons, take_succ_cons]
    by_cases hc : m.getMapping (other.pair c).from_ = none
    · rw [if_neg (not_not_intro hc), decide_eq_false (not_not_intro hc)]
      exact congrArg (c :: ·) ih
    · rw [if_pos hc, decide_eq_true hc]
      exact congrArg (c :: ·) (visitsOf_none _ cells)

/-! ## The object map -/

/-- The pairs do not depend on the map. -/
theorem Represents.withMap (h : m.Represents pairs) (objectMap : α → Option Cell) :
    Represents { m with objectMap := objectMap } pairs :=
  ⟨⟨h.toLinked.congr rfl rfl fun _ => rfl, h.room, h.tight, h.last.trans (link_congr rfl _), h.index⟩, h.cells⟩

section ObjectMap

variable [DecidableEq α]

/-- The first of the pairs that maps an object. -/
def firstCell (cell : Nat → Cell) (pairs : List (CellPair α)) (object : α) : Option Cell :=
  (pairs.findIdx? fun p => p.from_ = object).map cell

theorem firstCell_append (cell : Nat → Cell) (pairs : List (CellPair α)) (p : CellPair α) :
    firstCell cell (pairs ++ [p]) = insertObject (firstCell cell pairs) p.from_ (cell pairs.length) := by
  funext x
  unfold firstCell insertObject
  cases hfind : pairs.findIdx? (fun q => q.from_ = x) with
  | some k =>
    by_cases hx : x = p.from_
    · subst hx
      simp [hfind]
    · split <;> simp [hfind, hx]
  | none =>
    by_cases hx : x = p.from_
    · subst hx
      simp [hfind]
    · split <;> simp [hfind, hx, Ne.symm hx]

theorem firstCell_congr {cell cell' : Nat → Cell} (h : ∀ k < pairs.length, cell k = cell' k) :
    firstCell cell pairs = firstCell cell' pairs := by
  funext x
  refine Option.map_congr fun k hk => h k ?_
  exact (findIdx?_eq_some_iff_getElem.1 hk).1

theorem firstCell_of_objects (cell : Nat → Cell) {pairs' : List (CellPair α)}
    (h : pairs.map CellPair.from_ = pairs'.map CellPair.from_) : firstCell cell pairs = firstCell cell pairs' := by
  have hmap : ∀ (l : List (CellPair α)) (x : α),
      l.findIdx? (fun p => p.from_ = x) = (l.map CellPair.from_).findIdx? (· = x) := by
    intro l x
    rw [findIdx?_map]
    rfl
  funext x
  rw [firstCell, firstCell, hmap, hmap, h]

/-- A pair is found by its object when no two pairs have the same one. -/
theorem firstCell_eq_some (cell : Nat → Cell) (hnodup : (pairs.map CellPair.from_).Nodup) (x : α) (c : Cell) :
    firstCell cell pairs x = some c ↔ ∃ k p, pairs[k]? = some p ∧ p.from_ = x ∧ cell k = c := by
  unfold firstCell
  rw [Option.map_eq_some_iff]
  constructor
  · rintro ⟨k, hk, rfl⟩
    obtain ⟨hlt, hfrom, -⟩ := findIdx?_eq_some_iff_getElem.1 hk
    grind
  · rintro ⟨k, p, hk, rfl, rfl⟩
    obtain ⟨hlt, rfl⟩ := List.getElem?_eq_some_iff.1 hk
    refine ⟨k, findIdx?_eq_some_iff_getElem.2 ⟨hlt, by simp, fun j hj heq => ?_⟩, rfl⟩
    have hfrom : (pairs.map CellPair.from_)[j]? = (pairs.map CellPair.from_)[k]? := by
      rw [List.getElem?_map, List.getElem?_map, List.getElem?_eq_getElem (Nat.lt_trans hj hlt),
        List.getElem?_eq_getElem hlt]
      simpa using heq
    have := (List.getElem?_inj (by rw [length_map]; omega) hnodup).1 hfrom
    omega

theorem firstCell_isSome (cell : Nat → Cell) (pairs : List (CellPair α)) (x : α) :
    firstCell cell pairs x ≠ none ↔ x ∈ pairs.map CellPair.from_ := by
  unfold firstCell
  simp [findIdx?_eq_none_iff]

/-- `RebuildObjectMap` inserts the pairs in their order. -/
theorem rebuildObjectMap_eq (h : m.Represents pairs) :
    m.rebuildObjectMap = .ok { m with objectMap := firstCell m.nthCell pairs } := by
  have hfold : ∀ n ≤ pairs.length, (List.range n).foldlM
      (fun objectMap k => insertPair m (m.nthCell k) objectMap) (fun _ => none) =
        .ok (firstCell m.nthCell (pairs.take n)) := by
    intro n hn
    induction n with
    | zero => rfl
    | succ n ih =>
      obtain ⟨p, hp⟩ : ∃ p, pairs[n]? = some p := ⟨_, List.getElem?_eq_getElem hn⟩
      rw [range_succ, foldlM_append, ih (by omega), take_add_one, hp, Option.toList_some,
        firstCell_append, length_take, Nat.min_eq_left (by omega), ← h.cells n p hp]
      rfl
  unfold rebuildObjectMap
  rw [walk_eq h.toHolds, hfold _ (Nat.le_refl _), take_length]
  rfl

end ObjectMap

/-! ## Iterate -/

/-- A visitor on the words of the pairs, in their order. -/
def visitPairs (visitPointer : α → σ → α × σ) : List (CellPair α) → σ → List (CellPair α) × σ
  | [], s => ([], s)
  | p :: pairs, s =>
    let from' := visitPointer p.from_ s
    let to' := visitPointer p.to_ from'.2
    let rest := visitPairs visitPointer pairs to'.2
    (⟨from'.1, to'.1⟩ :: rest.1, rest.2)

@[simp] theorem length_visitPairs (visitPointer : α → σ → α × σ) (pairs : List (CellPair α)) (s : σ) :
    (visitPairs visitPointer pairs s).1.length = pairs.length := by
  induction pairs generalizing s with
  | nil => rfl
  | cons p pairs ih =>
    rw [visitPairs, length_cons, length_cons, ih]

/-- A visitor that needs no state relocates every word. -/
theorem visitPairs_map (f : α → α) (pairs : List (CellPair α)) :
    visitPairs (fun x (_ : Unit) => (f x, ())) pairs () = (pairs.map fun p => ⟨f p.from_, f p.to_⟩, ()) := by
  induction pairs with
  | nil => rfl
  | cons p pairs ih => rw [visitPairs, ih, map_cons]

/-- What the walk of `Iterate` leaves alone. -/
structure Kept (m m' : CellMap α) : Prop where
  allocated : m'.allocated = m.allocated
  locationSet : m'.locationSet = m.locationSet
  objectMap : m'.objectMap = m.objectMap

variable [DecidableEq α]

/-- The part of the walk from the pair behind `done` on. When no change was noticed, no object of
a pair has moved. -/
theorem visitPair_foldlM (visitPointer : α → σ → α × σ) (rest done : List (CellPair α)) {m₁ : CellMap α}
    (hrep : m₁.Represents (done ++ rest)) (hkept : m.Kept m₁) (changes : Bool) (s : σ) :
    ∃ m₂ changes₂, (range' done.length rest.length).foldlM
        (fun s k => visitPair visitPointer (m.nthCell k) s) (m₁, changes, s) =
          .ok (m₂, changes₂, (visitPairs visitPointer rest s).2) ∧
      m₂.Represents (done ++ (visitPairs visitPointer rest s).1) ∧ m.Kept m₂ ∧
      (changes₂ = false → changes = false ∧
        (visitPairs visitPointer rest s).1.map CellPair.from_ = rest.map CellPair.from_) := by
  induction rest generalizing done m₁ changes s with
  | nil => exact ⟨m₁, changes, rfl, hrep, hkept, fun h => ⟨h, rfl⟩⟩
  | cons p rest ih =>
    have hpair : m₁.pair (m.nthCell done.length) = p := by
      rw [← nthCell_congr hkept.allocated]
      exact hrep.cells done.length p (by simp)
    obtain ⟨q, hq⟩ : ∃ q, q = (⟨(visitPointer p.from_ s).1,
      (visitPointer p.to_ (visitPointer p.from_ s).2).1⟩ : CellPair α) := ⟨_, rfl⟩
    have hwrite : (m₁.writePair (m.nthCell done.length) q).Represents ((done ++ [q]) ++ rest) := by
      have := hrep.writePair (k := done.length) (by simp) q
      rwa [nthCell_congr hkept.allocated, set_append_right _ _ (Nat.le_refl _), Nat.sub_self,
        set_cons_zero, append_cons] at this
    obtain ⟨m₂, changes₂, hfold, hrep₂, hkept₂, hchanges⟩ := ih (done ++ [q]) hwrite
      ⟨hkept.allocated, hkept.locationSet, hkept.objectMap⟩
      (changes || decide ((visitPointer p.from_ s).1 ≠ p.from_))
      (visitPointer p.to_ (visitPointer p.from_ s).2).2
    refine ⟨m₂, changes₂, ?_, ?_, hkept₂, fun h => ?_⟩
    · rw [length_append, length_singleton] at hfold
      rw [length_cons, range'_succ, foldlM_cons]
      rw [visitPair, hpair, ← hq]
      exact hfold
    · rw [visitPairs, ← hq, append_cons]
      exact hrep₂
    · obtain ⟨hor, hrest⟩ := hchanges h
      obtain ⟨hfalse, hfrom⟩ := Bool.or_eq_false_iff.1 hor
      refine ⟨hfalse, ?_⟩
      rw [visitPairs, map_cons, map_cons, hrest]
      simpa using hfrom

/-- The object map and the location set are those of the pairs. -/
structure Keyed (m : CellMap α) (pairs : List (CellPair α)) : Prop extends m.Represents pairs where
  located : ∀ c, c ∈ m.locationSet ↔ ∃ k < pairs.length, m.nthCell k = c
  mapped : m.objectMap = firstCell m.nthCell pairs

/-- `Iterate` shows the visitor the words of the pairs, and keys the map by the new ones. -/
theorem iterate_spec (h : m.Keyed pairs) (visitPointer : α → σ → α × σ) (s : σ) :
    ∃ m', m.iterate visitPointer s = .ok (m', (visitPairs visitPointer pairs s).2) ∧
      m'.Keyed (visitPairs visitPointer pairs s).1 ∧ m'.allocated = m.allocated := by
  obtain ⟨m₂, changes₂, hfold, hrep, hkept, hchanges⟩ :=
    visitPair_foldlM (m := m) visitPointer pairs [] h.toRepresents ⟨rfl, rfl, rfl⟩ false s
  rw [length_nil] at hfold
  have hcell : m₂.nthCell = m.nthCell := funext (nthCell_congr hkept.allocated)
  have hlocated : ∀ c, c ∈ m₂.locationSet ↔
      ∃ k < (visitPairs visitPointer pairs s).1.length, m₂.nthCell k = c := by
    rw [hkept.locationSet, hcell, length_visitPairs]
    exact h.located
  unfold iterate
  rw [walk_eq h.toHolds, range_eq_range', hfold]
  cases changes₂ with
  | true =>
    refine ⟨{ m₂ with objectMap := firstCell m₂.nthCell (visitPairs visitPointer pairs s).1 }, ?_,
      ⟨hrep.withMap _, hlocated, rfl⟩, hkept.allocated⟩
    show (do return (← m₂.rebuildObjectMap, _)) = _
    rw [rebuildObjectMap_eq hrep]
    rfl
  | false =>
    refine ⟨m₂, rfl, ⟨hrep, hlocated, ?_⟩, hkept.allocated⟩
    rw [hkept.objectMap, h.mapped, hcell]
    exact (firstCell_of_objects m.nthCell (hchanges rfl).2).symm

/-! ## AddMapping -/

theorem new_keyed (memory : Nat → Block α) : (new memory).Keyed [] where
  nodup := .nil
  first := rfl
  next _ _ h := nomatch h
  room := Nat.zero_le _
  tight := by
    show 0 * blockSize < 0 + blockSize
    decide
  last := by
    rw [length_nil, Nat.zero_div]
    rfl
  index h := absurd rfl h
  cells _ _ h := nomatch h
  located c := ⟨fun h => (nomatch h), fun ⟨_, h, _⟩ => absurd h (Nat.not_lt_zero _)⟩
  mapped := rfl

/-- The new cell is one more location, and the others stay where they are. -/
theorem addMapping_keyed (h : m.Keyed pairs) {block : Nat} (hfresh : block ∉ m.allocated)
    (cells : Nat → CellPair α) (object redirect : α) :
    ∃ m' c, m.addMapping block cells object redirect = some (m', c) ∧
      m'.Keyed (pairs ++ [⟨object, redirect⟩]) ∧ m'.nthCell pairs.length = c ∧
      (∀ k < pairs.length, m'.nthCell k = m.nthCell k) ∧ ∀ b ∈ m'.allocated, b ∈ m.allocated ∨ b = block := by
  obtain ⟨m', c, hrun, hadded, hmap⟩ := addMapping_spec h.toRepresents hfresh cells object redirect
  refine ⟨m', c, hrun, ⟨hadded.toRepresents, fun c' => ?_, ?_⟩, hadded.cell.symm, hadded.others,
    hadded.allocated⟩
  · rw [hadded.locationSet, mem_cons, h.located, length_append, length_singleton]
    constructor
    · rintro (rfl | ⟨k, hk, rfl⟩)
      · exact ⟨pairs.length, Nat.lt_succ_self _, hadded.cell.symm⟩
      · exact ⟨k, Nat.lt_succ_of_lt hk, hadded.others k hk⟩
    · rintro ⟨k, hk, rfl⟩
      rcases Nat.lt_succ_iff_lt_or_eq.1 hk with hlt | rfl
      · exact .inr ⟨k, hlt, (hadded.others k hlt).symm⟩
      · exact .inl hadded.cell.symm
  · rw [hmap, h.mapped, firstCell_append, hadded.cell, firstCell_congr fun k hk => (hadded.others k hk).symm]

end W16.CellBlocks.CellMap
