import W16.ValueMapKills

/-!
# Runs of the value map

Several maps, copied from each other, and the values that have been added to each and not killed
since.
-/
namespace W16.ValueMap

open IndexedLists ValueSlots List Option

set_option linter.dupNamespace false

variable {V : Type} (H : HValue V)

inductive Operation (V : Type) where
  | add (map : Nat) (v : V)
  | lookup (map : Nat) (v : V)
  | kill (map : Nat) (flags : BitVec 32)
  | copy (map : Nat)

namespace Operation

/-- An operation on the map with this index. Without such a map there is none. -/
def on (maps : List (HValueMap V)) (i : Nat)
    (f : HValueMap V → Option (List (HValueMap V))) : Option (List (HValueMap V)) :=
  match maps[i]? with
  | none => some maps
  | some m => f m

def step (maps : List (HValueMap V)) : Operation V → Option (List (HValueMap V))
  | add i v => on maps i fun m => (m.add H v).map (maps.set i)
  | lookup i v => on maps i fun m => (m.lookup H v).map fun _ => maps
  | kill i flags => on maps i fun m => (m.kill H flags).map (maps.set i)
  | copy i => on maps i fun m => some (maps ++ [m.copy])

/-- What the operation does to the sets of values. -/
def apply (sets : List (List V)) : Operation V → List (List V)
  | add i v => sets.modify i (v :: ·)
  | lookup _ _ => sets
  | kill i flags => sets.modify i fun values =>
      values.filter fun v => !drops H (convertChangesToDependsFlags flags) v
  | copy i => sets ++ sets[i]?.toList

end Operation

/-- The program makes a map and goes on from there. -/
def run (operations : List (Operation V)) : Option (List (HValueMap V)) :=
  (HValueMap.new H).bind fun m => operations.foldlM (Operation.step H) [m]

def sets (operations : List (Operation V)) : List (List V) :=
  operations.foldl (Operation.apply H) [[]]

/-- The map is the set of these values: they are counted, each index of `lists_` is in one list or
free, a lookup finds what is there, and a larger table has the same values. -/
structure IsSet (m : HValueMap V) (values : List V) : Prop where
  count : m.count = values.length
  stored : ∃ cells free, Represents m cells free [] ∧ (cells.map Cell.values).flatten.Perm values
  lookup : ∀ v, ∃ found, m.lookup H v = some found ∧ (∀ w, found = some w → w ∈ values ∧ H.equals w v = true) ∧
    (found = none → ∀ w ∈ values, H.equals w v = false)
  resize : ∃ t cells free, m.resize H (m.array.length * 2) = some t ∧ t.count = m.count ∧
    Represents t cells free [] ∧ (cells.map Cell.values).flatten.Perm values

/-- What every operation keeps. -/
structure Inv (m : HValueMap V) (values : List V) (slots : List (List V)) : Prop where
  stores : Stores m slots []
  half : HalfFull slots
  hashed : Hashed (position H) slots
  present : Present H m slots.flatten
  perm : slots.flatten.Perm values

def Reached (m : HValueMap V) (values : List V) : Prop := ∃ slots, Inv H m values slots

variable {H} {m : HValueMap V} {values : List V} {slots : List (List V)}

theorem lookupChain_spec {chain : List (Nat × V)} {start : Option Nat} {bound : Nat} (v : V)
    (hbound : chain.length ≤ bound) (hchain : Chain m.lists start chain) :
    m.lookupChain H v bound start = some ((chain.map Prod.snd).find? fun w => H.equals w v) := by
  induction chain generalizing start bound with
  | nil =>
    rw [chain_nil.1 hchain]
    cases bound <;> rfl
  | cons p chain ih =>
    obtain ⟨i, w⟩ := p
    obtain ⟨bound, rfl⟩ := Nat.exists_eq_add_of_lt (lt_of_lt_of_le (Nat.succ_pos _) hbound)
    rw [length_cons] at hbound
    obtain ⟨hstart, e, he, hvalue, hrest⟩ := hchain.cons
    rw [hstart, HValueMap.lookupChain, map_cons, find?_cons]
    simp only [he, hvalue, bind_some]
    cases hequal : H.equals w v with
    | true => rw [if_pos rfl]
    | false =>
      exact ih (by omega) hrest

/-- `Lookup` reads the slot of the value. -/
theorem Stores.lookup (h : Stores m slots []) (hpos : 0 < slots.length) (v : V) :
    m.lookup H v = some (ValueSlots.lookup (position H) H.equals slots v) := by
  obtain ⟨cells, free, hrep, rfl⟩ := h.represents
  have harray := h.length_array
  have hlt : bound m.array.length (H.hashcode v) < m.array.length := by
    rw [← harray] at hpos
    exact (position H).lt _ v hpos
  have hdir := getElem?_eq_getElem hlt
  obtain ⟨c, hc, hholds⟩ := hrep.exists_cell hdir
  have hslot : (cells.map Cell.values).getD (bound m.array.length (H.hashcode v)) [] = c.values := by
    rw [getD_eq_getElem?_getD, getElem?_map, hc]
    rfl
  rw [HValueMap.lookup, ValueSlots.lookup, ← harray]
  change _ = some (((cells.map Cell.values).getD (bound m.array.length (H.hashcode v)) []).find?
    fun w => H.equals w v)
  rw [hslot]
  simp only [hdir, bind_some]
  cases c with
  | none =>
    have hvalue := hholds
    rw [hvalue]
    rfl
  | some p =>
    obtain ⟨w, chain⟩ := p
    rw [hholds.1, Cell.values_some, find?_cons]
    cases hequal : H.equals w v with
    | true => simp only [hequal, if_true]
    | false =>
      simp only [hequal, Bool.false_eq_true, if_false]
      exact lookupChain_spec v (hrep.length_chain hc) hholds.2

/-- What is kept makes the map a set. -/
theorem Reached.isSet (hequals : ∀ w v, H.equals w v = true → H.hashcode w = H.hashcode v)
    (h : Reached H m values) : IsSet H m values := by
  obtain ⟨slots, h⟩ := h
  have hsame : ∀ w v, H.equals w v = true → ∀ n, (position H).of n w = (position H).of n v := by
    intro w v heq n
    exact congrArg (bound n) (hequals w v heq)
  have hpos := h.half.pos
  have hhalf := h.half.half
  constructor
  · rw [h.stores.count, h.perm.length_eq]
  · obtain ⟨cells, free, hrep, hvals⟩ := h.stores.represents
    exact ⟨cells, free, hrep, hvals ▸ h.perm⟩
  · intro v
    refine ⟨_, h.stores.lookup hpos v, ?_, ?_⟩
    · intro w hfound
      obtain ⟨hmem, hequal⟩ := of_lookup hfound
      exact ⟨h.perm.mem_iff.1 hmem, hequal⟩
    · intro hfound w hw
      exact of_lookup_none h.hashed hsame hfound w (h.perm.mem_iff.2 hw)
  · rw [h.stores.length_array]
    obtain ⟨t, ht, hstores, -⟩ := h.stores.resize (H := H) (n := slots.length * 2) (by omega) (by omega)
    have hperm := resize_perm (position H) (n := slots.length * 2) (by omega) slots
    obtain ⟨cells, free, hrep, hvals⟩ := hstores.represents
    refine ⟨t, cells, free, ht, ?_, hrep, ?_⟩
    · rw [hstores.count, h.stores.count, hperm.length_eq]
    · rw [hvals]
      exact hperm.trans h.perm

theorem Reached.new (H : HValue V) : ∃ m, HValueMap.new H = some m ∧ Reached H m [] := by
  obtain ⟨m, hm, hstores, -⟩ := new_spec H
  have hempty : (replicate kInitialSize ([] : List V)).flatten = [] := by simp
  refine ⟨m, hm, _, hstores, ⟨?_, ?_⟩, hashed_replicate _, ?_, ?_⟩
  · rw [length_replicate]
    decide
  · exact Nat.zero_le _
  · exact fun _ hv => absurd hv not_mem_nil
  · rw [hempty]

theorem Reached.add (h : Reached H m values) (v : V) : ∃ t, m.add H v = some t ∧ Reached H t (v :: values) := by
  obtain ⟨slots, h⟩ := h
  have hflagged : Stores { m with presentFlags := m.presentFlags ||| H.flags v } slots [] := by
    obtain ⟨cells, free, hrep, hvals⟩ := h.stores.represents
    exact ⟨h.stores.lists, h.stores.count, cells, free,
      ⟨hrep.length, hrep.cell, hrep.freeList, hrep.parted⟩, hvals⟩
  obtain ⟨t, ht, hstores, hflags⟩ := hflagged.insert (H := H) (v := v) h.half
  have hperm := insert_perm (v := v) (position H) h.half.pos
  refine ⟨t, ht, _, hstores, h.half.insert, h.hashed.insert, ?_, hperm.trans (h.perm.cons v)⟩
  intro w hw
  rw [hflags]
  rcases mem_cons.1 (hperm.mem_iff.1 hw) with rfl | hw
  · exact within_or_right _ _
  · exact (h.present w hw).or_left _

theorem Reached.kill (h : Reached H m values) (flags : BitVec 32) : ∃ t, m.kill H flags = some t ∧
      Reached H t (values.filter fun v => !drops H (convertChangesToDependsFlags flags) v) := by
  obtain ⟨slots, h⟩ := h
  obtain ⟨t, slots', ht, hstores, hpres, hslots⟩ := h.stores.kill h.present flags
  have hfilter := h.perm.filter fun v => !drops H (convertChangesToDependsFlags flags) v
  refine ⟨t, ht, slots', ?_⟩
  rcases hslots with ⟨rfl, hnone⟩ | rfl
  · have hall : (slots'.flatten.filter fun v =>
        !drops H (convertChangesToDependsFlags flags) v) = slots'.flatten := by
      grind [filter_eq_self]
    rw [hall] at hfilter
    exact ⟨hstores, h.half, h.hashed, hpres, hfilter⟩
  · have hperm := kill_perm (drops H (convertChangesToDependsFlags flags)) slots
    refine ⟨hstores, ⟨?_, ?_⟩, h.hashed.kill, hpres, hperm.trans hfilter⟩
    · rw [length_map]
      exact h.half.pos
    · rw [length_map, hperm.length_eq]
      exact le_trans (length_filter_le _ _) h.half.half

section Steps

variable {maps : List (HValueMap V)} {all : List (List V)}

theorem exists_related {R : HValueMap V → List V → Prop} (h : Forall₂ R maps all) {i : Nat}
    (hi : maps[i]? = some m) : ∃ values, all[i]? = some values ∧ R m values := by
  induction h generalizing i with
  | nil => exact nomatch hi
  | cons hfirst hrest ih =>
    grind

theorem forall₂_modify {R : HValueMap V → List V → Prop} (h : Forall₂ R maps all) {i : Nat}
    {t : HValueMap V} {f : List V → List V} (hi : all[i]? = some values) (hnew : R t (f values)) :
    Forall₂ R (maps.set i t) (all.modify i f) := by
  induction h generalizing i with
  | nil => exact nomatch hi
  | cons hfirst hrest ih =>
    cases i with
    | zero =>
      simp_all
    | succ i =>
      exact .cons hfirst (ih hi)

/-- An operation that changes one map. -/
theorem on_reached (h : Forall₂ (Reached H) maps all) {i : Nat}
    {f : HValueMap V → Option (HValueMap V)} {g : List V → List V}
    (hf : ∀ m values, Reached H m values → ∃ t, f m = some t ∧ Reached H t (g values)) :
    ∃ maps', Operation.on maps i (fun m => (f m).map (maps.set i)) = some maps' ∧
      Forall₂ (Reached H) maps' (all.modify i g) := by
  rw [Operation.on]
  cases hi : maps[i]? with
  | none =>
    refine ⟨maps, rfl, ?_⟩
    rw [modify_eq_self (h.length_eq ▸ getElem?_eq_none_iff.1 hi)]
    exact h
  | some m =>
    obtain ⟨values, hvals, hreach⟩ := exists_related h hi
    obtain ⟨t, ht, hnew⟩ := hf m values hreach
    simp [forall₂_modify, h, hvals, hnew, ht]

/-- No operation fails, and each does to the sets what it says. -/
theorem step_reached (h : Forall₂ (Reached H) maps all) (o : Operation V) :
    ∃ maps', o.step H maps = some maps' ∧ Forall₂ (Reached H) maps' (o.apply H all) := by
  cases o with
  | add i v => exact on_reached h fun m values hm => hm.add v
  | kill i flags => exact on_reached h fun m values hm => hm.kill flags
  | lookup i v =>
    refine ⟨maps, ?_, h⟩
    rw [Operation.step, Operation.on]
    cases hi : maps[i]? with
    | none => rfl
    | some m =>
      obtain ⟨values, -, slots, hm⟩ := exists_related h hi
      simp [hm.stores.lookup hm.half.pos v]
  | copy i =>
    rw [Operation.step, Operation.on, Operation.apply]
    cases hi : maps[i]? with
    | none =>
      have hnone : all[i]? = none := by
        rw [getElem?_eq_none_iff] at hi ⊢
        rwa [← h.length_eq]
      grind
    | some m =>
      obtain ⟨values, hvals, hm⟩ := exists_related h hi
      refine ⟨_, rfl, ?_⟩
      rw [hvals, toList_some]
      exact rel_append h (.cons hm .nil)

theorem foldlM_reached (operations : List (Operation V)) (h : Forall₂ (Reached H) maps all) :
    ∃ maps', operations.foldlM (Operation.step H) maps = some maps' ∧
      Forall₂ (Reached H) maps' (operations.foldl (Operation.apply H) all) := by
  induction operations generalizing maps all with
  | nil => exact ⟨maps, rfl, h⟩
  | cons o operations ih =>
    obtain ⟨maps', hstep, hreach⟩ := step_reached h o
    simp [ih, hreach, hstep]

end Steps

/-- Whatever is added, killed and copied, every map is the set of its values. -/
theorem value_map_is_set (H : HValue V) (hequals : ∀ w v, H.equals w v = true → H.hashcode w = H.hashcode v)
    (operations : List (Operation V)) :
    ∃ maps, run H operations = some maps ∧ Forall₂ (IsSet H) maps (sets H operations) := by
  obtain ⟨m, hm, hnew⟩ := Reached.new H
  obtain ⟨maps, hrun, hreached⟩ := foldlM_reached operations (.cons hnew .nil)
  refine ⟨maps, ?_, hreached.imp fun m values h => h.isSet hequals⟩
  rw [run, hm]
  exact hrun

/-- Values with their numbers as hash codes and one flag. -/
def numbers : HValue (BitVec 32) where
  flags _ := 2
  hashcode v := v
  equals w v := w = v

theorem value_map_is_set_numbers : ∃ maps,
    run numbers [.add 0 1, .add 0 17, .copy 0, .kill 0 1, .lookup 1 17] = some maps ∧
      Forall₂ (IsSet numbers) maps [[], [17, 1]] :=
  value_map_is_set numbers (fun _ _ h => of_decide_eq_true h)
    [.add 0 1, .add 0 17, .copy 0, .kill 0 1, .lookup 1 17]

end W16.ValueMap
