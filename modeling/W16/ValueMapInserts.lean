import W16.ValueMapSlots

/-!
# Insertion and resizing

`Insert` and `Resize` do to the stored slots what they do to lists of values. While `Resize`
rehashes, the elements of the old table that it has not come to are reserved.
-/
namespace W16.ValueMap

open IndexedLists ValueSlots List Option

set_option linter.dupNamespace false

variable {V : Type} {H : HValue V}

/-- `Bound` of the hash code. -/
def position (H : HValue V) : Position V where
  of n v := bound n (H.hashcode v)
  lt n v h := by
    have hle : bound n (H.hashcode v) ≤ n - 1 := Nat.and_le_right
    omega

/-- The map stores these values, and counts them. -/
structure Stores (m : HValueMap V) (slots : List (List V)) (reserved : List Nat) : Prop where
  lists : 0 < m.lists.length
  count : m.count = slots.flatten.length
  represents : ∃ cells free, Represents m cells free reserved ∧ cells.map Cell.values = slots

variable {m : HValueMap V} {slots : List (List V)} {reserved : List Nat} {v : V}

theorem Stores.length_array (h : Stores m slots reserved) : m.array.length = slots.length := by
  obtain ⟨cells, free, hrep, rfl⟩ := h.represents
  rw [length_map]
  exact hrep.length.symm

/-- A reserved element becomes free. -/
theorem Stores.free {i : Nat} (h : Stores m slots (i :: reserved)) :
    ∃ t, m.free i = some t ∧ Stores t slots reserved ∧ t.array = m.array ∧ Keeps reserved m t := by
  obtain ⟨cells, free, hrep, hslots⟩ := h.represents
  obtain ⟨t, ht, hrep', harray, hcount, hkeeps⟩ := HValueMap.free_spec hrep
  refine ⟨t, ht, ⟨?_, hcount.trans h.count, cells, _, hrep', hslots⟩, harray, hkeeps⟩
  exact lt_of_lt_of_le h.lists hkeeps.length

theorem Stores.insertInRoom (h : Stores m slots reserved) (hroom : slots.flatten.length < slots.length) :
    ∃ t, m.insertInRoom H v = some t ∧ Stores t (place (position H) slots v) reserved ∧ Keeps reserved m t := by
  obtain ⟨cells, free, hrep, rfl⟩ := h.represents
  have harray := h.length_array
  have hlen : 0 < (cells.map Cell.values).length := Nat.lt_of_le_of_lt (Nat.zero_le _) hroom
  have hcount : m.count + 1 = (place (position H) (cells.map Cell.values) v).flatten.length := by
    rw [(place_perm hlen).length_eq, length_cons, h.count]
    rfl
  have hguard : m.count < m.array.length := by
    rw [harray, h.count]
    exact Int.ofNat_lt.2 hroom
  have hpos : bound m.array.length (H.hashcode v) < m.array.length := by
    rw [← harray] at hlen
    exact (position H).lt _ v hlen
  have hdir := getElem?_eq_getElem hpos
  obtain ⟨c, hc, hholds⟩ := hrep.exists_cell hdir
  rw [HValueMap.insertInRoom, if_pos hguard]
  simp only [hdir, bind_some]
  cases c with
  | none =>
    have hvalue := hholds
    rw [hvalue]
    refine ⟨_, rfl, ⟨h.lists, hcount, cells.set (bound m.array.length (H.hashcode v)) (some (v, [])),
      free, ?_, ?_⟩, ?_⟩
    · apply hrep.replace hc
      · exact rfl
      · exact rfl
      · exact fun _ _ _ => rfl
      · exact ⟨rfl, chain_nil.2 rfl⟩
      · exact hrep.freeList
      · exact fun _ => rfl
    · rw [place, ← harray]
      exact values_set hc rfl
    · exact ⟨fun _ _ => rfl, Nat.le_refl _, rfl⟩
  | some p =>
    rw [hholds.1]
    have hcounted : Represents { m with count := m.count + 1 } cells free reserved :=
      ⟨hrep.length, hrep.cell, hrep.freeList, hrep.parted⟩
    obtain ⟨t, i, free', ht, hrep', harray', hcount', hkeeps⟩ :=
      HValueMap.ensureFree_spec (m := { m with count := m.count + 1 }) h.lists hcounted
    have hdir' : t.array[bound m.array.length (H.hashcode v)]? =
        some m.array[bound m.array.length (H.hashcode v)] := by
      rw [harray']
      exact hdir
    obtain ⟨u, hu, hrep'', -, hcount'', hkeeps'⟩ :=
      HValueMap.insertCollision_spec (v := v) hrep' hc (hrep'.cell _ _ _ hdir' hc)
    refine ⟨u, ?_, ⟨?_, ?_, _, free', hrep'', ?_⟩, ?_⟩
    · simp only [ht, bind_some]
      exact hu
    · exact Nat.lt_of_lt_of_le h.lists (Nat.le_trans hkeeps.length hkeeps'.length)
    · rw [hcount'', hcount', ← hcount]
    · rw [place, ← harray]
      exact values_set hc rfl
    · have := hkeeps.trans hkeeps'
      exact ⟨this.element, this.length, this.presentFlags⟩

section Rehash

variable {insert : HValueMap V → V → Option (HValueMap V)}

/-- Values inserted where there is room do not resize. -/
def InsertsInRoom (H : HValue V) (insert : HValueMap V → V → Option (HValueMap V)) : Prop :=
  ∀ (m : HValueMap V) (v : V), m.count < (m.array.length : Int) / 2 → insert m v = m.insertInRoom H v

theorem Stores.insert_of_room (hins : InsertsInRoom H insert) (h : Stores m slots reserved)
    (hroom : slots.flatten.length < slots.length / 2) :
    ∃ t, insert m v = some t ∧ Stores t (place (position H) slots v) reserved ∧ Keeps reserved m t := by
  have hguard : m.count < (m.array.length : Int) / 2 := by
    rw [h.count, h.length_array]
    omega
  rw [hins m v hguard]
  exact h.insertInRoom (by omega)

/-- The loop over a list: each value is inserted and its element is then free. -/
theorem rehashChain_spec (hins : InsertsInRoom H insert) {chain : List (Nat × V)}
    {start : Option Nat} {bound : Nat} (hbound : chain.length ≤ bound)
    (h : Stores m slots (chain.map Prod.fst ++ reserved)) (hchain : Chain m.lists start chain)
    (hroom : slots.flatten.length + chain.length ≤ slots.length / 2) :
    ∃ t, HValueMap.rehashChain insert bound m start = some t ∧
      Stores t ((chain.map Prod.snd).foldl (place (position H)) slots) reserved ∧
      Keeps reserved m t := by
  induction chain generalizing m slots start bound with
  | nil =>
    rw [chain_nil.1 hchain]
    refine ⟨m, ?_, h, Keeps.refl reserved m⟩
    cases bound <;> rfl
  | cons p chain ih =>
    obtain ⟨i, v⟩ := p
    obtain ⟨bound, rfl⟩ := Nat.exists_eq_add_of_lt (Nat.lt_of_lt_of_le (Nat.succ_pos _) hbound)
    rw [Nat.zero_add]
    rw [length_cons] at hroom hbound
    obtain ⟨hstart, e, he, hvalue, hrest⟩ := hchain.cons
    obtain ⟨t, ht, hstores, hkeeps⟩ := h.insert_of_room (v := v) hins (by omega)
    have het : t.lists[i]? = some e := (hkeeps.element i mem_cons_self).trans he
    obtain ⟨u, hu, hstores', -, hkeeps'⟩ := hstores.free
    have hkeeps'' := (hkeeps.mono fun j hj => mem_cons_of_mem i hj).trans hkeeps'
    have hchain' : Chain u.lists e.next chain := by
      apply hrest.frame
      intro p hp
      exact hkeeps''.element p.1 (mem_append_left _ (mem_map_of_mem hp))
    have hroom' : (place (position H) slots v).flatten.length + chain.length ≤
        (place (position H) slots v).length / 2 := by
      rw [length_place, (place_perm (by omega)).length_eq, length_cons]
      omega
    have hshorter : chain.length ≤ bound := by omega
    obtain ⟨w, hw, hstores'', hkeeps'''⟩ := ih hshorter hstores' hchain' hroom'
    refine ⟨w, ?_, hstores'', ?_⟩
    · rw [hstart, HValueMap.rehashChain]
      grind
    · exact (hkeeps''.mono fun j hj => mem_append_right _ hj).trans hkeeps'''

theorem rehashDirect_spec (hins : InsertsInRoom H insert)
    {direct : HValueMapListElement V} {c : Cell V} (h : Stores m slots (c.indices ++ reserved))
    (hholds : Holds m.lists direct c)
    (hroom : slots.flatten.length + c.values.length ≤ slots.length / 2) :
    ∃ t, HValueMap.rehashDirect insert m direct = some t ∧
      Stores t (rehashSlot (position H) slots c.values) reserved ∧ Keeps reserved m t := by
  cases c with
  | none =>
    have hvalue : direct.value = none := hholds
    refine ⟨m, ?_, h, Keeps.refl reserved m⟩
    rw [HValueMap.rehashDirect, hvalue]
  | some p =>
    obtain ⟨v, chain⟩ := p
    rw [Cell.values_some, length_cons, length_map] at hroom
    have hbound : chain.length ≤ m.lists.length := by
      obtain ⟨cells, free, hrep, -⟩ := h.represents
      have hlen := hrep.parted.length_eq
      rw [Cell.indices_some, length_append, length_append, length_append,
        length_map, length_range] at hlen
      omega
    obtain ⟨t, ht, hstores, hkeeps⟩ :=
      rehashChain_spec hins hbound h hholds.2 (by omega)
    have hroom' : ((chain.map Prod.snd).foldl (place (position H)) slots).flatten.length <
        ((chain.map Prod.snd).foldl (place (position H)) slots).length / 2 := by
      rw [length_foldl_place, (foldl_place_perm (by omega) _).length_eq, length_append, length_map]
      omega
    obtain ⟨u, hu, hstores', hkeeps'⟩ := hstores.insert_of_room (v := v) hins hroom'
    refine ⟨u, ?_, ?_, hkeeps.trans hkeeps'⟩
    · rw [HValueMap.rehashDirect, hholds.1]
      simp only [ht, bind_some]
      exact hu
    · rw [Cell.values_some, rehashSlot_eq, rehashOrder, foldl_append]
      exact hstores'

/-- The loop over the old table. -/
theorem rehash_all_spec (hins : InsertsInRoom H insert)
    {directs : List (HValueMapListElement V)} {cells : List (Cell V)}
    (hcells : Forall₂ (Holds m.lists) directs cells)
    (h : Stores m slots (cells.flatMap Cell.indices))
    (hroom : slots.flatten.length + (cells.map Cell.values).flatten.length ≤ slots.length / 2) :
    ∃ t, directs.foldlM (HValueMap.rehashDirect insert) m = some t ∧
      Stores t ((cells.map Cell.values).foldl (rehashSlot (position H)) slots) [] ∧
      t.presentFlags = m.presentFlags := by
  induction directs generalizing m slots cells with
  | nil =>
    cases hcells
    exact ⟨m, rfl, h, rfl⟩
  | cons direct directs ih =>
    cases hcells with
    | @cons _ c _ cells hholds hcells =>
      rw [map_cons, flatten_cons, length_append] at hroom
      obtain ⟨t, ht, hstores, hkeeps⟩ := rehashDirect_spec hins h hholds (by omega)
      have hcells' : Forall₂ (Holds t.lists) directs cells := by
        refine forall₂_iff_get.2 ⟨hcells.length_eq, fun i hi hi' => ?_⟩
        apply (hcells.get hi hi').frame
        intro j hj
        apply hkeeps.element
        grind
      have hroom' : (rehashSlot (position H) slots c.values).flatten.length +
          (cells.map Cell.values).flatten.length ≤ (rehashSlot (position H) slots c.values).length / 2 := by
        rw [rehashSlot_eq, length_foldl_place]
        by_cases hlen : 0 < slots.length
        · rw [(foldl_place_perm hlen _).length_eq, length_append, (rehashOrder_perm _).length_eq]
          omega
        · have hnil : c.values = [] := eq_nil_of_length_eq_zero (by omega)
          rw [hnil]
          exact le_trans (Nat.add_le_add_left (Nat.le_add_left _ _) _) hroom
      obtain ⟨u, hu, hstores', hflags⟩ := ih hcells' hstores hroom'
      refine ⟨u, ?_, hstores', hflags.trans hkeeps.presentFlags⟩
      rw [foldlM_cons, ht]
      exact hu

/-- The empty table of `Resize`, before the first value is rehashed. -/
theorem Represents.reserve {cells : List (Cell V)} {free : List Nat} (n : Nat)
    (h : Represents m cells free []) :
    Represents { m with array := zeroed V n, count := 0 } (replicate n none) free
      (cells.flatMap Cell.indices) := by
  have hnone : (replicate n (none : Cell V)).flatMap Cell.indices = [] := by
    rw [flatMap_eq_nil_iff]
    intro c hc
    rw [eq_of_mem_replicate hc, Cell.indices_none]
  constructor
  · rw [zeroed, length_replicate, length_replicate]
  · intro pos direct c hdir hc
    rw [eq_of_mem_replicate (mem_of_getElem? hc),
      eq_of_mem_replicate (mem_of_getElem? hdir)]
    exact rfl
  · exact h.freeList
  · rw [hnone, nil_append]
    have hparted := h.parted
    grind

/-- `Resize` rehashes every value into a larger table. -/
theorem Stores.resizeWith (hins : InsertsInRoom H insert) (h : Stores m slots []) {n : Nat}
    (hn : 0 < n) (hroom : slots.flatten.length ≤ n / 2) :
    ∃ t, m.resizeWith insert n = some t ∧ Stores t (resize (position H) slots n) [] ∧
      t.presentFlags = m.presentFlags := by
  obtain ⟨cells, free, hrep, rfl⟩ := h.represents
  obtain ⟨t, i, free', ht, hrep', harray, hcount, hkeeps⟩ :=
    HValueMap.ensureFree_spec h.lists hrep
  have hempty : (replicate n ([] : List V)).flatten = [] := by simp
  have hstores : Stores { t with array := zeroed V n, count := 0 } (replicate n [])
      (cells.flatMap Cell.indices) := by
    refine ⟨lt_of_lt_of_le h.lists hkeeps.length, ?_, _, _, hrep'.reserve n, ?_⟩
    · rw [hempty]
      rfl
    · rw [map_replicate, Cell.values_none]
  have hcells : Forall₂ (Holds t.lists) m.array cells := by
    refine forall₂_iff_get.2 ⟨hrep.length.symm, fun j hj hj' => ?_⟩
    rw [← harray] at hj
    have hdir := getElem?_eq_getElem hj
    have hholds := hrep'.cell j _ _ hdir (getElem?_eq_getElem hj')
    grind
  have hroom' : (replicate n ([] : List V)).flatten.length +
      (cells.map Cell.values).flatten.length ≤ (replicate n ([] : List V)).length / 2 := by
    grind
  obtain ⟨u, hu, hstores', hflags⟩ := rehash_all_spec
    (m := { t with array := zeroed V n, count := 0 }) hins hcells hstores hroom'
  have hguard : m.count < n := by
    rw [h.count]
    omega
  have hsame : u.count = m.count := by
    have hperm := resize_perm (position H) hn (cells.map Cell.values)
    rw [hstores'.count, h.count]
    exact congrArg Int.ofNat hperm.length_eq
  refine ⟨u, ?_, hstores', hflags.trans hkeeps.presentFlags⟩
  rw [HValueMap.resizeWith, if_pos hguard, ht, bind_some, hu, bind_some, if_pos hsame]

end Rehash

theorem insertsInRoom_insertWith (H : HValue V) (depth : Nat) :
    InsertsInRoom H (HValueMap.insertWith H (depth + 1)) := by
  intro m v hroom
  rw [HValueMap.insertWith, if_neg (by omega)]

theorem Stores.resize (h : Stores m slots []) {n : Nat} (hn : 0 < n) (hroom : slots.flatten.length ≤ n / 2) :
    ∃ t, m.resize H n = some t ∧ Stores t (ValueSlots.resize (position H) slots n) [] ∧
      t.presentFlags = m.presentFlags :=
  h.resizeWith (insertsInRoom_insertWith H 0) hn hroom

/-- At most half of the table is filled. -/
structure HalfFull (slots : List (List V)) : Prop where
  pos : 0 < slots.length
  half : slots.flatten.length ≤ slots.length / 2

theorem Stores.insert (h : Stores m slots []) (hhalf : HalfFull slots) :
    ∃ t, m.insert H v = some t ∧ Stores t (ValueSlots.insert (position H) slots v) [] ∧
      t.presentFlags = m.presentFlags := by
  have hpos := hhalf.pos
  have hle := hhalf.half
  have harray := h.length_array
  have hcount := h.count
  rw [HValueMap.insert, HValueMap.insertWith, ValueSlots.insert]
  by_cases hfull : slots.length / 2 ≤ slots.flatten.length
  · have hguard : (m.array.length : Int) / 2 ≤ m.count := by omega
    obtain ⟨t, ht, hstores, hflags⟩ := h.resizeWith (insertsInRoom_insertWith H 0)
      (n := slots.length * 2) (by omega) (by omega)
    have hroom : (ValueSlots.resize (position H) slots (slots.length * 2)).flatten.length <
        (ValueSlots.resize (position H) slots (slots.length * 2)).length := by
      rw [length_resize, (resize_perm _ (by omega) slots).length_eq]
      omega
    obtain ⟨u, hu, hstores', hkeeps⟩ := hstores.insertInRoom (v := v) hroom
    refine ⟨u, ?_, ?_, hkeeps.presentFlags.trans hflags⟩
    · rw [if_pos hguard, harray, ht]
      exact hu
    · rw [if_pos hfull]
      exact hstores'
  · obtain ⟨t, ht, hstores, hkeeps⟩ := h.insertInRoom (H := H) (v := v) (by omega)
    refine ⟨t, ?_, ?_, hkeeps.presentFlags⟩
    · rw [if_neg (by omega)]
      exact ht
    · rw [if_neg hfull]
      exact hstores

theorem HalfFull.insert {position : Position V} (h : HalfFull slots) :
    HalfFull (ValueSlots.insert position slots v) := by
  have hpos := h.pos
  have hle := h.half
  have hperm := (insert_perm (v := v) position hpos).length_eq
  rw [length_cons] at hperm
  have hlen : (ValueSlots.insert position slots v).length =
      if slots.length / 2 ≤ slots.flatten.length then slots.length * 2 else slots.length := by
    rw [ValueSlots.insert]
    split
    · rw [length_place, length_resize]
    · exact length_place
  split at hlen
  · exact ⟨by omega, by omega⟩
  · exact ⟨by omega, by omega⟩

/-- The constructor makes an empty map. -/
theorem new_spec (H : HValue V) : ∃ t, HValueMap.new H = some t ∧
    Stores t (replicate kInitialSize []) [] ∧ t.presentFlags = 0 := by
  have hrep : Represents (⟨[], [], 0, 0, none⟩ : HValueMap V) [] [] [] := by
    constructor
    · rfl
    · exact fun _ _ _ hdir => nomatch hdir
    · exact rfl
    · exact Perm.refl _
  have hsize : (⟨[], [], 0, 0, none⟩ : HValueMap V).lists.length < kInitialSize := by
    exact Nat.zero_lt_succ 15
  obtain ⟨t, free, ht, hrep', hfree, harray, hcount, hkeeps⟩ :=
    HValueMap.resizeLists_spec hsize hrep
  have hlists : 0 < t.lists.length := by
    obtain ⟨i, free, rfl⟩ := exists_cons_of_ne_nil hfree
    obtain ⟨-, e, he, -⟩ := hrep'.freeList
    grind -linarith
  have hstores : Stores t [] [] := ⟨hlists, hcount, [], free, hrep', rfl⟩
  obtain ⟨u, hu, hstores', hflags⟩ := hstores.resize (H := H) (n := kInitialSize) (by decide) (Nat.zero_le _)
  refine ⟨u, ?_, hstores', hflags.trans hkeeps.presentFlags⟩
  rw [HValueMap.new, ht]
  exact hu

end W16.ValueMap
