import W16.ValueMapInserts

/-!
# Kill

The loop over a list splits it: the dropped elements go to the free list and the kept ones to a
list of their own. `present_flags_` is collected again from what is kept.
-/
namespace W16.ValueMap

open IndexedLists ValueSlots List Option

set_option linter.dupNamespace false

variable {V : Type} {H : HValue V} {dependsFlags : BitVec 32}

/-- `Kill` drops the values with one of the flags. -/
def drops (H : HValue V) (dependsFlags : BitVec 32) (v : V) : Bool :=
  decide (H.flags v &&& dependsFlags ≠ 0)

/-- All flags are present. -/
def Within (flags present : BitVec 32) : Prop := flags ||| present = present

theorem Within.or_left {flags present : BitVec 32} (h : Within flags present)
    (more : BitVec 32) : Within flags (present ||| more) := by
  rw [Within, ← BitVec.or_assoc, h]

theorem within_or_right (flags present : BitVec 32) : Within flags (present ||| flags) := by
  grind -linarith [Within]

theorem Within.refl (flags : BitVec 32) : Within flags flags := BitVec.or_self

theorem Within.trans {a b c : BitVec 32} (h : Within a b) (h' : Within b c) : Within a c := by
  rw [Within, ← h', ← BitVec.or_assoc, h]

/-- `Kill` may return at once. -/
theorem Within.and_eq_zero {flags present : BitVec 32} (h : Within flags present)
    (hzero : present &&& dependsFlags = 0) : flags &&& dependsFlags = 0 := by
  rw [← h] at hzero
  grind -linarith

/-- What the loop over a list leaves behind. -/
structure Splits (H : HValue V) (dependsFlags : BitVec 32) (m t : HValueMap V)
    (kept' : Option Nat) (chain kept : List (Nat × V)) (free : List Nat) : Prop where
  array : t.array = m.array
  length : t.lists.length = m.lists.length
  element : ∀ i, i ∉ chain.map Prod.fst → i ∉ kept.map Prod.fst → i ∉ free → t.lists[i]? = m.lists[i]?
  keptChain : Chain t.lists kept' ((chain.filter fun p => !drops H dependsFlags p.2).reverse ++ kept)
  freeList : Linked HValueMapListElement.next t.lists t.freeListHead
    (((chain.filter fun p => drops H dependsFlags p.2).map Prod.fst).reverse ++ free)
  count : t.count = m.count - (chain.filter fun p => drops H dependsFlags p.2).length
  present : Within m.presentFlags t.presentFlags
  flags : ∀ p ∈ chain, drops H dependsFlags p.2 = false → Within (H.flags p.2) t.presentFlags

section Steps

variable {m t : HValueMap V} {kept' : Option Nat} {chain kept : List (Nat × V)} {free : List Nat}
  {i : Nat} {v : V} {e : HValueMapListElement V}

/-- The first element has been put on the free list. -/
theorem Splits.drop (hdrop : drops H dependsFlags v = true) (h : Splits H dependsFlags { m with
        count := m.count - 1
        lists := m.lists.set i e
        freeListHead := some i } t kept' chain kept (i :: free)) :
    Splits H dependsFlags m t kept' ((i, v) :: chain) kept free where
  array := h.array
  length := h.length.trans length_set
  element := by
    intro j hj hj' hj''
    rw [map_cons, mem_cons, not_or] at hj
    have hfree : j ∉ i :: free := by
      grind
    rw [h.element j hj.2 hj' hfree]
    exact List.getElem?_set_ne (Ne.symm hj.1)
  keptChain := by
    rw [filter_cons, hdrop]
    exact h.keptChain
  freeList := by
    have hfree := h.freeList
    simp [hdrop, hfree]
  count := by
    have hcount : t.count = m.count - 1 - _ := h.count
    grind
  present := h.present
  flags := by
    intro p hp hkeep
    rcases mem_cons.1 hp with rfl | hp
    · rw [hdrop] at hkeep
      exact nomatch hkeep
    · exact h.flags p hp hkeep

/-- The first element has been put on the list of kept ones. -/
theorem Splits.keep (hkeep : drops H dependsFlags v = false) (h : Splits H dependsFlags { m with
        lists := m.lists.set i e
        presentFlags := m.presentFlags ||| H.flags v } t kept' chain ((i, v) :: kept) free) :
    Splits H dependsFlags m t kept' ((i, v) :: chain) kept free where
  array := h.array
  length := h.length.trans length_set
  element := by
    intro j hj hj' hj''
    rw [map_cons, mem_cons, not_or] at hj
    have hkept : j ∉ ((i, v) :: kept).map Prod.fst := by
      grind -linarith
    rw [h.element j hj.2 hkept hj'']
    exact List.getElem?_set_ne (Ne.symm hj.1)
  keptChain := by
    have hchain := h.keptChain
    simp [hkeep, hchain]
  freeList := by
    rw [filter_cons, hkeep]
    exact h.freeList
  count := by
    rw [filter_cons, hkeep]
    exact h.count
  present := ((Within.refl _).or_left _).trans h.present
  flags := by
    intro p hp hdrop
    rcases mem_cons.1 hp with rfl | hp
    · exact (within_or_right _ _).trans h.present
    · exact h.flags p hp hdrop

end Steps

variable {m : HValueMap V}

theorem killChain_spec (H : HValue V) (dependsFlags : BitVec 32) {chain kept : List (Nat × V)} {free : List Nat}
    {start keptHead : Option Nat} {bound : Nat} (hbound : chain.length ≤ bound)
    (hchain : Chain m.lists start chain) (hkept : Chain m.lists keptHead kept)
    (hfree : Linked HValueMapListElement.next m.lists m.freeListHead free)
    (hone : ∀ i, (chain.map Prod.fst).count i + (kept.map Prod.fst).count i + free.count i ≤ 1) :
    ∃ t kept', HValueMap.killChain H dependsFlags bound m keptHead start = some (t, kept') ∧
      Splits H dependsFlags m t kept' chain kept free := by
  induction chain generalizing m kept free start keptHead bound with
  | nil =>
    rw [chain_nil.1 hchain]
    refine ⟨m, keptHead, ?_, rfl, rfl, fun _ _ _ _ => rfl, hkept, hfree, ?_, Within.refl _, ?_⟩
    · cases bound <;> rfl
    · exact (Int.sub_zero _).symm
    · exact fun _ hp => absurd hp not_mem_nil
  | cons p chain ih =>
    obtain ⟨i, v⟩ := p
    obtain ⟨bound, rfl⟩ := Nat.exists_eq_add_of_lt (Nat.lt_of_lt_of_le (Nat.succ_pos _) hbound)
    rw [Nat.zero_add]
    rw [length_cons] at hbound
    obtain ⟨hstart, ⟨value, next⟩, he, hvalue, hrest⟩ := hchain.cons
    obtain rfl : value = some v := hvalue
    have hlt : i < m.lists.length := (List.getElem?_eq_some_iff.1 he).1
    simp only [map_cons, count_cons] at hone
    have hi := hone i
    rw [if_pos (beq_self_eq_true i)] at hi
    have hnotChain : i ∉ chain.map Prod.fst := count_eq_zero.1 (by omega)
    have hnotKept : i ∉ kept.map Prod.fst := count_eq_zero.1 (by omega)
    have hnotFree : i ∉ free := count_eq_zero.1 (by omega)
    have hshorter : chain.length ≤ bound := by omega
    have hsame : ∀ (e' : HValueMapListElement V) (others : List (Nat × V)),
        i ∉ others.map Prod.fst → ∀ p ∈ others, (m.lists.set i e')[p.1]? = m.lists[p.1]? := by
      intro e' others hnot p hp
      have hmem : p.1 ∈ others.map Prod.fst := mem_map_of_mem hp
      grind -linarith
    rw [hstart, HValueMap.killChain]
    simp only [he, bind_some]
    by_cases hdrop : H.flags v &&& dependsFlags ≠ 0
    · rw [if_pos hdrop, HValueMap.free]
      simp only [he, bind_some]
      have hone' : ∀ j, (chain.map Prod.fst).count j + (kept.map Prod.fst).count j +
          (i :: free).count j ≤ 1 := by
        grind -linarith
      obtain ⟨t, kept', ht, h⟩ := ih (m := { m with
          count := m.count - 1
          lists := m.lists.set i ⟨some v, m.freeListHead⟩
          freeListHead := some i })
        hshorter (hrest.frame (hsame _ _ hnotChain))
        (hkept.frame (hsame _ _ hnotKept)) (hfree.push hlt hnotFree rfl) hone'
      exact ⟨t, kept', ht, h.drop (decide_eq_true hdrop)⟩
    · rw [if_neg hdrop]
      have hfree' : Linked HValueMapListElement.next
          (m.lists.set i ⟨some v, keptHead⟩) m.freeListHead free := by
        apply hfree.frame
        grind -linarith
      have hone' : ∀ j, (chain.map Prod.fst).count j +
          (((i, v) :: kept).map Prod.fst).count j + free.count j ≤ 1 := by
        grind -linarith
      obtain ⟨t, kept', ht, h⟩ := ih (m := { m with
          lists := m.lists.set i ⟨some v, keptHead⟩
          presentFlags := m.presentFlags ||| H.flags v })
        hshorter (hrest.frame (hsame _ _ hnotChain))
        (hkept.push hlt hnotKept rfl rfl) hfree' hone'
      exact ⟨t, kept', ht, h.keep (decide_eq_false hdrop)⟩

/-- What the drop of a direct value leaves behind: the first of the list is in its place. -/
structure Promotes (m t : HValueMap V) (pos : Nat) (chain : List (Nat × V)) (c : Cell V)
    (free free' : List Nat) : Prop where
  stored : ∃ direct, t.array = m.array.set pos direct ∧ Holds t.lists direct c
  values : c.values = chain.map Prod.snd
  length : t.lists.length = m.lists.length
  element : ∀ i, i ∉ chain.map Prod.fst → t.lists[i]? = m.lists[i]?
  freeList : Linked HValueMapListElement.next t.lists t.freeListHead free'
  indices : ∀ i, c.indices.count i + free'.count i = (chain.map Prod.fst).count i + free.count i
  count : t.count = m.count - 1
  presentFlags : t.presentFlags = m.presentFlags

theorem dropDirect_spec (pos : Nat) {kept : Option Nat}
    {chain : List (Nat × V)} {free : List Nat} (hchain : Chain m.lists kept chain)
    (hfree : Linked HValueMapListElement.next m.lists m.freeListHead free)
    (hone : ∀ i, (chain.map Prod.fst).count i + free.count i ≤ 1) :
    ∃ t c free', m.dropDirect pos kept = some t ∧ Promotes m t pos chain c free free' := by
  cases chain with
  | nil =>
    rw [chain_nil.1 hchain]
    exact ⟨_, none, free, rfl, ⟨⟨none, none⟩, rfl, rfl⟩, rfl, rfl, fun _ _ => rfl, hfree,
      fun _ => rfl, rfl, rfl⟩
  | cons p chain =>
    obtain ⟨i, v⟩ := p
    obtain ⟨hkept, e, he, hvalue, hrest⟩ := hchain.cons
    have hlt : i < m.lists.length := (List.getElem?_eq_some_iff.1 he).1
    simp only [map_cons, count_cons] at hone
    have hi := hone i
    rw [if_pos (beq_self_eq_true i)] at hi
    have hnotChain : i ∉ chain.map Prod.fst := by
      grind
    have hnotFree : i ∉ free := by
      grind
    have hdrop : m.dropDirect pos (some i) = some { m with
        count := m.count - 1
        array := m.array.set pos e
        lists := m.lists.set i { e with next := m.freeListHead }
        freeListHead := some i } := by
      simp [HValueMap.dropDirect, HValueMap.free, he]
    rw [hkept]
    refine ⟨_, some (v, chain), i :: free, hdrop, ⟨e, rfl, hvalue, ?_⟩, rfl, length_set, ?_,
      hfree.push hlt hnotFree rfl, ?_, rfl, rfl⟩
    · apply hrest.frame
      intro p hp
      have hmem : p.1 ∈ chain.map Prod.fst := mem_map_of_mem hp
      grind
    · grind
    · simp only [Cell.indices_some, map_cons, count_cons]
      omega

section Counts

variable (H dependsFlags) (chain : List (Nat × V))

/-- The kept collisions of a list, as `killSlot` has them. -/
theorem map_kept : ((chain.filter fun p => !drops H dependsFlags p.2).reverse).map Prod.snd =
    ((chain.map Prod.snd).filter fun v => !drops H dependsFlags v).reverse := by
  rw [map_reverse, List.filter_map]
  rfl

/-- An index of a list is of a kept element or of a dropped one. -/
theorem count_split (i : Nat) :
    (((chain.filter fun p => !drops H dependsFlags p.2).reverse).map Prod.fst).count i +
      (((chain.filter fun p => drops H dependsFlags p.2).map Prod.fst).reverse).count i =
        (chain.map Prod.fst).count i := by
  rw [map_reverse, count_reverse, count_reverse]
  induction chain with
  | nil => rfl
  | cons p chain ih =>
    grind

theorem length_split : (chain.filter fun p => !drops H dependsFlags p.2).length +
      (chain.filter fun p => drops H dependsFlags p.2).length = chain.length := by
  have h := chain.length_eq_length_filter_add fun p => drops H dependsFlags p.2
  omega

end Counts

section Represented

variable {m t u : HValueMap V} {cells : List (Cell V)} {free free' : List Nat} {pos : Nat}
  {v : V} {chain : List (Nat × V)} {kept : Option Nat} {c : Cell V}

/-- The list and the free list share no index. -/
theorem Represents.count_chain (h : Represents m cells free [])
    (hc : cells[pos]? = some (some (v, chain))) (i : Nat) :
    (chain.map Prod.fst).count i + free.count i ≤ 1 := by
  have hset := count_indices_set none hc i
  have hone := h.count_le_one i
  rw [Cell.indices_none, Cell.indices_some, count_nil] at hset
  omega

theorem Represents.length_chain (h : Represents m cells free [])
    (hc : cells[pos]? = some (some (v, chain))) : chain.length ≤ m.lists.length := by
  have hlen := h.parted.length_eq
  have hmem := mem_map_of_mem (f := Cell.indices) (mem_of_getElem? hc)
  have hsub := (sublist_flatten_of_mem hmem).length_le
  rw [← flatMap_def, Cell.indices_some, length_map] at hsub
  rw [append_nil, length_append, length_range] at hlen
  omega

theorem Represents.kill_drop (h : Represents m cells free []) (hc : cells[pos]? = some (some (v, chain)))
    (hsplit : Splits H dependsFlags m t kept chain [] free)
    (hpromote : Promotes t u pos (chain.filter fun p => !drops H dependsFlags p.2).reverse c
      (((chain.filter fun p => drops H dependsFlags p.2).map Prod.fst).reverse ++ free) free') :
    Represents u (cells.set pos c) free' [] := by
  obtain ⟨direct, harray, hholds⟩ := hpromote.stored
  apply h.replace hc
  · rw [harray, hsplit.array]
  · exact hpromote.length.trans hsplit.length
  · intro i hi hi'
    have hnot : i ∉ ((chain.filter fun p => !drops H dependsFlags p.2).reverse).map Prod.fst := by
      simp_all
    rw [hpromote.element i hnot]
    exact hsplit.element i hi not_mem_nil hi'
  · exact hholds
  · exact hpromote.freeList
  · intro i
    have hidxs := hpromote.indices i
    have hsplits := count_split H dependsFlags chain i
    rw [count_append] at hidxs
    rw [Cell.indices_some]
    omega

theorem Represents.kill_keep (h : Represents m cells free []) (hc : cells[pos]? = some (some (v, chain)))
    (hsplit : Splits H dependsFlags m t kept chain [] free) :
    Represents { t with
        array := t.array.set pos ⟨some v, kept⟩
        presentFlags := t.presentFlags ||| H.flags v }
      (cells.set pos (some (v, (chain.filter fun p => !drops H dependsFlags p.2).reverse)))
      (((chain.filter fun p => drops H dependsFlags p.2).map Prod.fst).reverse ++ free) [] := by
  have hchain := hsplit.keptChain
  rw [append_nil] at hchain
  apply h.replace hc
  · exact congrArg (fun a => a.set pos ⟨some v, kept⟩) hsplit.array
  · exact hsplit.length
  · exact fun i hi hi' => hsplit.element i hi not_mem_nil hi'
  · exact ⟨rfl, hchain⟩
  · exact hsplit.freeList
  · intro i
    have hsplits := count_split H dependsFlags chain i
    rw [Cell.indices_some, Cell.indices_some, count_append]
    omega

end Represented

/-- The loop of `Kill` at one position. -/
theorem Stores.killDirect (H : HValue V) (dependsFlags : BitVec 32)
    {slots : List (List V)} {pos : Nat} {slot : List V} (h : Stores m slots []) (hslot : slots[pos]? = some slot) :
    ∃ t, HValueMap.killDirect H dependsFlags m pos = some t ∧
      Stores t (slots.modify pos (killSlot (drops H dependsFlags))) [] ∧
      Within m.presentFlags t.presentFlags ∧
      ∀ v ∈ killSlot (drops H dependsFlags) slot, Within (H.flags v) t.presentFlags := by
  obtain ⟨cells, free, hrep, rfl⟩ := h.represents
  have hcount := length_flatten_modify (f := killSlot (drops H dependsFlags)) hslot
  rw [List.getElem?_map, map_eq_some_iff] at hslot
  obtain ⟨c, hc, rfl⟩ := hslot
  have hlt : pos < m.array.length := hrep.length ▸ (List.getElem?_eq_some_iff.1 hc).1
  have hsame := set_getElem_self hlt
  have hdir := List.getElem?_eq_getElem hlt
  generalize m.array[pos] = direct at hdir hsame
  have hholds := hrep.cell pos direct c hdir hc
  rw [HValueMap.killDirect]
  simp only [hdir, bind_some]
  cases c with
  | none =>
    have hvalue : direct.value = none := hholds
    rw [hvalue]
    refine ⟨m, rfl, ⟨h.lists, ?_, cells.set pos none, free, ?_, values_set hc rfl⟩,
      Within.refl _, fun _ hv => absurd hv not_mem_nil⟩
    · rw [h.count]
      exact congrArg Int.ofNat hcount.symm
    · apply hrep.replace hc
      · exact hsame.symm
      · exact rfl
      · exact fun _ _ _ => rfl
      · exact hvalue
      · exact hrep.freeList
      · exact fun _ => rfl
  | some p =>
    obtain ⟨v, chain⟩ := p
    rw [hholds.1]
    have hnone : Chain m.lists none [] := chain_nil.2 rfl
    have hone : ∀ i, (chain.map Prod.fst).count i +
        (([] : List (Nat × V)).map Prod.fst).count i + free.count i ≤ 1 := by
      intro i
      have := hrep.count_chain hc i
      rw [map_nil, count_nil]
      omega
    obtain ⟨t, kept, ht, hsplit⟩ := killChain_spec H dependsFlags (hrep.length_chain hc) hholds.2
      hnone hrep.freeList hone
    have hchain := hsplit.keptChain
    rw [append_nil] at hchain
    have hlengths := length_split H dependsFlags chain
    have htotal := hsplit.count
    have hmcount := h.count
    have hkept := map_kept H dependsFlags chain
    have hflags : ∀ w ∈ ((chain.filter fun p => !drops H dependsFlags p.2).reverse).map Prod.snd,
        Within (H.flags w) t.presentFlags := by
      intro w hw
      obtain ⟨p, hp, rfl⟩ := mem_map.1 hw
      rw [mem_reverse, mem_filter, Bool.not_eq_true'] at hp
      exact hsplit.flags p hp.1 hp.2
    simp only [ht, bind_some]
    rw [Cell.values_some, killSlot, length_cons, length_map, ← hkept] at hcount
    rw [Cell.values_some, killSlot, ← hkept]
    by_cases hdrop : H.flags v &&& dependsFlags ≠ 0
    · have hd : drops H dependsFlags v = true := decide_eq_true hdrop
      rw [hd, if_pos rfl, length_map, length_reverse] at hcount
      rw [if_pos hdrop, hd, if_pos rfl]
      obtain ⟨u, c', free', hu, hpromote⟩ := dropDirect_spec pos hchain hsplit.freeList (by
          intro i
          have := hrep.count_chain hc i
          have := count_split H dependsFlags chain i
          rw [count_append]
          omega)
      have hvals : c'.values = killSlot (drops H dependsFlags) (Cell.values (some (v, chain))) := by
        rw [hpromote.values, Cell.values_some, killSlot, hd, if_pos rfl, hkept]
      refine ⟨u, hu, ⟨?_, ?_, cells.set pos c', free', hrep.kill_drop hc hsplit hpromote,
        values_set hc hvals⟩, ?_, ?_⟩
      · rw [hpromote.length, hsplit.length]
        exact h.lists
      · rw [hpromote.count]
        omega
      · rw [hpromote.presentFlags]
        exact hsplit.present
      · rw [hpromote.presentFlags]
        exact hflags
    · have hd : drops H dependsFlags v = false := decide_eq_false hdrop
      rw [hd, if_neg Bool.false_ne_true, length_cons, length_map, length_reverse] at hcount
      rw [if_neg hdrop, hd, if_neg Bool.false_ne_true]
      have hvals : Cell.values (some (v, (chain.filter fun p => !drops H dependsFlags p.2).reverse)) =
            killSlot (drops H dependsFlags) (Cell.values (some (v, chain))) := by
        simp [killSlot, hd, hkept]
      refine ⟨_, rfl, ⟨hsplit.length ▸ h.lists, htotal.trans (by omega), _, _,
        hrep.kill_keep hc hsplit, values_set hc hvals⟩, hsplit.present.or_left _, ?_⟩
      intro w hw
      rcases mem_cons.1 hw with rfl | hw
      · exact within_or_right _ _
      · exact (hflags w hw).or_left _

/-- The flags of all stored values are present. -/
def Present (H : HValue V) (m : HValueMap V) (values : List V) : Prop :=
  ∀ v ∈ values, Within (H.flags v) m.presentFlags

theorem modify_append_cons (done rest : List (List V)) (slot : List V) (f : List V → List V) :
    (done ++ slot :: rest).modify done.length f = done ++ f slot :: rest := by
  induction done with
  | nil => rfl
  | cons first done ih =>
    rw [cons_append, length_cons, modify_succ_cons, ih]
    rfl

/-- The loop over the table: the positions already done, and those still to do. -/
theorem kill_all_spec (H : HValue V) (dependsFlags : BitVec 32) (rest : List (List V)) {done : List (List V)}
    (h : Stores m (done ++ rest) []) (hpres : Present H m done.flatten) :
    ∃ t, (range' done.length rest.length).foldlM (HValueMap.killDirect H dependsFlags) m = some t ∧
      Stores t (done ++ rest.map (killSlot (drops H dependsFlags))) [] ∧
      Present H t (done ++ rest.map (killSlot (drops H dependsFlags))).flatten := by
  induction rest generalizing m done with
  | nil =>
    simp_all
  | cons slot rest ih =>
    have hslot : (done ++ slot :: rest)[done.length]? = some slot := by
      simp
    obtain ⟨t, ht, hstores, hwithin, hflags⟩ := h.killDirect H dependsFlags hslot
    rw [modify_append_cons, append_cons] at hstores
    have hpres' : Present H t (done ++ [killSlot (drops H dependsFlags) slot]).flatten := by
      intro v hv
      rw [flatten_append, flatten_singleton, mem_append] at hv
      rcases hv with hv | hv
      · exact (hpres v hv).trans hwithin
      · exact hflags v hv
    obtain ⟨u, hu, hstores', hpres''⟩ := ih hstores hpres'
    simp_all [range'_succ]

/-- `Kill` drops exactly the values with one of the flags, also when it returns at once. -/
theorem Stores.kill {slots : List (List V)} (h : Stores m slots [])
    (hpres : Present H m slots.flatten) (flags : BitVec 32) :
    ∃ t slots', m.kill H flags = some t ∧ Stores t slots' [] ∧ Present H t slots'.flatten ∧ (slots' = slots ∧
          (∀ v ∈ slots.flatten, drops H (convertChangesToDependsFlags flags) v = false) ∨
        slots' = slots.map (killSlot (drops H (convertChangesToDependsFlags flags)))) := by
  rw [HValueMap.kill]
  by_cases hnone : m.presentFlags &&& convertChangesToDependsFlags flags = 0
  · refine ⟨m, slots, if_pos hnone, h, hpres, .inl ⟨rfl, ?_⟩⟩
    intro v hv
    apply decide_eq_false
    rw [not_not]
    exact (hpres v hv).and_eq_zero hnone
  · have hcleared : Stores { m with presentFlags := 0 } ([] ++ slots) [] := by
      obtain ⟨cells, free, hrep, hvals⟩ := h.represents
      exact ⟨h.lists, h.count, cells, free, ⟨hrep.length, hrep.cell, hrep.freeList, hrep.parted⟩, hvals⟩
    obtain ⟨t, ht, hstores, hpres'⟩ := kill_all_spec H (convertChangesToDependsFlags flags)
      slots hcleared (fun _ hv => absurd hv not_mem_nil)
    refine ⟨t, _, ?_, hstores, hpres', .inr rfl⟩
    simp only [hnone, if_false, h.length_array, range_eq_range']
    exact ht

end W16.ValueMap
