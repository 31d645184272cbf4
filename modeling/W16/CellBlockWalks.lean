import Mathlib.Data.List.GetD
import Mathlib.Data.List.Nodup
import W16.CellBlocks

/-!
# The walks over the blocks

The blocks stay chained in the order of their allocation, and the pointer to the last block
is the link at which the chain goes on. So a walk visits the cells of the pairs that were
added, in order, and nothing else.
-/
namespace W16.CellBlocks.CellMap

open Function List Option

variable {α σ ρ : Type} {m : CellMap α} {n : Nat}

theorem blockSize_pos : 0 < blockSize := by decide

/-- The cell of the `k`-th pair. -/
def nthCell (m : CellMap α) (k : Nat) : Cell := ⟨m.allocated.getD (k / blockSize) 0, k % blockSize⟩

/-- The link that leads to the `i`-th block. -/
def link (m : CellMap α) : Nat → Link
  | 0 => .first
  | i + 1 => .next (m.allocated.getD i 0)

/-- The blocks are chained in the order of their allocation. -/
structure Linked (m : CellMap α) : Prop where
  nodup : m.allocated.Nodup
  first : m.firstBlock = m.allocated[0]?
  next : ∀ i b, m.allocated[i]? = some b → (m.memory b).next = m.allocated[i + 1]?

theorem Linked.deref (h : m.Linked) {i : Nat} (hi : i ≤ m.allocated.length) :
    m.deref (m.link i) = m.allocated[i]? := by
  cases i with
  | zero => exact h.first
  | succ i =>
    have hget : m.allocated[i]? = some (m.allocated.getD i 0) := by
      grind
    exact h.next i _ hget

/-- The blocks hold `n` pairs, and all but the last block are full. -/
structure Holds (m : CellMap α) (n : Nat) : Prop extends m.Linked where
  room : n ≤ m.allocated.length * blockSize
  tight : m.allocated.length * blockSize < n + blockSize
  last : m.lastBlockAddress = m.link (n / blockSize)
  index : n % blockSize ≠ 0 → m.index = some (n % blockSize)

theorem Holds.deref_last (h : m.Holds n) : m.deref m.lastBlockAddress = m.allocated[n / blockSize]? := by
  rw [h.last]
  exact h.toLinked.deref (Nat.div_le_of_le_mul (by rw [Nat.mul_comm]; exact h.room))

/-! ## Walks -/

variable {block : Nat} {m' : CellMap α} {pairs : List (CellPair α)}

/-- The cells of a block are those of the pairs from its first one on. -/
theorem visitCells_eq (visit : Cell → σ → Except (Exit ρ) σ) {i : Nat}
    (hblock : m.allocated[i]? = some block) (s : σ) {limit : Nat} (hlimit : limit ≤ blockSize) :
    visitCells visit block limit s =
      (range' (i * blockSize) limit).foldlM (fun s k => visit (m.nthCell k) s) s := by
  induction limit with
  | zero => rfl
  | succ limit ih =>
    have hdiv : (i * blockSize + limit) / blockSize = i := by
      rw [Nat.add_comm, Nat.add_mul_div_right _ _ blockSize_pos, Nat.div_eq_of_lt hlimit, Nat.zero_add]
    have hmod : (i * blockSize + limit) % blockSize = limit := by
      rw [Nat.add_comm, Nat.add_mul_mod_self_right, Nat.mod_eq_of_lt hlimit]
    have hcell : m.nthCell (i * blockSize + limit) = ⟨block, limit⟩ := by
      rw [nthCell, hdiv, hmod, getD_eq_getElem?_getD, hblock]
      rfl
    rw [visitCells, ih (by omega), range'_concat, foldlM_append, Nat.one_mul]
    simp [hcell]

/-- From the `i`-th block on the walk visits the pairs from the first one of this block on. -/
theorem walkFrom_eq (h : m.Holds n) (visit : Cell → σ → Except (Exit ρ) σ) {fuel i : Nat}
    (hi : i ≤ n / blockSize) (hfuel : m.allocated.length < fuel + i) (s : σ) :
    walkFrom m visit fuel m.allocated[i]? s =
      (range' (i * blockSize) (n - i * blockSize)).foldlM (fun s k => visit (m.nthCell k) s) s := by
  have hroom := h.room
  have hn := Nat.div_add_mod n blockSize
  have hmod := Nat.mod_lt n blockSize_pos
  have hlen : n / blockSize ≤ m.allocated.length :=
    Nat.div_le_of_le_mul (by rw [Nat.mul_comm]; exact hroom)
  induction fuel generalizing i s with
  | zero => omega
  | succ fuel ih =>
    rcases Nat.lt_or_ge i (n / blockSize) with hfull | hlast
    · -- a full block, since the chain goes on at a later one
      obtain ⟨block, hblock⟩ : ∃ block, m.allocated[i]? = some block :=
        ⟨_, List.getElem?_eq_getElem (by omega)⟩
      have hne : some block ≠ m.deref m.lastBlockAddress := by
        rw [h.deref_last, ← hblock]
        intro heq
        have := (List.getElem?_inj (by omega) h.nodup).1 heq
        omega
      have hmul : (i + 1) * blockSize ≤ n / blockSize * blockSize := Nat.mul_le_mul_right _ hfull
      have hsplit : range' (i * blockSize) (n - i * blockSize) = range' (i * blockSize) blockSize ++
            range' ((i + 1) * blockSize) (n - (i + 1) * blockSize) := by
        rw [Nat.add_mul, Nat.one_mul] at hmul ⊢
        rw [range'_append_1]
        grind
      rw [hblock, walkFrom, if_pos hne, hsplit, foldlM_append, visitCells_eq visit hblock s (Nat.le_refl _)]
      congr 1
      funext s'
      rw [h.next i block hblock]
      exact ih (by omega) (by omega) s'
    · obtain rfl : i = n / blockSize := by omega
      have hrest : n - n / blockSize * blockSize = n % blockSize := by
        rw [Nat.mul_comm] at hn
        omega
      rw [hrest]
      by_cases h0 : n % blockSize = 0
      · -- the last block is full, so the chain ends where it would go on
        have hend : m.allocated[n / blockSize]? = none := by
          refine List.getElem?_eq_none (Nat.le_of_lt_succ (Nat.lt_of_mul_lt_mul_right (a := blockSize) ?_))
          have := h.tight
          rw [Nat.succ_mul]
          omega
        rw [hend, h0]
        rfl
      · obtain ⟨block, hblock⟩ : ∃ block, m.allocated[n / blockSize]? = some block := by
          refine ⟨_, List.getElem?_eq_getElem (Nat.div_lt_of_lt_mul ?_)⟩
          rw [Nat.mul_comm]
          refine Nat.lt_of_le_of_ne hroom fun heq => h0 ?_
          rw [heq, Nat.mul_mod_left]
        rw [hblock, walkFrom, if_neg (by rw [h.deref_last, hblock, not_not]), h.index h0]
        exact visitCells_eq visit hblock s (Nat.le_of_lt hmod)

/-- A walk visits the cells of the pairs, in order. -/
theorem walk_eq (h : m.Holds n) (visit : Cell → σ → Except (Exit ρ) σ) (s : σ) :
    walk m visit s = (List.range n).foldlM (fun s k => visit (m.nthCell k) s) s := by
  rw [walk, h.first, walkFrom_eq h visit (Nat.zero_le _) (Nat.lt_succ_self _) s, Nat.zero_mul,
    Nat.sub_zero, ← range_eq_range']

/-! ## The pairs -/

/-- The blocks hold the pairs. -/
structure Represents (m : CellMap α) (pairs : List (CellPair α)) : Prop extends m.Holds pairs.length where
  cells : ∀ k p, pairs[k]? = some p → m.pair (m.nthCell k) = p

theorem Holds.nthCell_inj (h : m.Holds n) {i j : Nat} (hi : i < n) (hj : j < n)
    (heq : m.nthCell i = m.nthCell j) : i = j := by
  obtain ⟨hblock, hindex⟩ := Cell.mk.inj heq
  have hlen : ∀ k < n, k / blockSize < m.allocated.length := fun k hk =>
    Nat.div_lt_of_lt_mul (by rw [Nat.mul_comm]; exact Nat.lt_of_lt_of_le hk h.room)
  rw [getD_eq_getElem _ _ (hlen i hi), getD_eq_getElem _ _ (hlen j hj)] at hblock
  have hdiv := (h.nodup.getElem_inj_iff).1 hblock
  rw [← Nat.div_add_mod i blockSize, ← Nat.div_add_mod j blockSize, hdiv, hindex]

/-! ### Writing a pair -/

@[simp] theorem pair_writePair_same (m : CellMap α) (c : Cell) (p : CellPair α) :
    (m.writePair c p).pair c = p := by
  simp [pair, writePair]

theorem pair_writePair_other (m : CellMap α) {c c' : Cell} (p : CellPair α) (h : c' ≠ c) :
    (m.writePair c p).pair c' = m.pair c' := by
  unfold pair writePair
  by_cases hblock : c'.block = c.block
  · have hindex : c'.index ≠ c.index := fun hindex => h (by
      cases c'
      simp_all)
    simp [hblock, hindex]
  · simp [hblock]

@[simp] theorem next_writePair (m : CellMap α) (c : Cell) (p : CellPair α) (b : Nat) :
    ((m.writePair c p).memory b).next = (m.memory b).next := by
  unfold writePair
  by_cases hb : b = c.block
  · simp [hb]
  · simp [hb]

/-- What holds pairs are the pointers between the blocks. -/
theorem Linked.congr (h : m.Linked) (halloc : m'.allocated = m.allocated)
    (hfirst : m'.firstBlock = m.firstBlock) (hnext : ∀ b, (m'.memory b).next = (m.memory b).next) :
    m'.Linked := by
  refine ⟨halloc ▸ h.nodup, ?_, fun i b hb => ?_⟩
  · rw [hfirst, halloc]
    exact h.first
  · rw [halloc] at hb ⊢
    rw [hnext]
    exact h.next i b hb

theorem link_congr (halloc : m'.allocated = m.allocated) (i : Nat) : m'.link i = m.link i := by
  simp [link, halloc]

theorem nthCell_congr (halloc : m'.allocated = m.allocated) (k : Nat) : m'.nthCell k = m.nthCell k := by
  rw [nthCell, nthCell, halloc]

theorem Holds.writePair (h : m.Holds n) (c : Cell) (p : CellPair α) : (m.writePair c p).Holds n where
  toLinked := h.toLinked.congr rfl rfl (next_writePair m c p)
  room := h.room
  tight := h.tight
  last := h.last.trans (link_congr rfl _).symm
  index := h.index

theorem Represents.writePair (h : m.Represents pairs) {k : Nat} (hk : k < pairs.length) (p : CellPair α) :
    (m.writePair (m.nthCell k) p).Represents (pairs.set k p) where
  toHolds := by
    rw [length_set]
    exact h.toHolds.writePair _ _
  cells i q hq := by
    have hi : i < pairs.length := by
      grind
    rw [List.getElem?_set] at hq
    show (m.writePair (m.nthCell k) p).pair (m.nthCell i) = q
    by_cases hik : k = i
    · subst hik
      rw [if_pos rfl, if_pos hk] at hq
      rw [pair_writePair_same]
      exact some.inj hq
    · rw [if_neg hik] at hq
      rw [pair_writePair_other _ _ fun heq => hik (h.nthCell_inj hi hk heq).symm]
      exact h.cells i q hq

/-! ### Adding a pair -/

/-- There is room for one more pair in the last block. -/
structure Ready (m : CellMap α) (n : Nat) : Prop extends m.Linked where
  room : n < m.allocated.length * blockSize
  tight : m.allocated.length * blockSize ≤ n + blockSize
  last : m.lastBlockAddress = m.link (n / blockSize)
  index : m.index = some (n % blockSize)

/-- Either the last block has room, or the chain ends where it would go on. -/
theorem Holds.cases (h : m.Holds n) : (m.Ready n ∧ ∃ b, m.deref m.lastBlockAddress = some b) ∨
      (m.deref m.lastBlockAddress = none ∧ n = m.allocated.length * blockSize) := by
  have hn := Nat.div_add_mod n blockSize
  rw [Nat.mul_comm] at hn
  rcases Nat.lt_or_ge (n / blockSize) m.allocated.length with hlt | hge
  · have hmul : (n / blockSize + 1) * blockSize ≤ m.allocated.length * blockSize :=
      Nat.mul_le_mul_right _ hlt
    have htight := h.tight
    rw [Nat.add_mul, Nat.one_mul] at hmul
    have h0 : n % blockSize ≠ 0 := by omega
    have hmod := Nat.mod_lt n blockSize_pos
    refine .inl ⟨⟨h.toLinked, by omega, by omega, h.last, h.index h0⟩, ?_⟩
    rw [h.deref_last, List.getElem?_eq_getElem hlt]
    exact ⟨_, rfl⟩
  · have hmul : m.allocated.length * blockSize ≤ n / blockSize * blockSize := Nat.mul_le_mul_right _ hge
    have hroom := h.room
    refine .inr ⟨?_, by omega⟩
    rw [h.deref_last, List.getElem?_eq_none hge]

theorem extend_allocated (m : CellMap α) (block : Nat) (cells : Nat → CellPair α) :
    (m.extend block cells).allocated = m.allocated ++ [block] := by
  unfold extend
  cases m.lastBlockAddress <;> rfl

theorem extend_last (m : CellMap α) (block : Nat) (cells : Nat → CellPair α) :
    (m.extend block cells).lastBlockAddress = m.lastBlockAddress := by
  unfold extend store
  cases m.lastBlockAddress <;> rfl

theorem next_extend (m : CellMap α) {e : Nat} (hlast : m.lastBlockAddress = .next e) (block : Nat)
    (cells : Nat → CellPair α) (b : Nat) :
    ((m.extend block cells).memory b).next =
      if b = e then some block else if b = block then none else (m.memory b).next := by
  unfold extend store
  rw [hlast]
  grind

/-- The new block is at the end, and the one before it points to it. -/
theorem extend_next (h : m.Linked) (hlast : m.lastBlockAddress = m.link m.allocated.length)
    (hfresh : block ∉ m.allocated) (cells : Nat → CellPair α) (i b : Nat)
    (hb : (m.allocated ++ [block])[i]? = some b) :
    ((m.extend block cells).memory b).next = (m.allocated ++ [block])[i + 1]? := by
  rw [List.getElem?_append] at hb ⊢
  cases hlen : m.allocated.length with
  | zero =>
    rw [hlen, link] at hlast
    rw [hlen, if_neg (Nat.not_lt_zero _)] at hb
    obtain ⟨rfl, rfl⟩ : i = 0 ∧ b = block := by
      cases i with
      | zero => exact ⟨rfl, (some.inj hb).symm⟩
      | succ i => simp at hb
    simp [extend, hlast, store]
  | succ l =>
    rw [hlen, link] at hlast
    have hmem : m.allocated.getD l 0 ∈ m.allocated := by
      grind
    have hne : block ≠ m.allocated.getD l 0 := fun heq => hfresh (heq ▸ hmem)
    split at hb
    · next hi =>
      have hbm : b ∈ m.allocated := mem_of_getElem? hb
      have hbne : b ≠ block := fun heq => hfresh (heq ▸ hbm)
      by_cases hil : i = l
      · simp_all [next_extend]
      · have hbl : b ≠ m.allocated.getD l 0 := by
          rw [getD_eq_getElem?_getD]
          intro heq
          refine hil ((List.getElem?_inj hi h.nodup).1 ?_)
          grind
        rw [if_pos (by omega), next_extend m hlast, if_neg hbl, if_neg hbne]
        exact h.next i b hb
    · next hi =>
      obtain ⟨rfl, rfl⟩ : i = m.allocated.length ∧ b = block := by
        grind
      simp_all [next_extend]

/-- A walk has to go through a new block for the next pair. -/
theorem Holds.extend (h : m.Holds n) (hfull : n = m.allocated.length * blockSize)
    (hfresh : block ∉ m.allocated) (cells : Nat → CellPair α) : (m.extend block cells).Ready n := by
  have hdiv : n / blockSize = m.allocated.length := by rw [hfull, Nat.mul_div_cancel _ blockSize_pos]
  have hlast : m.lastBlockAddress = m.link m.allocated.length := by rw [h.last, hdiv]
  refine ⟨⟨?_, ?_, ?_⟩, ?_, ?_, ?_, ?_⟩
  · rw [extend_allocated]
    exact nodup_append.2 ⟨h.nodup, nodup_singleton _, by
      grind⟩
  · rw [extend_allocated]
    cases hlen : m.allocated.length with
    | zero =>
      simp [link, CellMap.extend, store, hlen, hlast]
    | succ l =>
      rw [hlen, link] at hlast
      rw [List.getElem?_append_left (by omega), ← h.first]
      simp [CellMap.extend, hlast, store]
  · rw [extend_allocated]
    exact extend_next h.toLinked hlast hfresh cells
  · simp_all [extend_allocated, blockSize_pos]
  · rw [extend_allocated, length_append, length_singleton, Nat.add_mul]
    omega
  · rw [extend_last, hlast, hdiv]
    cases hlen : m.allocated.length with
    | zero => rfl
    | succ l => rw [link, link, extend_allocated, getD_append _ _ _ _ (by omega)]
  · rw [hfull, Nat.mul_mod_left]
    rfl

theorem nthCell_append (halloc : m'.allocated = m.allocated ++ [block])
    {k : Nat} (hk : k < m.allocated.length * blockSize) : m'.nthCell k = m.nthCell k := by
  have hlt := Nat.div_lt_of_lt_mul (by rwa [Nat.mul_comm])
  rw [nthCell, nthCell, halloc, getD_append _ _ _ _ hlt]

theorem pair_extend (hfresh : block ∉ m.allocated) (cells : Nat → CellPair α) {c : Cell}
    (hc : c.block ∈ m.allocated) : (m.extend block cells).pair c = m.pair c := by
  have hne : c.block ≠ block := fun heq => hfresh (heq ▸ hc)
  unfold pair extend store
  cases m.lastBlockAddress with
  | first => simp [hne]
  | next e =>
    grind

theorem Holds.block_mem (h : m.Holds n) {k : Nat} (hk : k < n) : (m.nthCell k).block ∈ m.allocated := by
  have hlt := Nat.div_lt_of_lt_mul (by rw [Nat.mul_comm]; exact Nat.lt_of_lt_of_le hk h.room)
  rw [nthCell, getD_eq_getElem _ _ hlt]
  exact getElem_mem hlt

/-- Before a pair is written there is room for it, and the others are where they were. -/
theorem ensureBlock_spec (h : m.Represents pairs) (hfresh : block ∉ m.allocated) (cells : Nat → CellPair α) :
    (m.ensureBlock block cells).Ready pairs.length ∧
      (∀ k < pairs.length, (m.ensureBlock block cells).nthCell k = m.nthCell k) ∧
      (∀ k p, pairs[k]? = some p → (m.ensureBlock block cells).pair (m.nthCell k) = p) ∧
      (m.ensureBlock block cells).locationSet = m.locationSet ∧
      (m.ensureBlock block cells).objectMap = m.objectMap ∧
      ∀ b ∈ (m.ensureBlock block cells).allocated, b ∈ m.allocated ∨ b = block := by
  unfold ensureBlock
  rcases h.cases with ⟨hready, b, hb⟩ | ⟨hnone, hfull⟩
  · rw [if_neg (by rw [hb]; exact some_ne_none b)]
    exact ⟨hready, fun _ _ => rfl, h.cells, rfl, rfl, fun _ => .inl⟩
  · rw [if_pos hnone]
    refine ⟨h.toHolds.extend hfull hfresh cells, fun k hk => ?_, fun k p hp => ?_, ?_, ?_, fun b hb => ?_⟩
    · exact nthCell_append (extend_allocated m block cells) (hfull ▸ hk)
    · rw [pair_extend hfresh cells (h.block_mem (List.getElem?_eq_some_iff.1 hp).1)]
      exact h.cells k p hp
    · unfold extend store
      cases m.lastBlockAddress <;> rfl
    · unfold extend store
      cases m.lastBlockAddress <;> rfl
    simp_all [extend_allocated]

/-- `AddMapping` puts the pair behind the others and moves none of them. -/
structure Added (m : CellMap α) (pairs : List (CellPair α)) (block : Nat) (p : CellPair α)
    (m' : CellMap α) (c : Cell) : Prop extends m'.Represents (pairs ++ [p]) where
  cell : c = m'.nthCell pairs.length
  others : ∀ k < pairs.length, m'.nthCell k = m.nthCell k
  locationSet : m'.locationSet = c :: m.locationSet
  allocated : ∀ b ∈ m'.allocated, b ∈ m.allocated ∨ b = block

theorem Ready.deref_last (h : m.Ready n) :
    m.deref m.lastBlockAddress = some (m.allocated.getD (n / blockSize) 0) := by
  have hlt := Nat.div_lt_of_lt_mul (by rw [Nat.mul_comm]; exact h.room)
  rw [h.last, h.toLinked.deref (Nat.le_of_lt hlt), getD_eq_getElem _ _ hlt, List.getElem?_eq_getElem hlt]

/-- A full block: the pointer moves on to its `next_`. -/
theorem Ready.full (h : m.Ready n) (hfull : n % blockSize + 1 = blockSize) : Holds { m with
      index := some (n % blockSize + 1)
      lastBlockAddress := .next (m.allocated.getD (n / blockSize) 0) } (n + 1) := by
  have hn := Nat.div_add_mod n blockSize
  have hsucc : n + 1 = (n / blockSize + 1) * blockSize := by
    grind
  refine ⟨h.toLinked.congr rfl rfl fun _ => rfl, h.room, ?_, ?_, fun h0 => ?_⟩
  · have := h.tight
    grind
  · rw [hsucc, Nat.mul_div_cancel _ blockSize_pos]
    rfl
  · exact absurd (by rw [hsucc, Nat.mul_mod_left]) h0

theorem Ready.notFull (h : m.Ready n) (hfull : n % blockSize + 1 ≠ blockSize) :
    Holds { m with index := some (n % blockSize + 1) } (n + 1) := by
  have hmod := Nat.mod_lt n blockSize_pos
  have hdiv : (n + 1) / blockSize = n / blockSize := by
    rw [Nat.succ_div_of_not_dvd]
    rw [Nat.dvd_iff_mod_eq_zero, Nat.add_mod, Nat.mod_eq_of_lt (show 1 < blockSize by decide),
      Nat.mod_eq_of_lt (by omega)]
    omega
  have hmod' : (n + 1) % blockSize = n % blockSize + 1 := by
    rw [Nat.add_mod, Nat.mod_eq_of_lt (show 1 < blockSize by decide), Nat.mod_eq_of_lt (by omega)]
  refine ⟨h.toLinked.congr rfl rfl fun _ => rfl, h.room, ?_, ?_, fun _ => by rw [hmod']⟩
  · have := h.tight
    grind
  · rw [hdiv]
    exact h.last

/-- The new pair is written to a cell of its own. -/
theorem Holds.represents {p : CellPair α}
    (h : m'.Holds (pairs.length + 1)) (halloc : m'.allocated = m.allocated)
    (hmemory : m'.memory = (m.writePair (m.nthCell pairs.length) p).memory)
    (hcells : ∀ k p, pairs[k]? = some p → m.pair (m.nthCell k) = p) : m'.Represents (pairs ++ [p]) where
  toHolds := by
    rw [length_append]
    exact h
  cells k q hq := by
    have hpair : m'.pair (m'.nthCell k) = (m.writePair (m.nthCell pairs.length) p).pair (m.nthCell k) := by
      unfold pair
      rw [hmemory, nthCell_congr halloc]
    rw [hpair]
    rw [List.getElem?_append] at hq
    split at hq
    · next hk =>
      rw [pair_writePair_other, hcells k q hq]
      intro heq
      rw [← nthCell_congr halloc, ← nthCell_congr halloc] at heq
      have := h.nthCell_inj (by omega) (Nat.lt_succ_self _) heq
      omega
    grind [pair_writePair_same]

theorem addMapping_spec [DecidableEq α] (h : m.Represents pairs)
    (hfresh : block ∉ m.allocated) (cells : Nat → CellPair α) (object redirect : α) :
    ∃ m' c, m.addMapping block cells object redirect = some (m', c) ∧
      Added m pairs block ⟨object, redirect⟩ m' c ∧ m'.objectMap = insertObject m.objectMap object c := by
  obtain ⟨hready, hoth, hcells, hlocation, hobj, halloc⟩ := ensureBlock_spec h hfresh cells
  unfold addMapping
  generalize m.ensureBlock block cells = m₁ at *
  have hcells₁ : ∀ k p, pairs[k]? = some p → m₁.pair (m₁.nthCell k) = p := fun k p hp => by
    grind
  have hlink : (m₁.writePair (m₁.nthCell pairs.length) ⟨object, redirect⟩).Ready pairs.length :=
    ⟨hready.toLinked.congr rfl rfl (next_writePair _ _ _), hready.room, hready.tight,
      hready.last.trans (link_congr rfl _).symm, hready.index⟩
  simp only [hready.deref_last, hready.index, bind_eq_bind, bind_some]
  by_cases hfull : pairs.length % blockSize + 1 = blockSize
  · rw [if_pos hfull]
    have hholds := hlink.full hfull
    exact ⟨_, _, rfl, ⟨Holds.represents (m := m₁) ⟨hholds.toLinked.congr rfl rfl fun _ => rfl, hholds.room,
      hholds.tight, hholds.last.trans (link_congr rfl _), hholds.index⟩ rfl rfl hcells₁, rfl, hoth,
      congrArg _ hlocation, halloc⟩, congrArg (insertObject · _ _) hobj⟩
  · rw [if_neg hfull]
    have hholds := hlink.notFull hfull
    exact ⟨_, _, rfl, ⟨Holds.represents (m := m₁) ⟨hholds.toLinked.congr rfl rfl fun _ => rfl, hholds.room,
      hholds.tight, hholds.last.trans (link_congr rfl _), hholds.index⟩ rfl rfl hcells₁, rfl, hoth,
      congrArg _ hlocation, halloc⟩, congrArg (insertObject · _ _) hobj⟩

end W16.CellBlocks.CellMap
