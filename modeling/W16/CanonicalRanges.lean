import W16.CharacterRanges

/-!
# Canonical lists of character ranges

`Canonicalize` inserts each range into the canonical ones before it, in the same list. The list
that is left covers the same characters.
-/
namespace W16.CharacterRanges

open List

def Covered (list : List CharacterRange) (c : Nat) : Prop :=
  ∃ range ∈ list, range.from_ ≤ c ∧ c ≤ range.to_

/-- A range of 16-bit characters that is not empty. -/
def CharacterRange.Valid (range : CharacterRange) : Prop :=
  range.from_ ≤ range.to_ ∧ range.to_ ≤ kMaxUC16CharCode

/-- Increasing, not overlapping and not adjacent. -/
structure Canonical (list : List CharacterRange) : Prop where
  valid : ∀ range ∈ list, range.Valid
  apart : list.Pairwise fun a b => a.to_ + 1 < b.from_

variable {list first second : List CharacterRange} {range insert : CharacterRange} {c : Nat}

@[simp] theorem not_covered_nil : ¬Covered [] c := by simp [Covered]

@[simp] theorem covered_cons :
    Covered (range :: list) c ↔ range.from_ ≤ c ∧ c ≤ range.to_ ∨ Covered list c := by
  simp [Covered]

@[simp] theorem covered_append : Covered (first ++ second) c ↔ Covered first c ∨ Covered second c := by
  simp [Covered, or_and_right, exists_or]

theorem canonical_nil : Canonical [] := ⟨by simp, Pairwise.nil⟩

theorem canonical_cons : Canonical (range :: list) ↔
    range.Valid ∧ (∀ r ∈ list, range.to_ + 1 < r.from_) ∧ Canonical list := by
  constructor
  · intro h
    have hapart := pairwise_cons.1 h.apart
    exact ⟨h.valid range (by simp), hapart.1, fun r hr => h.valid r (by simp [hr]), hapart.2⟩
  · intro h
    exact ⟨by simpa using ⟨h.1, h.2.2.valid⟩, pairwise_cons.2 ⟨h.2.1, h.2.2.apart⟩⟩

theorem canonical_append : Canonical (first ++ second) ↔
    Canonical first ∧ Canonical second ∧ ∀ a ∈ first, ∀ b ∈ second, a.to_ + 1 < b.from_ := by
  constructor
  · intro h
    have hapart := pairwise_append.1 h.apart
    exact ⟨⟨fun r hr => h.valid r (by simp [hr]), hapart.1⟩,
      ⟨fun r hr => h.valid r (by simp [hr]), hapart.2.1⟩, hapart.2.2⟩
  · intro ⟨h, h', hbtw⟩
    refine ⟨?_, pairwise_append.2 ⟨h.apart, h'.apart, hbtw⟩⟩
    intro r hr
    rcases mem_append.1 hr with hr | hr
    · exact h.valid r hr
    · exact h'.valid r hr

section Moves

theorem moveUp_getElem? (list : List CharacterRange) {from_ to_ count : Nat} (h : from_ < to_)
    (hcount : to_ + count ≤ list.length) (k : Nat) :
    (moveUp list from_ to_ count)[k]? =
      if to_ ≤ k ∧ k < to_ + count then list[from_ + (k - to_)]? else list[k]? := by
  induction count generalizing list with
  | zero => rw [moveUp, if_neg (by omega)]
  | succ i ih =>
    rw [moveUp, ih _ (by rw [length_set]; omega)]
    by_cases hk : to_ ≤ k ∧ k < to_ + i
    · grind
    · rw [if_neg hk]
      by_cases hlast : k = to_ + i
      · subst hlast
        have hread : from_ + (to_ + i - to_) = from_ + i := by omega
        rw [List.getElem?_set_self (by omega), if_pos (by omega), hread,
          getD_eq_getElem?_getD, List.getElem?_eq_getElem (by omega)]
        rfl
      · grind

theorem moveDown_getElem? (list : List CharacterRange) {from_ to_ : Nat} (count : Nat)
    (h : to_ ≤ from_) (hcount : from_ + count ≤ list.length) (k : Nat) :
    ((List.range count).foldl (fun l i => l.set (to_ + i) (l.getD (from_ + i) default)) list)[k]? =
      if to_ ≤ k ∧ k < to_ + count then list[from_ + (k - to_)]? else list[k]? := by
  induction count generalizing k with
  | zero => grind
  | succ n ih =>
    have ih := ih (by omega)
    rw [range_succ, foldl_append, foldl_cons, foldl_nil]
    have hread := ih (from_ + n)
    rw [if_neg (by omega)] at hread
    by_cases hlast : k = to_ + n
    · subst hlast
      have hvalue := List.getElem?_eq_getElem (l := list) (i := to_ + n) (by omega)
      have hlt := ih (to_ + n)
      rw [if_neg (by omega), hvalue] at hlt
      rw [List.getElem?_set_self (List.getElem?_eq_some_iff.1 hlt).1, if_pos (by omega),
        Nat.add_sub_cancel_left, getD_eq_getElem?_getD, hread,
        List.getElem?_eq_getElem (by omega)]
      rfl
    · rw [List.getElem?_set_ne (Ne.symm hlast), ih]
      grind

/-- A number of elements is moved, also where source and target overlap. -/
theorem moveRanges_getElem? (list : List CharacterRange) {from_ to_ count : Nat}
    (hfrom : from_ + count ≤ list.length) (hto : to_ + count ≤ list.length) (k : Nat) :
    (moveRanges list from_ to_ count)[k]? =
      if to_ ≤ k ∧ k < to_ + count then list[from_ + (k - to_)]? else list[k]? := by
  rw [moveRanges]
  by_cases h : from_ < to_
  · rw [if_pos h]
    exact moveUp_getElem? list h hto k
  · rw [if_neg h]
    exact moveDown_getElem? list count (by omega) hfrom k

end Moves

section Insert

/-- Where a range belongs: all ranges before the first position end before it, those between the
positions touch it, and the others begin behind it. -/
structure Places (list : List CharacterRange) (insert : CharacterRange) (count startPos endPos : Nat) :
    Prop where
  start_le : startPos ≤ endPos
  end_le : endPos ≤ count
  before : ∀ i < startPos, (list.getD i default).to_ + 1 < insert.from_
  touching : ∀ i, startPos ≤ i → i < endPos →
    (list.getD i default).from_ ≤ insert.to_ + 1 ∧ insert.from_ ≤ (list.getD i default).to_ + 1
  behind : ∀ i, endPos ≤ i → i < count → insert.to_ + 1 < (list.getD i default).from_

variable {count : Nat}

theorem insertPositions_spec (hvalid : ∀ i < count, (list.getD i default).from_ ≤ (list.getD i default).to_)
    (hapart : ∀ i j, i < j → j < count → (list.getD i default).to_ + 1 < (list.getD j default).from_)
    (i endPos : Nat) (hi : i ≤ endPos) (hend : endPos ≤ count)
    (htouching : ∀ j, i ≤ j → j < endPos →
      (list.getD j default).from_ ≤ insert.to_ + 1 ∧ insert.from_ ≤ (list.getD j default).to_ + 1)
    (hbehind : ∀ j, endPos ≤ j → j < count → insert.to_ + 1 < (list.getD j default).from_) :
    Places list insert count (insertPositions list insert i endPos).1
      (insertPositions list insert i endPos).2 := by
  induction i generalizing endPos with
  | zero =>
    exact ⟨hi, hend, fun j hj => absurd hj (Nat.not_lt_zero j), htouching, hbehind⟩
  | succ i ih =>
    rw [insertPositions]
    by_cases hafter : (list.getD i default).from_ > insert.to_ + 1
    · simp only [hafter, if_true]
      refine ih i (Nat.le_refl i) (by omega) (fun j hj hj' => by omega) (fun j hj hj' => ?_)
      grind
    · by_cases hbefore : (list.getD i default).to_ + 1 < insert.from_
      · simp only [hafter, hbefore, if_false, if_true]
        refine ⟨hi, hend, fun j hj => ?_, htouching, hbehind⟩
        by_cases hji : j = i
        · subst hji
          exact hbefore
        · have := hapart j i (by omega) (by omega)
          have := hvalid i (by omega)
          omega
      · simp only [hafter, hbefore, if_false]
        refine ih endPos (by omega) hend (fun j hj hj' => ?_) hbehind
        by_cases hji : j = i
        · grind
        · exact htouching j (by omega) hj'

/-- What the ranges between the positions and the inserted one become. -/
def mergedRange (list : List CharacterRange) (insert : CharacterRange) (startPos endPos : Nat) :
    CharacterRange :=
  if startPos = endPos then insert
  else
    ⟨min (list.getD startPos default).from_ insert.from_, max (list.getD (endPos - 1) default).to_ insert.to_⟩

theorem length_moveUp (list : List CharacterRange) (from_ to_ count : Nat) :
    (moveUp list from_ to_ count).length = list.length := by
  induction count generalizing list with
  | zero => rfl
  | succ i ih => simp [moveUp, ih]

theorem length_moveRanges (list : List CharacterRange) (from_ to_ count : Nat) :
    (moveRanges list from_ to_ count).length = list.length := by
  have hdown : ((List.range count).foldl
      (fun l i => l.set (to_ + i) (l.getD (from_ + i) default)) list).length = list.length := by
    induction count with
    | zero => rfl
    | succ n ih => simp_all [range_succ]
  grind [moveRanges, length_moveUp]

/-- A list whose ranges from a position on have moved, with a range set there. -/
theorem set_moved {moved : List CharacterRange} {pos from_ top : Nat} (hpos : pos < list.length)
    (hlen : moved.length = list.length)
    (hmoved : ∀ k, k ≠ pos → moved[k]? =
      if pos < k ∧ k < top then list[k - (pos + 1) + from_]? else list[k]?) (k : Nat) :
    (moved.set pos range)[k]? = if k = pos then some range
      else if pos < k ∧ k < top then list[k - (pos + 1) + from_]? else list[k]? := by
  by_cases hk : k = pos
  · grind
  grind

/-- The list after an insertion, position by position. -/
theorem insertRange_getElem? {startPos endPos : Nat} (hcount : count < list.length)
    (hposs : insertPositions list insert count count = (startPos, endPos))
    (hstart : startPos ≤ endPos) (hend : endPos ≤ count) :
    (insertRangeInCanonicalList list count insert).2 = count - (endPos - startPos) + 1 ∧
    (insertRangeInCanonicalList list count insert).1.length = list.length ∧
    ∀ k, (insertRangeInCanonicalList list count insert).1[k]? =
      if k = startPos then some (mergedRange list insert startPos endPos)
      else if startPos < k ∧ k < count - (endPos - startPos) + 1 then
        list[k - (startPos + 1) + endPos]?
      else list[k]? := by
  have hpos : startPos < list.length := by omega
  simp only [insertRangeInCanonicalList, hposs]
  by_cases heq : startPos = endPos
  · subst heq
    simp only [if_true, mergedRange, length_set]
    by_cases hlt : startPos < count
    · simp only [hlt, if_true]
      refine ⟨by omega, length_moveRanges .., set_moved hpos (length_moveRanges ..) fun k hk => ?_⟩
      rw [moveRanges_getElem? list (by omega) (by omega)]
      by_cases hk' : startPos < k ∧ k < count - (startPos - startPos) + 1
      · rw [if_pos hk', if_pos (by omega), Nat.add_comm]
      · rw [if_neg hk', if_neg (by omega)]
    · simp only [hlt, if_false]
      refine ⟨by omega, trivial, set_moved hpos rfl fun k hk => ?_⟩
      rw [if_neg (by omega)]
  · by_cases hone : startPos + 1 = endPos
    · subst hone
      simp only [heq, if_true, if_false, mergedRange, length_set, Nat.add_sub_cancel]
      refine ⟨by omega, trivial, set_moved hpos rfl fun k hk => ?_⟩
      by_cases hk' : startPos < k ∧ k < count - (startPos + 1 - startPos) + 1
      · rw [if_pos hk', Nat.sub_add_cancel (by omega)]
      · rw [if_neg hk']
    · simp only [heq, hone, if_false, mergedRange, length_set]
      by_cases hlt : endPos < count
      · simp only [hlt, if_true]
        refine ⟨trivial, length_moveRanges .., set_moved hpos (length_moveRanges ..) fun k hk => ?_⟩
        rw [moveRanges_getElem? list (by omega) (by omega)]
        by_cases hk' : startPos < k ∧ k < count - (endPos - startPos) + 1
        · rw [if_pos hk', if_pos (by omega), Nat.add_comm]
        · rw [if_neg hk', if_neg (by omega)]
      · simp only [hlt, if_false]
        refine ⟨trivial, trivial, set_moved hpos rfl fun k hk => ?_⟩
        rw [if_neg (by omega)]

/-- The canonical part of the list after an insertion. -/
theorem insertRange_take {startPos endPos : Nat} (hcount : count < list.length)
    (hposs : insertPositions list insert count count = (startPos, endPos))
    (hstart : startPos ≤ endPos) (hend : endPos ≤ count) :
    (insertRangeInCanonicalList list count insert).1.take (insertRangeInCanonicalList list count insert).2 =
      list.take startPos ++ mergedRange list insert startPos endPos :: (list.take count).drop endPos := by
  have hins := insertRange_getElem? hcount hposs hstart hend
  apply ext_getElem?
  intro k
  rw [hins.1, List.getElem?_take, List.getElem?_append, length_take,
    Nat.min_eq_left (by omega), List.getElem?_take]
  rcases Nat.lt_trichotomy k startPos with hk | hk | hk
  · grind
  · grind
  · obtain ⟨d, rfl⟩ := Nat.exists_eq_add_of_lt hk
    have hoff : startPos + d + 1 - startPos = d + 1 := by omega
    have hoff' : startPos + d + 1 - (startPos + 1) + endPos = endPos + d := by omega
    rw [if_neg (c := startPos + d + 1 < startPos) (by omega), hoff, List.getElem?_cons_succ,
      List.getElem?_drop, List.getElem?_take]
    by_cases hk' : startPos + d + 1 < count - (endPos - startPos) + 1
    · grind
    · rw [if_neg hk', if_neg (by omega)]

/-- A range of a part of a list, by its position. -/
theorem mem_slice {start top : Nat} (h : range ∈ (list.take top).drop start) :
    ∃ i, start ≤ i ∧ i < top ∧ i < list.length ∧ list.getD i default = range := by
  obtain ⟨i, hi⟩ := mem_iff_getElem?.1 h
  rw [List.getElem?_drop, List.getElem?_take] at hi
  by_cases htop : start + i < top
  · rw [if_pos htop] at hi
    grind
  · rw [if_neg htop] at hi
    simp at hi

theorem canonical_getD (h : Canonical (list.take count)) (hcount : count ≤ list.length) :
    (∀ i < count, (list.getD i default).Valid) ∧
    ∀ i j, i < j → j < count → (list.getD i default).to_ + 1 < (list.getD j default).from_ := by
  have hget : ∀ i < count, (list.take count)[i]? = some (list.getD i default) := by
    grind
  constructor
  · intro i hi
    exact h.valid _ (mem_of_getElem? (hget i hi))
  · intro i j hij hj
    obtain ⟨hi, heq⟩ := List.getElem?_eq_some_iff.1 (hget i (by omega))
    obtain ⟨hj, heq'⟩ := List.getElem?_eq_some_iff.1 (hget j hj)
    rw [← heq, ← heq']
    exact pairwise_iff_getElem.1 h.apart i j hi hj hij

/-- The merged range covers what the ranges between the positions and the inserted one cover. -/
theorem mergedRange_covers {startPos endPos : Nat} (hcount : count ≤ list.length)
    (hcanon : Canonical (list.take count)) (hplaces : Places list insert count startPos endPos) (c : Nat) :
    (mergedRange list insert startPos endPos).from_ ≤ c ∧ c ≤ (mergedRange list insert startPos endPos).to_ ↔
      Covered ((list.take endPos).drop startPos) c ∨ insert.from_ ≤ c ∧ c ≤ insert.to_ := by
  have hget := canonical_getD hcanon hcount
  have hend := hplaces.end_le
  by_cases heq : startPos = endPos
  · simp [mergedRange, heq]
  · have hstart := hplaces.start_le
    have hfirst := hplaces.touching startPos (by omega) (by omega)
    have hlast := hplaces.touching (endPos - 1) (by omega) (by omega)
    have hmem : ∀ i, startPos ≤ i → i < endPos → list.getD i default ∈ (list.take endPos).drop startPos := by
      intro i hi hi'
      refine mem_iff_getElem?.2 ⟨i - startPos, ?_⟩
      rw [List.getElem?_drop, Nat.add_sub_cancel' hi, List.getElem?_take, if_pos hi',
        getD_eq_getElem?_getD, List.getElem?_eq_getElem (by omega)]
      rfl
    simp only [mergedRange, heq, if_false]
    constructor
    · intro h
      by_cases hbelow : c < insert.from_
      · exact Or.inl ⟨_, hmem startPos (by omega) (by omega), by omega, by omega⟩
      · by_cases habove : insert.to_ < c
        · exact Or.inl ⟨_, hmem (endPos - 1) (by omega) (by omega), by omega, by omega⟩
        · exact Or.inr ⟨by omega, by omega⟩
    · intro h
      rcases h with ⟨r, hr, hc⟩ | h
      · obtain ⟨i, hi, hi', -, rfl⟩ := mem_slice hr
        have hfrom : (list.getD startPos default).from_ ≤ (list.getD i default).from_ := by
          by_cases hi : i = startPos
          · subst hi
            exact Nat.le_refl _
          · have := hget.2 startPos i (by omega) (by omega)
            have := (hget.1 startPos (by omega)).1
            omega
        have hto : (list.getD i default).to_ ≤ (list.getD (endPos - 1) default).to_ := by
          by_cases hi : i = endPos - 1
          · subst hi
            exact Nat.le_refl _
          · have := hget.2 i (endPos - 1) (by omega) (by omega)
            have := (hget.1 (endPos - 1) (by omega)).1
            omega
        omega
      · omega

theorem mergedRange_ends (list : List CharacterRange) (hins : insert.Valid) (startPos endPos : Nat) :
    (mergedRange list insert startPos endPos).from_ ≤ (mergedRange list insert startPos endPos).to_ := by
  by_cases heq : startPos = endPos
  · simpa [mergedRange, heq] using hins.1
  · have hins := hins.1
    simp only [mergedRange, heq, if_false]
    omega

/-- What an insertion leaves: a canonical part that covers the inserted range too, and the ranges
behind the position after it. -/
structure Inserted (list : List CharacterRange) (count : Nat) (insert : CharacterRange)
    (result : List CharacterRange × Nat) : Prop where
  length : result.1.length = list.length
  count_le : result.2 ≤ count + 1
  canonical : Canonical (result.1.take result.2)
  covered : ∀ c, Covered (result.1.take result.2) c ↔
    Covered (list.take count) c ∨ insert.from_ ≤ c ∧ c ≤ insert.to_
  behind : ∀ k, count < k → result.1[k]? = list[k]?

theorem insertRange_spec (hcount : count < list.length)
    (hcanon : Canonical (list.take count)) (hins : insert.Valid) :
    Inserted list count insert (insertRangeInCanonicalList list count insert) := by
  have hget := canonical_getD hcanon (by omega)
  have hplaces : Places list insert count (insertPositions list insert count count).1
      (insertPositions list insert count count).2 :=
    insertPositions_spec (fun i hi => (hget.1 i hi).1) hget.2 count count (by omega) (by omega)
      (by omega) (by omega)
  generalize hposs : insertPositions list insert count count = positions at hplaces
  obtain ⟨startPos, endPos⟩ := positions
  dsimp only at hplaces
  have hstart := hplaces.start_le
  have hend := hplaces.end_le
  have hres := insertRange_getElem? hcount hposs hstart hend
  have htake := insertRange_take hcount hposs hstart hend
  have hmerged := mergedRange_covers (by omega) hcanon hplaces
  have hbefore : ∀ r ∈ list.take startPos, r.to_ + 1 < insert.from_ := by
    intro r hr
    rw [← drop_zero (l := list.take startPos)] at hr
    obtain ⟨i, -, hi, -, rfl⟩ := mem_slice hr
    exact hplaces.before i hi
  have hbehind : ∀ r ∈ (list.take count).drop endPos, insert.to_ + 1 < r.from_ := by
    intro r hr
    obtain ⟨i, hi, hi', -, rfl⟩ := mem_slice hr
    exact hplaces.behind i hi hi'
  -- the canonical part falls in the ranges before, between and behind the positions
  have hpieces : list.take count =
      list.take startPos ++ ((list.take endPos).drop startPos ++ (list.take count).drop endPos) := by
    have hfront : list.take startPos ++ (list.take endPos).drop startPos = list.take endPos := by
      have := take_append_drop startPos (list.take endPos)
      grind
    have := take_append_drop endPos (list.take count)
    rw [take_take, Nat.min_eq_left hend] at this
    rw [← append_assoc, hfront, this]
  have hparts := hcanon
  rw [hpieces, canonical_append, canonical_append] at hparts
  refine ⟨hres.2.1, by omega, ?_, fun c => ?_, fun k hk => ?_⟩
  · have hends := mergedRange_ends list hins startPos endPos
    have hfrom := (hmerged _).1 ⟨Nat.le_refl _, hends⟩
    have hto := (hmerged _).1 ⟨hends, Nat.le_refl _⟩
    rw [htake, canonical_append, canonical_cons]
    refine ⟨hparts.1, ⟨⟨hends, ?_⟩, fun r hr => ?_, hparts.2.1.2.1⟩, fun a ha b hb => ?_⟩
    · rcases hto with ⟨r, hr, hc⟩ | hc
      · exact Nat.le_trans hc.2 (hparts.2.1.1.valid r hr).2
      · exact Nat.le_trans hc.2 hins.2
    · rcases hto with ⟨m, hm, hc⟩ | hc
      · have := hparts.2.1.2.2 m hm r hr
        omega
      · have := hbehind r hr
        omega
    · rcases mem_cons.1 hb with rfl | hb
      · rcases hfrom with ⟨m, hm, hc⟩ | hc
        · grind
        · have := hbefore a ha
          omega
      grind
  · have hsplit : Covered (list.take count) c ↔ Covered (list.take startPos) c ∨
        Covered ((list.take endPos).drop startPos) c ∨ Covered ((list.take count).drop endPos) c := by
      conv_lhs => rw [hpieces, covered_append, covered_append]
    rw [htake, covered_append, covered_cons, hmerged c, hsplit]
    grind
  · rw [hres.2.2, if_neg (by omega), if_neg (by omega)]

end Insert

section Canonicalize

/-- The insertions from a position on. -/
theorem insertRanges_spec (reads i numCanonical : Nat) (hvalid : ∀ r ∈ list.drop i, r.Valid)
    (hnum : numCanonical ≤ i) (hlen : i + reads = list.length)
    (hcanon : Canonical (list.take numCanonical)) :
    let result := (range' i reads).foldl
      (fun x read => insertRangeInCanonicalList x.1 x.2 (x.1.getD read default)) (list, numCanonical)
    Canonical (result.1.take result.2) ∧ result.2 ≤ list.length ∧ ∀ c, Covered (result.1.take result.2) c ↔
        Covered (list.take numCanonical) c ∨ Covered (list.drop i) c := by
  induction reads generalizing i list numCanonical with
  | zero =>
    simp_all
  | succ reads ih =>
    have hdrop : list.drop i = list.getD i default :: list.drop (i + 1) := by
      rw [drop_eq_getElem_cons (by omega), getD_eq_getElem?_getD, List.getElem?_eq_getElem (by omega)]
      rfl
    rw [hdrop] at hvalid
    have hinserted := insertRange_spec (by omega) hcanon (hvalid _ mem_cons_self)
    simp only [range'_succ, foldl_cons]
    generalize insertRangeInCanonicalList list numCanonical (list.getD i default) = inserted at hinserted
    obtain ⟨list', numCanonical'⟩ := inserted
    have hle := hinserted.count_le
    have hlen' := hinserted.length
    have hcov := hinserted.covered
    dsimp only at hle hlen' hcov
    have hbehind : list'.drop (i + 1) = list.drop (i + 1) := by
      apply ext_getElem?
      intro k
      rw [List.getElem?_drop, List.getElem?_drop, hinserted.behind _ (by omega)]
    have ih := @ih list' (i + 1) numCanonical'
      (by grind) (by omega) (by omega)
      hinserted.canonical
    refine ⟨ih.1, by omega, fun c => ?_⟩
    rw [ih.2.2 c, hcov c, hbehind, hdrop, covered_cons, or_assoc]

/-- The ranges before the position that the first loop stops at. -/
theorem canonicalPrefix_spec (max : Nat) (hvalid : ∀ r ∈ list, r.Valid) :
    canonicalPrefix max list ≤ list.length ∧ Canonical (list.take (canonicalPrefix max list)) ∧
      ∀ r ∈ list.take (canonicalPrefix max list), max + 1 < r.from_ := by
  induction list generalizing max with
  | nil => simp [canonicalPrefix, canonical_nil]
  | cons range rest ih =>
    have ih := ih range.to_ fun r hr => hvalid r (by simp [hr])
    have hrange := hvalid range (by simp)
    by_cases hle : range.from_ ≤ max + 1
    · simp [canonicalPrefix, hle, canonical_nil]
    · simp only [canonicalPrefix, hle, if_false, take_succ_cons, canonical_cons,
        length_cons, mem_cons, forall_eq_or_imp]
      refine ⟨by omega, ⟨hrange, ih.2.2, ih.2.1⟩, by omega, fun r hr => ?_⟩
      have := ih.2.2 r hr
      have := hrange.1
      omega

/-- `Canonicalize` keeps the characters and leaves a canonical list that is not longer. -/
theorem canonicalize_spec (ranges : List CharacterRange) (hvalid : ∀ r ∈ ranges, r.Valid) :
    Canonical (canonicalize ranges) ∧ (canonicalize ranges).length ≤ ranges.length ∧
      ∀ c, Covered (canonicalize ranges) c ↔ Covered ranges c := by
  match ranges, hvalid with
  | [], _ => simp [canonicalize, canonical_nil]
  | [range], hvalid => simp [canonicalize, canonical_cons, canonical_nil, hvalid]
  | first :: second :: rest, hvalid =>
    have hprefix := canonicalPrefix_spec first.to_ fun r hr =>
      hvalid r (mem_cons_of_mem _ hr)
    have hcanon : Canonical ((first :: second :: rest).take
        (canonicalPrefix first.to_ (second :: rest) + 1)) := by
      rw [take_succ_cons, canonical_cons]
      grind
    simp only [canonicalize]
    generalize hrngs : first :: second :: rest = ranges at hcanon hvalid ⊢
    have hlen : canonicalPrefix first.to_ (second :: rest) + 1 ≤ ranges.length := by
      rw [← hrngs, length_cons]
      omega
    generalize canonicalPrefix first.to_ (second :: rest) + 1 = i at hcanon hlen ⊢
    by_cases hi : i = ranges.length
    · subst hi
      simpa using hcanon
    · simp only [hi, if_false]
      have hres := insertRanges_spec (ranges.length - i) i i
        (fun r hr => hvalid r (mem_of_mem_drop hr)) (Nat.le_refl i) (by omega) hcanon
      refine ⟨hres.1, ?_, fun c => ?_⟩
      · grind
      · rw [hres.2.2 c, ← covered_append, take_append_drop]

end Canonicalize

end W16.CharacterRanges
