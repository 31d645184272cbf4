import W16.ArraySort

/-!
# What sorting does to the array

The range is cut at the pivot into elements that are not greater and elements that are not less,
and its two parts are sorted by themselves. The index of the middle is inside of the range up to
the range's length for which `>>` is a division.
-/
namespace W16.ArraySort

open Outcomes Rearrangements Set Function

variable {σ α : Type} {comparefn : Comparefn σ α} {le : α → α → Prop} {from_ to_ : Int}

section Middle

theorem middle_bounds (h : 10 < to_ - from_) (h' : to_ - from_ < 2 ^ 31) :
    from_ + 1 < from_ + toInt32 (to_ - from_) >>> (1 : Nat) ∧
      from_ + toInt32 (to_ - from_) >>> (1 : Nat) < to_ - 1 := by
  have hmod : toInt32 (to_ - from_) = to_ - from_ := Int.bmod_eq_of_le (by omega) (by omega)
  rw [hmod, Int.shiftRight_eq_div_pow]
  omega

/-- In a long range `>>` makes the middle come before the first index. -/
theorem middle_lt (h : 2 ^ 31 ≤ to_ - from_) (h' : to_ - from_ < 2 ^ 32) :
    from_ + toInt32 (to_ - from_) >>> (1 : Nat) < from_ := by
  have hmod : toInt32 (to_ - from_) = to_ - from_ - 2 ^ 32 := by
    rw [toInt32, ← Int.sub_bmod_right]
    exact Int.bmod_eq_of_le (by omega) (by omega)
  rw [hmod, Int.shiftRight_eq_div_pow]
  omega

end Middle

section Partition

variable {a : Obj α} {m : Int} {v0 v1 v2 : α}

/-- The three values at their indices. -/
def place (a : Obj α) (from_ to_ m : Int) (v0 v1 v2 : α) : Obj α :=
  Function.update (Function.update (Function.update a from_ v0) (to_ - 1) v1) m v2

theorem place_self : place a from_ to_ m (a from_) (a (to_ - 1)) (a m) = a := by
  simp [place]

theorem place_eq (hm : from_ + 1 < m) (hm' : m < to_ - 1) : place a from_ to_ m v0 v1 v2 =
    Function.update (Function.update (Function.update a m v2) from_ v0) (to_ - 1) v1 := by
  rw [place, update_comm (show to_ - 1 ≠ m by omega), update_comm (show from_ ≠ m by omega)]

/-- The writes that put the pivot behind the first element. -/
def cut (a : Obj α) (from_ to_ m : Int) (v0 v1 v2 : α) : Obj α :=
  Function.update (Function.update (Function.update (Function.update a from_ v0) (to_ - 1) v2) m
    (a (from_ + 1))) (from_ + 1) v1

theorem cut_rearranged {a₀ : Obj α} (hlow : from_ + 1 < m) (hm : m < to_ - 1)
    (h : Rearranged (Ico from_ to_) a₀ (place a from_ to_ m v0 v1 v2)) :
    Rearranged (Ico from_ to_) a₀ (cut a from_ to_ m v0 v1 v2) := by
  have hmid : m ∈ Ico from_ to_ := ⟨by omega, by omega⟩
  have hlast : to_ - 1 ∈ Ico from_ to_ := ⟨by omega, by omega⟩
  have hexchanged := Rearranged.exchange (by omega) hlast hmid h
  have hmoved := hexchanged.move hmid (j := from_ + 1) ⟨by omega, by omega⟩ (by omega)
  have hold : Function.update (Function.update a from_ v0) (to_ - 1) v2 (from_ + 1) = a (from_ + 1) := by
    grind
  rwa [hold] at hmoved

theorem cut_zones (hs : Sound comparefn le) (hlow : from_ + 1 < m) (hm : m < to_ - 1)
    (h01 : le v0 v1) (h12 : le v1 v2) :
    Zones le v1 from_ to_ (cut a from_ to_ m v0 v1 v2) (from_ + 1) (from_ + 1 + 1) (to_ - 1) where
  lowEnd_gt := by omega
  lt := by omega
  le_high := by omega
  high_lt := by omega
  low k hk hk' := by
    obtain rfl : k = from_ := by omega
    rw [cut, update_of_ne (by omega), update_of_ne (by omega),
      update_of_ne (by omega), update_self]
    exact h01
  equal k hk hk' := by
    obtain rfl : k = from_ + 1 := by omega
    simpa [cut] using hs.refl v1
  high k hk hk' := by
    obtain rfl : k = to_ - 1 := by omega
    rw [cut, update_of_ne (by omega), update_of_ne (by omega), update_self]
    exact h12

theorem partition_returns (hs : Sound comparefn le) (a : Obj α) (s : σ) (h : 10 < to_ - from_)
    (h' : to_ - from_ < 2 ^ 31) :
    Returns (fun r => Rearranged (Ico from_ to_) a r.1 ∧
        ∃ pivot, Zones le pivot from_ to_ r.1 r.2.2.1 r.2.2.2 r.2.2.2)
      (partition comparefn from_ to_ a s) := by
  have hmiddle := middle_bounds h h'
  obtain ⟨m, hm⟩ : ∃ m, from_ + toInt32 (to_ - from_) >>> (1 : Nat) = m := ⟨_, rfl⟩
  rw [hm] at hmiddle
  have hfirst : from_ ∈ Ico from_ to_ := ⟨by omega, by omega⟩
  have hsnd : from_ + 1 ∈ Ico from_ to_ := ⟨by omega, by omega⟩
  have hlast : to_ - 1 ∈ Ico from_ to_ := ⟨by omega, by omega⟩
  have hmid : m ∈ Ico from_ to_ := ⟨by omega, by omega⟩
  have hstart : Rearranged (Ico from_ to_) a (place a from_ to_ m (a from_) (a (to_ - 1)) (a m)) := by
    rw [place_self]
    exact Rearranged.refl _ a
  have h01 : ∀ x y z, Rearranged (Ico from_ to_) a (place a from_ to_ m x y z) →
      Rearranged (Ico from_ to_) a (place a from_ to_ m y x z) := by
    intro x y z hxyz
    rw [place_eq hmiddle.1 hmiddle.2] at hxyz ⊢
    exact Rearranged.exchange (by omega) hfirst hlast hxyz
  have h12 : ∀ x y z, Rearranged (Ico from_ to_) a (place a from_ to_ m x y z) →
      Rearranged (Ico from_ to_) a (place a from_ to_ m x z y) :=
    fun x y z => Rearranged.exchange (by omega) hlast hmid
  obtain ⟨v0, v1, v2, s', hmedian, hre, hle, hle'⟩ := medianOfThree_spec hs h01 h12 s hstart
  have hlow : Function.update (Function.update a from_ v0) (to_ - 1) v2 (from_ + 1) = a (from_ + 1) := by
    grind
  rw [partition]
  simp only [hm, load_eq hfirst, load_eq hlast, load_eq hmid, ok_bind, hmedian, store_eq hfirst,
    store_eq hlast, load_eq hsnd, store_eq hmid, store_eq hsnd, hlow]
  refine (partitionLoop_returns hs _ s' (cut_rearranged hmiddle.1 hmiddle.2 hre)
    (cut_zones hs hmiddle.1 hmiddle.2 hle hle') (by omega)).mono fun r hr => ?_
  exact ⟨hr.1, v1, hr.2⟩

end Partition

section Sorting

variable {a : Obj α}

/-- Sorted parts on both sides of elements that are equal to the pivot are sorted together. -/
theorem Zones.sorted {b c d : Obj α} {pivot : α} {lowEnd highStart : Int}
    (hs : Sound comparefn le) (h : Zones le pivot from_ to_ b lowEnd highStart highStart)
    (hlow : Rearranged (Ico from_ lowEnd) b c) (hlowSort : SortedOn le (Ico from_ lowEnd) c)
    (hhigh : Rearranged (Ico highStart to_) c d) (hhighSort : SortedOn le (Ico highStart to_) d) :
    SortedOn le (Ico from_ to_) d := by
  have hlt := h.lt
  have hkeepLow : ∀ k, k < highStart → d k = c k :=
    fun k hk => hhigh.outside fun hmem => absurd hmem.1 (by omega)
  have hkeepHigh : ∀ k, lowEnd ≤ k → c k = b k :=
    fun k hk => hlow.outside fun hmem => absurd hmem.2 (by omega)
  have hlowLe := hlow.forall_mem (P := fun x => le x pivot) fun k hk => h.low k hk.1 hk.2
  have hhighGe : ∀ k ∈ Ico highStart to_, le pivot (d k) := by
    apply hhigh.forall_mem (P := fun x => le pivot x)
    intro k hk
    rw [hkeepHigh k (by have := hk.1; omega)]
    exact h.high k hk.1 hk.2
  -- None before the greater elements is greater than the pivot, none behind the lower ones less.
  have hle : ∀ k, from_ ≤ k → k < highStart → le (d k) pivot := by
    intro k hk hk'
    rw [hkeepLow k hk']
    by_cases hkl : k < lowEnd
    · exact hlowLe k ⟨hk, hkl⟩
    · rw [hkeepHigh k (by omega)]
      exact (h.equal k (by omega) hk').1
  have hge : ∀ k, lowEnd ≤ k → k < to_ → le pivot (d k) := by
    intro k hk hk'
    by_cases hkh : k < highStart
    · rw [hkeepLow k hkh, hkeepHigh k hk]
      exact (h.equal k hk hkh).2
    · exact hhighGe k ⟨by omega, hk'⟩
  intro p hp q hq hpq
  by_cases hql : q < lowEnd
  · rw [hkeepLow p (by omega), hkeepLow q (by omega)]
    exact hlowSort p ⟨hp.1, by omega⟩ q ⟨hq.1, hql⟩ hpq
  · by_cases hph : p < highStart
    · exact hs.trans _ _ _ (hle p hp.1 hph) (hge q (by omega) hq.2)
    · exact hhighSort p ⟨by omega, hp.2⟩ q ⟨by omega, hq.2⟩ hpq

theorem quickSortLoop_returns (hs : Sound comparefn le) (fuel : Nat) (a : Obj α) (s : σ)
    (hfuel : (to_ - from_).toNat < fuel) (hlen : to_ - from_ < 2 ^ 31) :
    Returns (fun r => Rearranged (Ico from_ to_) a r.1 ∧ SortedOn le (Ico from_ to_) r.1)
      (quickSortLoop comparefn fuel a s from_ to_) := by
  induction fuel generalizing a s from_ to_ with
  | zero => omega
  | succ fuel ih =>
    rw [quickSortLoop]
    by_cases hshort : to_ - from_ ≤ 10
    · simp only [hshort, if_true]
      exact insertionSort_returns hs a s
    · simp only [hshort, if_false]
      apply (partition_returns hs a s (by omega) hlen).bind
      rintro ⟨b, s₁, lowEnd, highStart⟩ ⟨hcut, pivot, hzones⟩
      have hgt : from_ < lowEnd := hzones.lowEnd_gt
      have hlt : lowEnd < highStart := hzones.lt
      have hto : highStart < to_ := hzones.high_lt
      dsimp only
      refine (ih b s₁ ?_ ?_).bind ?_
      · omega
      · omega
      rintro ⟨c, s₂⟩ ⟨hlow, hlowSort⟩
      refine (ih c s₂ ?_ ?_).mono fun r hr => ?_
      · omega
      · omega
      have hleft : Ico from_ lowEnd ⊆ Ico from_ to_ := Ico_subset_Ico_right (by omega)
      have hright : Ico highStart to_ ⊆ Ico from_ to_ := Ico_subset_Ico_left (by omega)
      exact ⟨(hcut.trans (hlow.mono hleft)).trans (hr.1.mono hright),
        hzones.sorted hs hlow hlowSort hr.1 hr.2⟩

/-- The run for one relation and the run for another one are the same run. -/
theorem quickSort_returns (comparefn : Comparefn σ α) (a : Obj α) (s : σ) (hlen : to_ - from_ < 2 ^ 31) :
    ∃ a' s', quickSort comparefn a s from_ to_ = .ok (a', s') ∧ Rearranged (Ico from_ to_) a a' ∧
      ∀ le, Sound comparefn le → SortedOn le (Ico from_ to_) a' := by
  have hrun : ∀ le, Sound comparefn le →
      Returns (fun r => Rearranged (Ico from_ to_) a r.1 ∧ SortedOn le (Ico from_ to_) r.1)
        (quickSort comparefn a s from_ to_) :=
    fun le hs => quickSortLoop_returns hs _ a s (Nat.lt_succ_self _) hlen
  have htop := hrun _ (Sound.top comparefn)
  cases hres : quickSort comparefn a s from_ to_ with
  | error e =>
    rw [hres] at htop
    exact htop.elim
  | ok r =>
    rw [hres] at htop
    refine ⟨r.1, r.2, rfl, htop.1, fun le hs => ?_⟩
    have hle := hrun le hs
    rw [hres] at hle
    exact hle.2

end Sorting

section Elements

variable {a b : Obj α}

/-- The indices of a range, in order. -/
def indices (from_ to_ : Int) : List Int :=
  (List.range (to_ - from_).toNat).map fun (k : Nat) => from_ + k

theorem elements_eq : elements a from_ to_ = (indices from_ to_).map a := by
  simp [elements, indices, comp_def]

theorem mem_indices {i : Int} : i ∈ indices from_ to_ ↔ i ∈ Ico from_ to_ := by
  simp only [indices, List.mem_map, List.mem_range, mem_Ico]
  constructor
  · omega
  · intro h
    exact ⟨(i - from_).toNat, by omega, by omega⟩

theorem indices_sorted : (indices from_ to_).Pairwise (· < ·) := by
  rw [indices, List.pairwise_map]
  apply List.pairwise_lt_range.imp
  omega

theorem elements_perm (h : Rearranged (Ico from_ to_) a b) :
    (elements b from_ to_).Perm (elements a from_ to_) := by
  rw [elements_eq, elements_eq]
  apply h.perm
  · exact indices_sorted.imp fun h => Int.ne_of_lt h
  · exact fun i => mem_indices

theorem elements_pairwise (h : SortedOn le (Ico from_ to_) a) : (elements a from_ to_).Pairwise le := by
  rw [elements_eq, List.pairwise_map]
  apply indices_sorted.imp_of_mem
  intro i j hi hj hij
  exact h i (mem_indices.1 hi) j (mem_indices.1 hj) hij

end Elements

/-- The middle of a longer range is before its first index, and is read. -/
theorem quickSort_long (comparefn : Comparefn σ α) (a : Obj α) (s : σ)
    (hlong : 2 ^ 31 ≤ to_ - from_) (hlen : to_ - from_ < 2 ^ 32) :
    ∃ i < from_, quickSort comparefn a s from_ to_ = .error (.outOfRange i) := by
  have hlt := middle_lt hlong hlen
  refine ⟨_, hlt, ?_⟩
  have hfirst : from_ ∈ Ico from_ to_ := ⟨by omega, by omega⟩
  have hlast : to_ - 1 ∈ Ico from_ to_ := ⟨by omega, by omega⟩
  have hmiddle : load from_ to_ a (from_ + toInt32 (to_ - from_) >>> (1 : Nat)) =
      .error (.outOfRange (from_ + toInt32 (to_ - from_) >>> (1 : Nat))) :=
    if_neg fun h => absurd h.1 (by omega)
  rw [quickSort, quickSortLoop, if_neg (by omega), partition]
  simp only [load_eq hfirst, load_eq hlast, ok_bind, hmiddle]
  rfl

/-- The range is one of an array, whose length is less than 2 ^ 32. -/
theorem quickSort_sorts_iff (comparefn : Comparefn σ α) (a : Obj α) (s : σ) (hfrom : 0 ≤ from_)
    (hto : to_ < 2 ^ 32) : SortsRange comparefn a s from_ to_ ↔ to_ - from_ < 2 ^ 31 := by
  constructor
  · rintro ⟨a', s', hrun, -⟩
    by_contra hlong
    obtain ⟨i, -, hstop⟩ := quickSort_long comparefn a s (show 2 ^ 31 ≤ to_ - from_ by omega)
      (show to_ - from_ < 2 ^ 32 by omega)
    rw [hstop] at hrun
    cases hrun
  · intro hlength
    obtain ⟨a', s', hrun, hre, hsorted⟩ := quickSort_returns comparefn a s hlength
    refine ⟨a', s', hrun, elements_perm hre, fun i hi => hre.outside hi, fun le hle => ?_⟩
    exact elements_pairwise (hsorted le hle.sound)

example : (quickSort (fun (_ : Unit) (x y : Nat) =>
      (if x < y then .negative else if y < x then .positive else .zero, ()))
    (fun i => [3, 9, 4, 4, 11, 0, 7, 5, 2, 8, 6, 1].getD i.toNat 0) () 0 12).toOption.map
      (fun r => elements r.1 0 12) = some [0, 1, 2, 3, 4, 4, 5, 6, 7, 8, 9, 11] := by
  decide +kernel

theorem quickSort_sorts_iff_twelve : (0 : Int) ≤ 0 ∧ (12 : Int) < 2 ^ 32 ∧
      SortsRange (fun (_ : Unit) (x y : Nat) =>
          (if x < y then .negative else if y < x then .positive else .zero, ()))
        (fun i => [3, 9, 4, 4, 11, 0, 7, 5, 2, 8, 6, 1].getD i.toNat 0) () 0 12 :=
  ⟨by decide, by decide, (quickSort_sorts_iff _ _ () (by decide) (by decide)).2 (by decide)⟩

/-- An array of `2 ^ 31` elements reads its index `-2 ^ 30`. -/
theorem quickSort_leaves_range :
    quickSort (fun (_ : Unit) (_ _ : Nat) => (.zero, ())) (fun _ => 0) () 0 (2 ^ 31) =
        .error (.outOfRange (-2 ^ 30)) ∧
      ¬SortsRange (fun (_ : Unit) (_ _ : Nat) => (.zero, ())) (fun _ => 0) () 0 (2 ^ 31) := by
  have hrun : quickSort (fun (_ : Unit) (_ _ : Nat) => (.zero, ())) (fun _ => 0) () 0 (2 ^ 31) =
      .error (.outOfRange (-2 ^ 30)) := by
    rfl
  refine ⟨hrun, ?_⟩
  rintro ⟨a', s', hsorts, -⟩
  cases hsorts

end W16.ArraySort
