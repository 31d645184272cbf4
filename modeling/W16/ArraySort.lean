import Mathlib
import W16.Outcomes
import W16.Rearrangements

/-!
# Sorting an array in place

`QuickSort` and `InsertionSort` with any comparison function. An access outside of the range of a
call stops the run.
-/
namespace W16.ArraySort

set_option linter.dupNamespace false

/-- The sign of the number that a comparison function returns, or no number. -/
inductive Order where
  | negative
  | zero
  | positive
  | nan
  deriving DecidableEq, Repr

/-- A comparison function with a state of its own. -/
abbrev Comparefn (σ α : Type) := σ → α → α → Order × σ

inductive Stop where
  | outOfRange (i : Int)
  | outOfFuel
  deriving DecidableEq, Repr

/-- What is read from an object at each index. -/
abbrev Obj (α : Type) := Int → α

variable {σ α : Type}

section Accesses

variable (from_ to_ : Int)

def load (a : Obj α) (i : Int) : Except Stop α :=
  if from_ ≤ i ∧ i < to_ then .ok (a i) else .error (.outOfRange i)

def store (a : Obj α) (i : Int) (x : α) : Except Stop (Obj α) :=
  if from_ ≤ i ∧ i < to_ then .ok (Function.update a i x) else .error (.outOfRange i)

def swapElements (a : Obj α) (i j : Int) : Except Stop (Obj α) := do
  let tmp1 ← load from_ to_ a i
  let tmp2 ← load from_ to_ a j
  let a ← store from_ to_ a i tmp2
  store from_ to_ a j tmp1

end Accesses

section InsertionSort

variable (comparefn : Comparefn σ α) (from_ to_ : Int)

/-- The inner loop: the array, and `j` where it stops. -/
def insertLoop (element : α) : Nat → Obj α → σ → Int → Except Stop (Obj α × σ × Int)
  | 0, _, _, _ => .error .outOfFuel
  | fuel + 1, a, s, j =>
    if j ≥ from_ then do
      let tmp ← load from_ to_ a j
      let (order, s) := comparefn s tmp element
      if order = .positive then do
        let a ← store from_ to_ a (j + 1) tmp
        insertLoop element fuel a s (j - 1)
      else return (a, s, j)
    else return (a, s, j)

/-- The outer loop. -/
def insertionLoop : Nat → Obj α → σ → Int → Except Stop (Obj α × σ)
  | 0, _, _, _ => .error .outOfFuel
  | fuel + 1, a, s, i =>
    if i < to_ then do
      let element ← load from_ to_ a i
      let (a, s, j) ← insertLoop comparefn from_ to_ element ((i - from_).toNat + 1) a s (i - 1)
      let a ← store from_ to_ a (j + 1) element
      insertionLoop fuel a s (i + 1)
    else return (a, s)

def insertionSort (a : Obj α) (s : σ) : Except Stop (Obj α × σ) :=
  insertionLoop comparefn from_ to_ ((to_ - from_).toNat + 1) a s (from_ + 1)

end InsertionSort

section Partition

variable (comparefn : Comparefn σ α) (from_ to_ : Int)

/-- The three values by the results of at most three comparisons. -/
def medianOfThree (s : σ) (v0 v1 v2 : α) : (α × α × α) × σ :=
  let (c01, s) := comparefn s v0 v1
  let (v0, v1) := if c01 = .positive then (v1, v0) else (v0, v1)
  let (c02, s) := comparefn s v0 v2
  if c02 = .positive ∨ c02 = .zero then ((v2, v0, v1), s)
  else
    let (c12, s) := comparefn s v1 v2
    if c12 = .positive then ((v0, v2, v1), s) else ((v0, v1, v2), s)

/-- The loop from above: `high_start`, and the last `order`, or none at `break partition`. -/
def scanHigh (a : Obj α) (pivot : α) (i : Int) : Nat → σ → Int → Except Stop (σ × Int × Option Order)
  | 0, _, _ => .error .outOfFuel
  | fuel + 1, s, highStart =>
    if highStart - 1 = i then return (s, highStart - 1, none)
    else do
      let topElem ← load from_ to_ a (highStart - 1)
      let (order, s) := comparefn s topElem pivot
      if order = .positive then scanHigh a pivot i fuel s (highStart - 1)
      else return (s, highStart - 1, some order)

/-- The loop `partition`: the array, `low_end` and `high_start`. -/
def partitionLoop (pivot : α) : Nat → Obj α → σ → Int → Int → Int → Except Stop (Obj α × σ × Int × Int)
  | 0, _, _, _, _, _ => .error .outOfFuel
  | fuel + 1, a, s, i, lowEnd, highStart =>
    if i < highStart then do
      let element ← load from_ to_ a i
      let (order, s) := comparefn s element pivot
      if order = .negative then do
        let a ← swapElements from_ to_ a i lowEnd
        partitionLoop pivot fuel a s (i + 1) (lowEnd + 1) highStart
      else if order = .positive then do
        let (s, highStart, order) ←
          scanHigh comparefn from_ to_ a pivot i (highStart - i).toNat s highStart
        match order with
        | none => return (a, s, lowEnd, highStart)
        | some order => do
          let a ← swapElements from_ to_ a i highStart
          if order = .negative then do
            let a ← swapElements from_ to_ a i lowEnd
            partitionLoop pivot fuel a s (i + 1) (lowEnd + 1) highStart
          else partitionLoop pivot fuel a s (i + 1) lowEnd highStart
      else partitionLoop pivot fuel a s (i + 1) lowEnd highStart
    else return (a, s, lowEnd, highStart)

/-- Both operands of `>>` are 32-bit integers. -/
def toInt32 (n : Int) : Int := n.bmod (2 ^ 32)

/-- `QuickSort` before its two calls of itself. -/
def partition (a : Obj α) (s : σ) : Except Stop (Obj α × σ × Int × Int) := do
  let v0 ← load from_ to_ a from_
  let v1 ← load from_ to_ a (to_ - 1)
  let middleIndex := from_ + toInt32 (to_ - from_) >>> (1 : Nat)
  let v2 ← load from_ to_ a middleIndex
  let ((v0, v1, v2), s) := medianOfThree comparefn s v0 v1 v2
  let a ← store from_ to_ a from_ v0
  let a ← store from_ to_ a (to_ - 1) v2
  let pivot := v1
  let lowEnd := from_ + 1
  let highStart := to_ - 1
  let low ← load from_ to_ a lowEnd
  let a ← store from_ to_ a middleIndex low
  let a ← store from_ to_ a lowEnd pivot
  partitionLoop comparefn from_ to_ pivot (to_ - from_).toNat a s (lowEnd + 1) lowEnd highStart

end Partition

def quickSortLoop (comparefn : Comparefn σ α) : Nat → Obj α → σ → Int → Int → Except Stop (Obj α × σ)
  | 0, _, _, _, _ => .error .outOfFuel
  | fuel + 1, a, s, from_, to_ =>
    if to_ - from_ ≤ 10 then insertionSort comparefn from_ to_ a s
    else do
      let (a, s, lowEnd, highStart) ← partition comparefn from_ to_ a s
      let (a, s) ← quickSortLoop comparefn fuel a s from_ lowEnd
      quickSortLoop comparefn fuel a s highStart to_

/-- Each call sorts fewer elements than the one before, so this is depth enough. -/
def quickSort (comparefn : Comparefn σ α) (a : Obj α) (s : σ) (from_ to_ : Int) : Except Stop (Obj α × σ) :=
  quickSortLoop comparefn ((to_ - from_).toNat + 1) a s from_ to_

/-- The elements of a range, in order. -/
def elements (a : Obj α) (from_ to_ : Int) : List α :=
  (List.range (to_ - from_).toNat).map fun (k : Nat) => a (from_ + k)

/-- By the sign of its results, a comparison function is this total preorder. -/
structure Consistent (comparefn : Comparefn σ α) (le : α → α → Prop) : Prop where
  total : ∀ x y, le x y ∨ le y x
  trans : ∀ x y z, le x y → le y z → le x z
  negative : ∀ s x y, (comparefn s x y).1 = .negative ↔ ¬le y x
  positive : ∀ s x y, (comparefn s x y).1 = .positive ↔ ¬le x y
  number : ∀ s x y, (comparefn s x y).1 ≠ .nan

/-- The run ends without an access outside of the range, and rearranges the range. -/
def SortsRange (comparefn : Comparefn σ α) (a : Obj α) (s : σ) (from_ to_ : Int) : Prop :=
  ∃ a' s', quickSort comparefn a s from_ to_ = .ok (a', s') ∧
    (elements a' from_ to_).Perm (elements a from_ to_) ∧
    (∀ i, ¬(from_ ≤ i ∧ i < to_) → a' i = a i) ∧
    ∀ le, Consistent comparefn le → (elements a' from_ to_).Pairwise le

end W16.ArraySort

/-!
## What the loops of sorting keep

A comparison function is sound for a relation that its signs never contradict. Any function is sound
for the relation that always holds, so that one invariant says both that the loops rearrange and
that they sort.
-/
namespace W16.ArraySort

open Outcomes Rearrangements Set

variable {σ α β : Type} {comparefn : Comparefn σ α} {le : α → α → Prop} {from_ to_ : Int}

/-- The computation ends without an access outside of the range. -/
abbrev Returns (P : β → Prop) (x : Except Stop β) : Prop := Outcome (fun _ => False) P x

structure Sound (comparefn : Comparefn σ α) (le : α → α → Prop) : Prop where
  refl : ∀ x, le x x
  trans : ∀ x y z, le x y → le y z → le x z
  not_positive : ∀ s x y, (comparefn s x y).1 ≠ .positive → le x y
  not_negative : ∀ s x y, (comparefn s x y).1 ≠ .negative → le y x

theorem Sound.top (comparefn : Comparefn σ α) : Sound comparefn fun _ _ => True :=
  ⟨fun _ => trivial, fun _ _ _ _ _ => trivial, fun _ _ _ _ => trivial, fun _ _ _ _ => trivial⟩

theorem Consistent.sound (h : Consistent comparefn le) : Sound comparefn le where
  refl x := (h.total x x).elim id id
  trans := h.trans
  not_positive s x y hne := by
    by_contra hle
    exact hne ((h.positive s x y).2 hle)
  not_negative s x y hne := by
    by_contra hle
    exact hne ((h.negative s x y).2 hle)

section Accesses

variable {a : Obj α} {i j : Int}

theorem ok_bind {ε γ : Type} (x : β) (f : β → Except ε γ) : Except.ok x >>= f = f x := rfl

theorem load_eq (h : i ∈ Ico from_ to_) : load from_ to_ a i = .ok (a i) := if_pos h

theorem store_eq {x : α} (h : i ∈ Ico from_ to_) :
    store from_ to_ a i x = .ok (Function.update a i x) := if_pos h

theorem swapElements_eq (hi : i ∈ Ico from_ to_) (hj : j ∈ Ico from_ to_) :
    swapElements from_ to_ a i j = .ok (a ∘ Equiv.swap i j) := by
  rw [swapElements, load_eq hi, load_eq hj]
  simp only [ok_bind, store_eq hi, store_eq hj, update_update_eq_swap]

end Accesses

section Insertion

variable {a b : Obj α} {element : α} {i j : Int}

/-- The element belongs to an index at or before the gap, and the others are in order. -/
structure Gap (le : α → α → Prop) (from_ to_ : Int) (a b : Obj α) (element : α) (i gap : Int) : Prop where
  first : from_ ≤ gap
  last : gap ≤ i
  inside : i < to_
  rearranged : Rearranged (Ico from_ to_) a (Function.update b gap element)
  others : ∀ p q, from_ ≤ p → p < q → q ≤ i → p ≠ gap → q ≠ gap → le (b p) (b q)
  behind : ∀ q, gap < q → q ≤ i → le element (b q)

theorem Gap.start (hi : from_ < i) (hi' : i < to_) (hre : Rearranged (Ico from_ to_) a b)
    (hsort : SortedOn le (Ico from_ i) b) : Gap le from_ to_ a b (b i) i i where
  first := by omega
  last := Int.le_refl i
  inside := hi'
  rearranged := by rwa [Function.update_eq_self]
  others p q hp hpq hq hpi hqi := by
    apply hsort
    · exact ⟨hp, by omega⟩
    · exact ⟨by omega, by omega⟩
    · exact hpq
  behind q hq hq' := by omega

/-- The element before the gap is greater, and moves into the gap. -/
theorem Gap.shift (h : Gap le from_ to_ a b element i (j + 1)) (hj : from_ ≤ j) (hle : le element (b j)) :
    Gap le from_ to_ a (Function.update b (j + 1) (b j)) element i j where
  first := hj
  last := by
    have := h.last
    omega
  inside := h.inside
  rearranged := by
    have hi := h.last
    have hto := h.inside
    apply h.rearranged.move
    · exact ⟨by omega, by omega⟩
    · exact ⟨hj, by omega⟩
    · omega
  others p q hp hpq hq hpj hqj := by
    by_cases hpg : p = j + 1
    · subst hpg
      have := h.others j q (by omega) (by omega) hq (by omega) (by omega)
      simpa [show q ≠ j + 1 by omega] using this
    · by_cases hqg : q = j + 1
      · subst hqg
        have := h.others p j hp (by omega) (by omega) hpg (by omega)
        simpa [hpg] using this
      · simpa [hpg, hqg] using h.others p q hp hpq hq hpg hqg
  behind q hq hq' := by
    by_cases hqg : q = j + 1
    · simpa [hqg] using hle
    · simpa [hqg] using h.behind q (by omega) hq'

/-- No element before the gap is greater. -/
theorem Gap.fill {gap : Int} (hs : Sound comparefn le) (h : Gap le from_ to_ a b element i gap)
    (hstop : from_ < gap → le (b (gap - 1)) element) :
    SortedOn le (Ico from_ (i + 1)) (Function.update b gap element) := by
  intro p hp q hq hpq
  rw [mem_Ico] at hp hq
  by_cases hpg : p = gap
  · subst hpg
    simpa [show q ≠ p by omega] using h.behind q hpq (by omega)
  · by_cases hqg : q = gap
    · subst hqg
      have hlast := hstop (by omega)
      by_cases hpl : p = q - 1
      · subst hpl
        simpa [hpg] using hlast
      · have := h.others p (q - 1) hp.1 (by omega) (by omega) hpg (by omega)
        simpa [hpg] using hs.trans _ _ _ this hlast
    · simpa [hpg, hqg] using h.others p q hp.1 hpq (by omega) hpg hqg

theorem insertLoop_returns (hs : Sound comparefn le) (fuel : Nat) (s : σ)
    (h : Gap le from_ to_ a b element i (j + 1)) (hfuel : j - from_ + 1 < fuel) :
    Returns (fun r => r.2.2 + 1 ∈ Ico from_ to_ ∧
        Rearranged (Ico from_ to_) a (Function.update r.1 (r.2.2 + 1) element) ∧
        SortedOn le (Ico from_ (i + 1)) (Function.update r.1 (r.2.2 + 1) element))
      (insertLoop comparefn from_ to_ element fuel b s j) := by
  induction fuel generalizing b s j with
  | zero =>
    have := h.first
    omega
  | succ fuel ih =>
    have hge := h.first
    have hi := h.last
    have hto := h.inside
    have hgap : j + 1 ∈ Ico from_ to_ := ⟨hge, by omega⟩
    rw [insertLoop]
    by_cases hj : j ≥ from_
    · have hmem : j ∈ Ico from_ to_ := ⟨hj, by omega⟩
      have hneg := hs.not_negative s (b j) element
      have hpos := hs.not_positive s (b j) element
      cases hcmp : comparefn s (b j) element with | mk order s' =>
      simp only [hj, if_true, load_eq hmem, ok_bind, hcmp] at hneg hpos ⊢
      by_cases horder : order = .positive
      · have hle := hneg (by simp [horder])
        simp only [horder, if_true, store_eq hgap, ok_bind]
        apply ih
        · rw [Int.sub_add_cancel]
          exact h.shift hj hle
        · omega
      · simp only [horder, if_false]
        refine ⟨hgap, h.rearranged, h.fill hs fun _ => ?_⟩
        grind
    · simp only [hj, if_false]
      exact ⟨hgap, h.rearranged, h.fill hs fun (hlt : from_ < j + 1) => by omega⟩

theorem insertionLoop_returns (hs : Sound comparefn le) (fuel : Nat) (s : σ) (hi : from_ < i)
    (hfuel : (to_ - i).toNat < fuel) (hre : Rearranged (Ico from_ to_) a b)
    (hsort : SortedOn le (Ico from_ i) b) :
    Returns (fun r => Rearranged (Ico from_ to_) a r.1 ∧ SortedOn le (Ico from_ to_) r.1)
      (insertionLoop comparefn from_ to_ fuel b s i) := by
  induction fuel generalizing b s i with
  | zero => omega
  | succ fuel ih =>
    rw [insertionLoop]
    by_cases hlt : i < to_
    · have hmem : i ∈ Ico from_ to_ := ⟨by omega, hlt⟩
      simp only [hlt, if_true, load_eq hmem, ok_bind]
      have hstart : Gap le from_ to_ a b (b i) i (i - 1 + 1) := by
        rw [Int.sub_add_cancel]
        exact Gap.start hi hlt hre hsort
      refine (insertLoop_returns hs _ s hstart (by omega)).bind fun r hr => ?_
      obtain ⟨hgap, hre', hsort'⟩ := hr
      simp only [store_eq hgap, ok_bind]
      apply ih
      · omega
      · omega
      · exact hre'
      · exact hsort'
    · simp only [hlt, if_false]
      refine ⟨hre, fun p hp q hq hpq => ?_⟩
      exact hsort p ⟨hp.1, by have := hp.2; omega⟩ q ⟨hq.1, by have := hq.2; omega⟩ hpq

theorem insertionSort_returns (hs : Sound comparefn le) (a : Obj α) (s : σ) :
    Returns (fun r => Rearranged (Ico from_ to_) a r.1 ∧ SortedOn le (Ico from_ to_) r.1)
      (insertionSort comparefn from_ to_ a s) := by
  apply insertionLoop_returns hs
  · omega
  · omega
  · exact Rearranged.refl _ a
  · intro p hp q hq hpq
    rw [mem_Ico] at hp hq
    omega

end Insertion

section Median

/-- The three values are exchanged with each other until they are in order. -/
theorem medianOfThree_spec {P : α → α → α → Prop} (hs : Sound comparefn le)
    (h01 : ∀ x y z, P x y z → P y x z) (h12 : ∀ x y z, P x y z → P x z y) (s : σ) {v0 v1 v2 : α}
    (h : P v0 v1 v2) : ∃ w0 w1 w2 s', medianOfThree comparefn s v0 v1 v2 = ((w0, w1, w2), s') ∧ P w0 w1 w2 ∧
        le w0 w1 ∧ le w1 w2 := by
  have hpos := hs.not_positive s v0 v1
  have hneg := hs.not_negative s v0 v1
  cases hcmp : comparefn s v0 v1 with | mk c01 s₁ =>
  rw [hcmp] at hpos hneg
  obtain ⟨w0, w1, hw, hP, hle⟩ : ∃ w0 w1,
      (if c01 = .positive then (v1, v0) else (v0, v1)) = (w0, w1) ∧ P w0 w1 v2 ∧ le w0 w1 := by
    by_cases hc : c01 = .positive
    · grind
    · exact ⟨v0, v1, if_neg hc, h, hpos hc⟩
  have hpos := hs.not_positive s₁ w0 v2
  have hneg := hs.not_negative s₁ w0 v2
  cases hcmp' : comparefn s₁ w0 v2 with | mk c02 s₂ =>
  simp only [hcmp'] at hpos hneg
  by_cases hc : c02 = .positive ∨ c02 = .zero
  · refine ⟨v2, w0, w1, s₂, by simp [medianOfThree, hcmp, hw, hcmp', hc], h01 _ _ _ (h12 _ _ _ hP), ?_, hle⟩
    apply hneg
    rintro rfl
    simp at hc
  · have hle' : le w0 v2 := hpos fun h => hc (.inl h)
    have hpos := hs.not_positive s₂ w1 v2
    have hneg := hs.not_negative s₂ w1 v2
    cases hcmp'' : comparefn s₂ w1 v2 with | mk c12 s₃ =>
    simp only [hcmp''] at hpos hneg
    by_cases hc' : c12 = .positive
    · exact ⟨w0, v2, w1, s₃, by simp [medianOfThree, hcmp, hw, hcmp', hc, hcmp'', hc'],
        h12 _ _ _ hP, hle', hneg (by simp [hc'])⟩
    · exact ⟨w0, w1, v2, s₃, by simp [medianOfThree, hcmp, hw, hcmp', hc, hcmp'', hc'], hP, hle, hpos hc'⟩

end Median

section Partition

variable {a b : Obj α} {pivot : α} {i lowEnd highStart : Int}

/-- From `low_end` to `i` are elements equal to the pivot, before them are the lower elements, and
from `high_start` on the greater ones. -/
structure Zones (le : α → α → Prop) (pivot : α) (from_ to_ : Int) (b : Obj α)
    (lowEnd i highStart : Int) : Prop where
  lowEnd_gt : from_ < lowEnd
  lt : lowEnd < i
  le_high : i ≤ highStart
  high_lt : highStart < to_
  low : ∀ k, from_ ≤ k → k < lowEnd → le (b k) pivot
  equal : ∀ k, lowEnd ≤ k → k < i → le (b k) pivot ∧ le pivot (b k)
  high : ∀ k, highStart ≤ k → k < to_ → le pivot (b k)

namespace Zones

theorem equal_step (h : Zones le pivot from_ to_ b lowEnd i highStart) (hi : i < highStart)
    (hle : le (b i) pivot) (hge : le pivot (b i)) :
    Zones le pivot from_ to_ b lowEnd (i + 1) highStart where
  lowEnd_gt := h.lowEnd_gt
  lt := by
    have := h.lt
    omega
  le_high := by omega
  high_lt := h.high_lt
  low := h.low
  equal k hk hk' := by
    by_cases hki : k = i
    · subst hki
      exact ⟨hle, hge⟩
    · exact h.equal k hk (by omega)
  high := h.high

/-- A lower element is swapped with the first one that is equal to the pivot. -/
theorem low_step (h : Zones le pivot from_ to_ b lowEnd i highStart) (hi : i < highStart)
    (hle : le (b i) pivot) :
    Zones le pivot from_ to_ (b ∘ Equiv.swap i lowEnd) (lowEnd + 1) (i + 1) highStart where
  lowEnd_gt := by
    have := h.lowEnd_gt
    omega
  lt := by
    have := h.lt
    omega
  le_high := by omega
  high_lt := h.high_lt
  low k hk hk' := by
    have := h.lt
    by_cases hkl : k = lowEnd
    · subst hkl
      simpa using hle
    · have hki : k ≠ i := by omega
      simpa [Equiv.swap_apply_of_ne_of_ne hki hkl] using h.low k hk (by omega)
  equal k hk hk' := by
    by_cases hki : k = i
    · subst hki
      simpa using h.equal lowEnd (Int.le_refl _) h.lt
    · have hkl : k ≠ lowEnd := by omega
      simpa [Equiv.swap_apply_of_ne_of_ne hki hkl] using h.equal k (by omega) (by omega)
  high k hk hk' := by
    have := h.lt
    have hki : k ≠ i := by omega
    have hkl : k ≠ lowEnd := by omega
    simpa [Equiv.swap_apply_of_ne_of_ne hki hkl] using h.high k hk hk'

/-- A greater element is swapped with the last one that is not known to be greater. -/
theorem high_step {newStart : Int} (h : Zones le pivot from_ to_ b lowEnd i highStart)
    (hi : i < newStart) (hnew : newStart < highStart) (hge : le pivot (b i))
    (hscan : ∀ k, newStart < k → k < highStart → le pivot (b k)) :
    Zones le pivot from_ to_ (b ∘ Equiv.swap i newStart) lowEnd i newStart where
  lowEnd_gt := h.lowEnd_gt
  lt := h.lt
  le_high := by omega
  high_lt := by
    have := h.high_lt
    omega
  low k hk hk' := by
    have := h.lt
    have hki : k ≠ i := by omega
    have hkn : k ≠ newStart := by omega
    simpa [Equiv.swap_apply_of_ne_of_ne hki hkn] using h.low k hk hk'
  equal k hk hk' := by
    have hki : k ≠ i := by omega
    have hkn : k ≠ newStart := by omega
    simpa [Equiv.swap_apply_of_ne_of_ne hki hkn] using h.equal k hk hk'
  high k hk hk' := by
    by_cases hkn : k = newStart
    · subst hkn
      simpa using hge
    · have hki : k ≠ i := by omega
      have hle : le pivot (b k) := by
        by_cases hkh : k < highStart
        · exact hscan k (by omega) hkh
        · exact h.high k (by omega) hk'
      grind

/-- At `break partition` all elements from `i` on are greater. -/
theorem close (h : Zones le pivot from_ to_ b lowEnd i highStart) (hge : le pivot (b i))
    (hscan : ∀ k, i < k → k < highStart → le pivot (b k)) :
    Zones le pivot from_ to_ b lowEnd i i where
  lowEnd_gt := h.lowEnd_gt
  lt := h.lt
  le_high := Int.le_refl i
  high_lt := by
    have := h.le_high
    have := h.high_lt
    omega
  low := h.low
  equal := h.equal
  high k hk hk' := by
    by_cases hki : k = i
    · rwa [hki]
    · by_cases hkh : k < highStart
      · exact hscan k (by omega) hkh
      · exact h.high k (by omega) hk'

end Zones

theorem scanHigh_returns (hs : Sound comparefn le) (fuel : Nat) (s : σ) (hfrom : from_ ≤ i)
    (hi : i < highStart) (hto : highStart ≤ to_) (hfuel : highStart - i ≤ fuel) :
    Returns (fun r => r.2.1 < highStart ∧ (∀ k, r.2.1 < k → k < highStart → le pivot (b k)) ∧ match r.2.2 with
        | none => r.2.1 = i
        | some order => i < r.2.1 ∧ le (b r.2.1) pivot ∧ (order ≠ .negative → le pivot (b r.2.1)))
      (scanHigh comparefn from_ to_ b pivot i fuel s highStart) := by
  induction fuel generalizing s highStart with
  | zero => omega
  | succ fuel ih =>
    rw [scanHigh]
    by_cases hend : highStart - 1 = i
    · simp only [hend, if_true]
      exact ⟨hi, fun k (hk : i < k) hk' => by omega, rfl⟩
    · have hmem : highStart - 1 ∈ Ico from_ to_ := ⟨by omega, by omega⟩
      have hpos := hs.not_positive s (b (highStart - 1)) pivot
      have hneg := hs.not_negative s (b (highStart - 1)) pivot
      cases hcmp : comparefn s (b (highStart - 1)) pivot with | mk order s' =>
      simp only [hend, if_false, load_eq hmem, ok_bind, hcmp] at hpos hneg ⊢
      by_cases horder : order = .positive
      · have hge := hneg (by simp [horder])
        simp only [horder, if_true]
        refine (ih s' (by omega) (by omega) (by omega)).mono fun r hr => ?_
        grind
      · simp only [horder, if_false]
        have hlast : highStart - 1 < highStart := by omega
        have hdone : i < highStart - 1 := by omega
        exact ⟨hlast, fun k (hk : highStart - 1 < k) hk' => by omega, hdone, hpos horder, hneg⟩

theorem partitionLoop_returns (hs : Sound comparefn le) (fuel : Nat) (s : σ)
    (hre : Rearranged (Ico from_ to_) a b) (h : Zones le pivot from_ to_ b lowEnd i highStart)
    (hfuel : highStart - i < fuel) :
    Returns (fun r => Rearranged (Ico from_ to_) a r.1 ∧ Zones le pivot from_ to_ r.1 r.2.2.1 r.2.2.2 r.2.2.2)
      (partitionLoop comparefn from_ to_ pivot fuel b s i lowEnd highStart) := by
  induction fuel generalizing b s i lowEnd highStart with
  | zero =>
    have := h.le_high
    omega
  | succ fuel ih =>
    have hlow := h.lowEnd_gt
    have hlt := h.lt
    have hhigh := h.le_high
    have hto := h.high_lt
    rw [partitionLoop]
    by_cases hi : i < highStart
    · have himem : i ∈ Ico from_ to_ := ⟨by omega, by omega⟩
      have hlmem : lowEnd ∈ Ico from_ to_ := ⟨by omega, by omega⟩
      have hpositive := hs.not_positive s (b i) pivot
      have hnegative := hs.not_negative s (b i) pivot
      cases hcmp : comparefn s (b i) pivot with | mk order s' =>
      simp only [hi, if_true, load_eq himem, ok_bind, hcmp] at hpositive hnegative ⊢
      by_cases hneg : order = .negative
      · simp only [hneg, if_true, swapElements_eq himem hlmem, ok_bind]
        apply ih
        · exact hre.trans (Rearranged.swap b himem hlmem)
        · exact h.low_step hi (hpositive (by simp [hneg]))
        · omega
      · have hge := hnegative hneg
        simp only [hneg, if_false]
        by_cases hpos : order = .positive
        · simp only [hpos, if_true]
          refine (scanHigh_returns (b := b) hs _ s' himem.1 hi (by omega) (by omega)).bind fun r hr => ?_
          obtain ⟨s'', newStart, order'⟩ := r
          obtain ⟨hnew, hscan, hstop⟩ := hr
          cases order' with
          | none =>
            obtain rfl : newStart = i := hstop
            exact ⟨hre, h.close hge hscan⟩
          | some order' =>
            obtain ⟨hin, hle, hge'⟩ := hstop
            simp only at hin hle hge' hnew hscan ⊢
            have hnmem : newStart ∈ Ico from_ to_ := ⟨by omega, by omega⟩
            have hre' := hre.trans (Rearranged.swap b himem hnmem)
            have h' := h.high_step hin hnew hge hscan
            have hmoved : (b ∘ Equiv.swap i newStart) i = b newStart := by simp
            rw [swapElements_eq himem hnmem, ok_bind]
            by_cases hneg' : order' = .negative
            · simp only [hneg', if_true, swapElements_eq himem hlmem, ok_bind]
              apply ih
              · exact hre'.trans (Rearranged.swap _ himem hlmem)
              · apply h'.low_step hin
                rwa [hmoved]
              · omega
            · simp only [hneg', if_false]
              apply ih s'' hre'
              · apply h'.equal_step hin
                · rwa [hmoved]
                · rw [hmoved]
                  exact hge' hneg'
              · omega
        · simp only [hpos, if_false]
          apply ih s' hre
          · exact h.equal_step hi (hpositive hpos) hge
          · omega
    · simp only [hi, if_false]
      obtain rfl : i = highStart := by omega
      exact ⟨hre, h⟩

end Partition

end W16.ArraySort
