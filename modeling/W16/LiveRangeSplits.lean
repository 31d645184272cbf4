import W16.LiveRangeCaches
import Mathlib.Data.List.TakeWhile

/-!
# A split partitions a range

The intervals and the uses are cut at the position, whatever the caches are, and this goes on for
every part of a range that has been split before.
-/
namespace W16.Lithium

open List

namespace Part

variable {intervals : List UseInterval} {x p : Int} {part : Part}

/-- How the loop of `SplitAt` cuts a list at a position. -/
inductive CutsAt (p : Int) : List UseInterval → Cut → Prop
  | inside (pre : List UseInterval) (i : UseInterval) (rest : List UseInterval)
      (h : i.start < p) (h' : p < i.finish) :
      CutsAt p (pre ++ i :: rest) ⟨i :: rest, ⟨i.start, p, h⟩, ⟨p, i.finish, h'⟩ :: rest, false⟩
  | between (pre : List UseInterval) (i next : UseInterval) (rest : List UseInterval)
      (h : i.finish ≤ p) (h' : p ≤ next.start) :
      CutsAt p (pre ++ i :: next :: rest) ⟨i :: next :: rest, i, next :: rest, next.start = p⟩

variable {c : Cut}

theorem CutsAt.append (skipped : List UseInterval) (h : CutsAt p intervals c) :
    CutsAt p (skipped ++ intervals) c := by
  cases h with
  | inside pre i rest h h' =>
    rw [← append_assoc]
    exact .inside _ i rest h h'
  | between pre i next rest h h' =>
    rw [← append_assoc]
    exact .between _ i next rest h h'

theorem cut_spec (hord : Ordered intervals) (hfirst : ∀ i ∈ intervals.head?, i.start < p)
    (hlast : ∃ i ∈ intervals, p < i.finish) : ∃ c, cut p intervals = some c ∧ CutsAt p intervals c := by
  induction intervals with
  | nil =>
    grind
  | cons current rest ih =>
    have hstart : current.start < p := hfirst current rfl
    unfold cut
    by_cases hcont : current.contains p = true
    · have hin := LiveRange.contains_iff.1 hcont
      rw [if_pos hcont, UseInterval.splitAt, dif_pos ⟨hstart, hin.2⟩]
      exact ⟨_, rfl, .inside [] current rest hstart hin.2⟩
    · have hfin : current.finish ≤ p := by
        rw [LiveRange.contains_iff] at hcont
        omega
      rw [if_neg hcont]
      cases rest with
      | nil =>
        grind
      | cons next rest =>
        simp only
        by_cases hnext : next.start ≥ p
        · rw [if_pos hnext]
          exact ⟨_, rfl, .between [] current next rest hfin hnext⟩
        · rw [if_neg hnext]
          have hfirst' : ∀ i ∈ (next :: rest).head?, i.start < p := by
            grind
          have hlast' : ∃ i ∈ next :: rest, p < i.finish := by
            grind
          obtain ⟨c, hc, hcuts⟩ := ih hord.of_cons hfirst' hlast'
          exact ⟨c, hc, hcuts.append [current]⟩

/-- The loop starts at an interval before the position. -/
theorem Valid.cutStart (h : part.Valid) (hp : part.start < p) :
    part.cutStart p <:+ part.intervals ∧ part.cutStart p ≠ [] ∧ ∀ i ∈ (part.cutStart p).head?, i.start < p := by
  have hfirst : ∀ i ∈ part.intervals.head?, i.start < p := by
    intro i hi
    rw [start, hi] at hp
    exact hp
  have hall : part.intervals <:+ part.intervals ∧ part.intervals ≠ [] ∧
      ∀ i ∈ part.intervals.head?, i.start < p := ⟨suffix_rfl, h.nonempty, hfirst⟩
  have hcur := h.current
  rw [Part.cutStart, firstSearchIntervalForPosition]
  cases hcached : part.current with
  | nil =>
    simp only [ite_self]
    exact hall
  | cons cached rest =>
    grind

/-- The intervals of a range are divided between its two parts, or the one at the position is cut
in two. -/
inductive Divides (p : Int) : List UseInterval → List UseInterval → List UseInterval → Prop
  | inside (pre : List UseInterval) (i : UseInterval) (rest : List UseInterval)
      (h : i.start < p) (h' : p < i.finish) :
      Divides p (pre ++ i :: rest) (pre ++ [⟨i.start, p, h⟩]) (⟨p, i.finish, h'⟩ :: rest)
  | between (pre : List UseInterval) (i next : UseInterval) (rest : List UseInterval)
      (h : i.finish ≤ p) (h' : p ≤ next.start) :
      Divides p (pre ++ i :: next :: rest) (pre ++ [i]) (next :: rest)

theorem take_before (pre at_ : List UseInterval) :
    (pre ++ at_).take ((pre ++ at_).length - at_.length) = pre := by
  simp

theorem CutsAt.divides (h : CutsAt p intervals c) :
    Divides p intervals (intervals.take (intervals.length - c.at_.length) ++ [c.before]) c.after := by
  cases h with
  | inside pre i rest h h' =>
    rw [take_before]
    exact .inside pre i rest h h'
  | between pre i next rest h h' =>
    rw [take_before]
    exact .between pre i next rest h h'

/-- An interval starts at the position. -/
def StartsAt (intervals : List UseInterval) (p : Int) : Prop := ∃ i ∈ intervals, i.start = p

theorem CutsAt.splitAtStart_iff (h : CutsAt p intervals c)
    (hord : Ordered intervals) : c.splitAtStart = true ↔ StartsAt intervals p := by
  cases h with
  | inside pre i rest h h' =>
    rw [Ordered, pairwise_append] at hord
    obtain ⟨-, hrest, hpre⟩ := hord
    refine ⟨fun hstart => absurd hstart Bool.false_ne_true, ?_⟩
    rintro ⟨j, hj, rfl⟩
    rcases mem_append.1 hj with hj | hj
    · have := hpre j hj i mem_cons_self
      have := j.nonempty
      omega
    · grind [pairwise_cons]
  | between pre i next rest h h' =>
    rw [Ordered, pairwise_append] at hord
    obtain ⟨-, hrest, hpre⟩ := hord
    simp only [decide_eq_true_eq]
    constructor
    · exact fun heq => ⟨next, by simp, heq⟩
    · rintro ⟨j, hj, rfl⟩
      have hne := j.nonempty
      rcases mem_append.1 hj with hj | hj
      · have := hpre j hj i mem_cons_self
        have := i.nonempty
        omega
      · rcases mem_cons.1 hj with rfl | hj
        · omega
        · have := start_le_of_ordered hrest.of_cons j hj
          omega

section Divided

variable {parent child : List UseInterval}

theorem Divides.ordered (h : Divides p intervals parent child) (hord : Ordered intervals) :
    Ordered parent ∧ Ordered child := by
  cases h with
  | inside pre i rest h h' =>
    simp_all [pairwise_append]
  | between pre i next rest h h' =>
    grind

theorem Divides.parent_covered (h : Divides p intervals parent child) (hord : Ordered intervals) (x : Int) :
    Covered parent x ↔ Covered intervals x ∧ x < p := by
  cases h with
  | inside pre i rest h h' =>
    rw [Ordered, pairwise_append] at hord
    obtain ⟨-, hrest, hpre⟩ := hord
    have hbefore : Covered pre x → x < i.start :=
      fun hx => hx.lt_finish fun j hj => hpre j hj i mem_cons_self
    have hafter : Covered rest x → i.finish ≤ x :=
      fun hx => hx.start_le (pairwise_cons.1 hrest).1
    simp only [covered_append, covered_cons, not_covered_nil, or_false]
    grind
  | between pre i next rest h h' =>
    rw [Ordered, append_cons, pairwise_append] at hord
    obtain ⟨hpre, hrest, hacross⟩ := hord
    rw [append_cons pre i (next :: rest), @covered_append _ _ (next :: rest)]
    constructor
    · intro hx
      refine ⟨.inl hx, hx.lt_finish fun j hj => ?_⟩
      rcases mem_append.1 hj with hj | hj
      · have := (pairwise_append.1 hpre).2.2 j hj i mem_cons_self
        have := i.nonempty
        omega
      · rw [mem_singleton.1 hj]
        exact h
    · rintro ⟨hx | hx, hlt⟩
      · exact hx
      · have := hx.start_le (start_le_of_ordered hrest)
        omega

theorem Divides.child_covered (h : Divides p intervals parent child) (hord : Ordered intervals) (x : Int) :
    Covered child x ↔ Covered intervals x ∧ p ≤ x := by
  have hpar := h.parent_covered hord x
  cases h with
  | inside pre i rest h h' =>
    rw [Ordered, pairwise_append] at hord
    have hafter : Covered rest x → i.finish ≤ x :=
      fun hx => hx.start_le (pairwise_cons.1 hord.2.1).1
    grind [covered_append, covered_cons]
  | between pre i next rest h h' =>
    rw [Ordered, append_cons, pairwise_append] at hord
    rw [append_cons pre i (next :: rest), @covered_append _ _ (next :: rest)] at *
    constructor
    · intro hx
      have := hx.start_le (start_le_of_ordered hord.2.1)
      exact ⟨.inr hx, by omega⟩
    grind

theorem Divides.parent_last (h : Divides p intervals parent child) :
    ∃ i, parent.getLast? = some i ∧ i.finish ≤ p := by
  cases h with
  | inside pre i rest h h' => simp
  | between pre i next rest h h' => exact ⟨_, getLast?_concat, h⟩

theorem Divides.nonneg (h : Divides p intervals parent child) (hnonneg : ∀ i ∈ intervals, 0 ≤ i.start) :
    (∀ i ∈ parent, 0 ≤ i.start) ∧ ∀ i ∈ child, 0 ≤ i.start := by
  cases h with
  | inside pre i rest h h' =>
    grind
  | between pre i next rest h h' =>
    grind

end Divided

theorem CutsAt.after_ne_nil (h : CutsAt p intervals c) : c.after ≠ [] := by
  cases h with
  | inside pre i rest h h' => exact cons_ne_nil _ _
  | between pre i next rest h h' => exact cons_ne_nil _ _

/-- The last interval of the child. -/
theorem CutsAt.last (h : CutsAt p intervals c) (hord : Ordered intervals) :
    (if intervals.getLast? = c.at_.head? then c.after.head? else intervals.getLast?) = c.after.getLast? := by
  cases h with
  | inside pre i rest h h' =>
    rw [Ordered, pairwise_append] at hord
    have hrest := (pairwise_cons.1 hord.2.1).1
    cases rest with
    | nil =>
      rw [getLast?_concat]
      exact if_pos rfl
    | cons next rest =>
      have hlast : (pre ++ i :: next :: rest).getLast? = (next :: rest).getLast? := by
        grind
      grind
  | between pre i next rest h h' =>
    rw [Ordered, pairwise_append] at hord
    have hrest := (pairwise_cons.1 hord.2.1).1
    have hlast : (pre ++ i :: next :: rest).getLast? = (next :: rest).getLast? := by
      grind
    rw [hlast, if_neg]
    intro heq
    have := hrest i (mem_of_getLast? heq)
    have := i.nonempty
    omega

/-- Behind the first use that stays out, all stay out. -/
theorem not_of_mem_dropWhile {uses : List UsePosition} {isBefore : UsePosition → Bool}
    (hsort : uses.Pairwise fun a b => a.pos ≤ b.pos)
    (hmono : ∀ a b, a.pos ≤ b.pos → isBefore b = true → isBefore a = true) :
    ∀ use ∈ uses.dropWhile isBefore, isBefore use = false := by
  induction uses with
  | nil => exact fun _ huse => absurd huse not_mem_nil
  | cons first uses ih =>
    obtain ⟨hfirst, hsort⟩ := pairwise_cons.1 hsort
    rw [dropWhile_cons]
    cases hbefore : isBefore first with
    | true => exact ih hsort
    | false =>
      intro use huse
      rcases mem_cons.1 huse with rfl | huse
      · exact hbefore
      · rw [← Bool.not_eq_true]
        grind -linarith

/-- What a split at a position makes of a range. -/
structure Splits (part parent child : Part) (p : Int) : Prop where
  divides : Divides p part.intervals parent.intervals child.intervals
  parentCovered : ∀ x, Covered parent.intervals x ↔ Covered part.intervals x ∧ x < p
  childCovered : ∀ x, Covered child.intervals x ↔ Covered part.intervals x ∧ p ≤ x
  uses : parent.uses ++ child.uses = part.uses
  parentUses : ∀ use ∈ parent.uses, use.pos < p ∨ use.pos = p ∧ ¬StartsAt part.intervals p
  childUses : ∀ use ∈ child.uses, p < use.pos ∨ use.pos = p ∧ StartsAt part.intervals p

theorem Valid.splitAt (h : part.Valid) (hp : part.start < p) (hp' : p < part.finish) :
    ∃ parent child, part.splitAt p = some (parent, child) ∧ parent.Valid ∧ child.Valid ∧
      Splits part parent child p := by
  obtain ⟨hsuffix, hne, hfirst⟩ := h.cutStart hp
  have hlast : ∃ i ∈ part.cutStart p, p < i.finish := by
    obtain ⟨i, hi⟩ := Option.isSome_iff_exists.1 (getLast?_isSome.2 hne)
    refine ⟨i, mem_of_getLast? hi, ?_⟩
    obtain ⟨skipped, hskipped⟩ := hsuffix
    have hsame : part.intervals.getLast? = some i := by
      grind
    rwa [h.finish_eq, hsame] at hp'
  obtain ⟨c, hc, hcuts⟩ := cut_spec (h.ordered.sublist hsuffix.sublist) hfirst hlast
  obtain ⟨skipped, hskipped⟩ := hsuffix
  have hcuts := hcuts.append skipped
  rw [hskipped] at hcuts
  have hdivides := hcuts.divides
  have hat := hcuts.splitAtStart_iff h.ordered
  obtain ⟨hpar, hchild⟩ := hdivides.ordered h.ordered
  obtain ⟨hpar', hchild'⟩ := hdivides.nonneg h.nonneg
  have hmono : ∀ a b : UsePosition, a.pos ≤ b.pos →
      (if c.splitAtStart then decide (b.pos < p) else decide (b.pos ≤ p)) = true →
        (if c.splitAtStart then decide (a.pos < p) else decide (a.pos ≤ p)) = true := by
    grind
  rw [Part.splitAt, if_pos ⟨h.nonempty, hp⟩, hc]
  refine ⟨_, _, rfl, ?_, ?_, hdivides, hdivides.parent_covered h.ordered,
    hdivides.child_covered h.ordered, takeWhile_append_dropWhile, ?_, ?_⟩
  · exact ⟨append_ne_nil_of_right_ne_nil _ (cons_ne_nil _ _), hpar, hpar',
      getLast?_concat.symm, nil_suffix,
      h.uses.sublist (takeWhile_sublist _), nil_suffix⟩
  · refine ⟨?_, hchild, hchild', ?_, nil_suffix,
      h.uses.sublist (dropWhile_sublist _), nil_suffix⟩
    · exact hcuts.after_ne_nil
    · rw [h.last]
      exact hcuts.last h.ordered
  · intro use huse
    have hbefore := mem_takeWhile_imp huse
    grind
  · intro use huse
    have hafter := not_of_mem_dropWhile h.uses hmono use huse
    grind

/-- A call to one of the parts of a range, as the allocator makes it: a split is between the start
and the end of the part. -/
inductive Call where
  | covers (index : Nat) (position : Int)
  | firstIntersection (index : Nat) (other : LiveRange)
  | nextUsePosition (index : Nat) (start : Int)
  | nextUsePositionRegisterIsBeneficial (index : Nat) (start : Int)
  | nextRegisterPosition (index : Nat) (start : Int)
  | splitAt (index : Nat) (position : Int)

namespace Call

/-- The part that is called. -/
def index : Call → Nat
  | covers i _ => i
  | firstIntersection i _ => i
  | nextUsePosition i _ => i
  | nextUsePositionRegisterIsBeneficial i _ => i
  | nextRegisterPosition i _ => i
  | splitAt i _ => i

/-- What the part becomes, with the new child behind it. -/
def result (part : Part) : Call → Option (List Part)
  | covers _ position => some [(part.covers position).2]
  | firstIntersection _ other => some [(part.firstIntersection other).2]
  | nextUsePosition _ start => some [(part.nextUsePosition start).2]
  | nextUsePositionRegisterIsBeneficial _ start =>
    some [(part.nextUsePositionRegisterIsBeneficial start).2]
  | nextRegisterPosition _ start => some [(part.nextRegisterPosition start).2]
  | splitAt _ position =>
    if part.start < position ∧ position < part.finish then
      (part.splitAt position).map fun (parent, child) => [parent, child]
    else none

/-- The parts along `next()`. -/
def step (parts : List Part) (call : Call) : Option (List Part) :=
  (parts[call.index]?).bind fun part =>
    (call.result part).map fun new => parts.take call.index ++ new ++ parts.drop (call.index + 1)

end Call

/-- The range as the allocator finds it. -/
def fresh (range : LiveRange) (uses : List UsePosition) : Part where
  intervals := range.intervals
  last := range.intervals.getLast?
  uses := uses
  current := []
  lastProcessedUse := []

def run (range : LiveRange) (uses : List UsePosition) (calls : List Call) : Option (List Part) :=
  calls.foldlM Call.step [fresh range uses]

end Part

end W16.Lithium
