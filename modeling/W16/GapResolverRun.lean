import W16.GapResolver

/-!
# Running the gap resolver

`PerformMove` ends and performs the move it is called for, whatever the port does with a
move that is no longer blocked, and the two loops of `Resolve` perform them all.
-/
namespace W16.GapResolver

open MoveOperands Function List

variable {S Op : Type}

/-! ## The traversal performs a move -/

theorem foldlM_range {f : S → Nat → Option S} {I : Nat → S → Prop} {s : S} {n : Nat} (h0 : I 0 s)
    (hstep : ∀ k < n, ∀ t, I k t → ∃ u, f t k = some u ∧ I (k + 1) u) :
    ∃ t, (List.range n).foldlM f s = some t ∧ I n t := by
  induction n with
  | zero => exact ⟨s, rfl, h0⟩
  | succ n ih =>
    obtain ⟨t, ht, hI⟩ := ih fun k hk => hstep k (by omega)
    simp [range_succ, hstep, hI, ht]

/-- What the traversal needs to know of a port: `Good` holds of its state and the stack of pending
moves, and the port resolves a move that only pending moves block. -/
structure Lawful (B : Port S Op) (count : Nat) (s₀ d : Nat → Op) (Good : List Nat → S → Prop) : Prop where
  moves_setDestination : ∀ s i o, B.moves (B.setDestination s i o) =
    update (B.moves s) i ⟨(B.moves s i).source, o⟩
  good_push : ∀ s i p stack, Good (p :: stack) s → src (B.moves s) i ≠ none → i ∉ p :: stack →
    Good (i :: p :: stack) (B.setDestination s i none)
  finish : ∀ s i stack, Graph count s₀ d (B.moves s) (i :: stack) → Good (i :: stack) s →
    (∀ j < count, j ∉ i :: stack → src (B.moves s) j ≠ some (d i)) →
    Graph count s₀ d (B.moves (B.finish (B.setDestination s i (some (d i))) i)) stack ∧
      src (B.moves (B.finish (B.setDestination s i (some (d i))) i)) i = none ∧
      Progress count d stack (B.moves s) (B.moves (B.finish (B.setDestination s i (some (d i))) i)) ∧
      Good stack (B.finish (B.setDestination s i (some (d i))) i)

section Perform

variable {B : Port S Op} {count : Nat} {s₀ d : Nat → Op} {Good : List Nat → S → Prop}
  (law : Lawful B count s₀ d Good)
include law

theorem Lawful.src_setDestination (s : S) (i : Nat) (o : Option Op) :
    src (B.moves (B.setDestination s i o)) = src (B.moves s) := by
  rw [law.moves_setDestination, GapResolver.src_setDestination]

variable [DecidableEq Op]

/-- One round of the loop over the blocking moves, if the recursive call does its work. -/
theorem Lawful.round {fuel i k : Nat} {stack : List Nat} {t : S} (hk : k < count)
    (hcall : Graph count s₀ d (B.moves t) (i :: stack) → Good (k :: i :: stack) (B.setDestination t k none) →
      k ∉ i :: stack → src (B.moves t) k = some (d i) →
      ∃ u, performMove B count fuel t k = some u ∧ Graph count s₀ d (B.moves u) (i :: stack) ∧
        src (B.moves u) k = none ∧ Progress count d (i :: stack) (B.moves t) (B.moves u) ∧ Good (i :: stack) u)
    (hgraph : Graph count s₀ d (B.moves t) (i :: stack)) (hgood : Good (i :: stack) t)
    (hdone : ∀ j < k, j ∉ i :: stack → src (B.moves t) j ≠ some (d i)) :
    ∃ u, (if (B.moves t k).blocks (some (d i)) && !(B.moves t k).isPending
        then performMove B count fuel t k else some t) = some u ∧
      Graph count s₀ d (B.moves u) (i :: stack) ∧ Good (i :: stack) u ∧
      Progress count d (i :: stack) (B.moves t) (B.moves u) ∧
      ∀ j < k + 1, j ∉ i :: stack → src (B.moves u) j ≠ some (d i) := by
  by_cases hb : src (B.moves t) k = some (d i) ∧ k ∉ i :: stack
  · have hcond : ((B.moves t k).blocks (some (d i)) && !(B.moves t k).isPending) = true := by
      rw [Bool.and_eq_true, blocks_iff, Bool.not_eq_true', ← Bool.not_eq_true, hgraph.isPending_iff hk]
      exact hb
    rw [if_pos hcond]
    obtain ⟨u, hu, hgu, hgone, hprog, hgood'⟩ := hcall hgraph
      (law.good_push t k i stack hgood (by rw [hb.1]; simp) hb.2) hb.2 hb.1
    refine ⟨u, hu, hgu, hgood', hprog, fun j hj hn hsrc => ?_⟩
    rcases Nat.lt_succ_iff_lt_or_eq.1 hj with hj | rfl
    · exact hdone j hj hn (hprog.blockers i (by simp) j (hj.trans hk) hn hsrc)
    · rw [hgone] at hsrc
      cases hsrc
  · have hcond : ¬((B.moves t k).blocks (some (d i)) && !(B.moves t k).isPending) = true := by
      rw [Bool.and_eq_true, blocks_iff, Bool.not_eq_true', ← Bool.not_eq_true, hgraph.isPending_iff hk]
      exact hb
    rw [if_neg hcond]
    refine ⟨t, rfl, hgraph, hgood, .of_src_eq rfl, fun j hj hn hsrc => ?_⟩
    grind

/-- `PerformMove` ends, performs the move it is called for and keeps what holds of the port's state.
The stack grows with each call and holds each move once, so the depth is at most `count`. -/
theorem Lawful.performMove_spec (hd : ∀ i < count, ∀ j < count, d i = d j → i = j) (fuel : Nat) :
    ∀ (s : S) (i : Nat) (stack : List Nat),
    Graph count s₀ d (B.moves s) stack → Good (i :: stack) (B.setDestination s i none) → i < count →
    i ∉ stack → src (B.moves s) i ≠ none →
    (∀ p, stack.head? = some p → src (B.moves s) i = some (d p)) →
    (stack = [] → ∀ j < i, Settled count d (B.moves s) j) → count ≤ fuel + stack.length →
    ∃ t, performMove B count fuel s i = some t ∧ Graph count s₀ d (B.moves t) stack ∧
      src (B.moves t) i = none ∧ Progress count d stack (B.moves s) (B.moves t) ∧ Good stack t := by
  induction fuel with
  | zero =>
    intro s i stack hg _ hi hn _ _ _ hfuel
    have hsub : i :: stack ⊆ List.range count := by
      intro j hj
      rcases mem_cons.1 hj with rfl | hj
      · simpa using hi
      · simpa using hg.lt j hj
    have hlen := (subperm_of_subset (nodup_cons.2 ⟨hn, hg.nodup⟩) hsub).length_le
    simp only [length_cons, length_range] at hlen
    omega
  | succ fuel ih =>
    intro s i stack hg hgood hi hn hlive hreads hroot hfuel
    have hdest : (B.moves s i).destination = some (d i) := by
      rw [hg.dest i hi, if_neg]
      grind
    have hpush := hg.push hd hi hn hlive hreads hroot
    rw [← law.moves_setDestination] at hpush
    obtain ⟨t, ht, hgt, hgoodt, hprog, hdone⟩ := foldlM_range
      (f := fun t k => if (B.moves t k).blocks (some (d i)) && !(B.moves t k).isPending
        then performMove B count fuel t k else some t)
      (I := fun k t => Graph count s₀ d (B.moves t) (i :: stack) ∧ Good (i :: stack) t ∧
        Progress count d (i :: stack) (B.moves s) (B.moves t) ∧
        ∀ j < k, j ∉ i :: stack → src (B.moves t) j ≠ some (d i)) (n := count)
      ⟨hpush, hgood, .of_src_eq (law.src_setDestination s i none), fun j hj => by omega⟩
      (by
        intro k hk t ⟨hgt, hgoodt, hprog, hdone⟩
        obtain ⟨u, hu, hgu, hgoodu, hprog', hdone'⟩ := law.round hk
          (fun hgraph hgood' hnk hsrc => ih t k (i :: stack) hgraph hgood' hk hnk (by rw [hsrc]; simp)
            (fun p hp => by
              grind)
            (fun h0 => by cases h0) (by rw [length_cons]; omega)) hgt hgoodt hdone
        exact ⟨u, hu, hgu, hgoodu, hprog.trans hprog', hdone'⟩)
    obtain ⟨hgraph, hgone, hlast, hfinal⟩ := law.finish t i stack hgt hgoodt hdone
    refine ⟨B.finish (B.setDestination t i (some (d i))) i, ?_, hgraph, hgone, hprog.trans_pop hlast hgone, hfinal⟩
    rw [performMove]
    simp only [hdest, ht]
    rfl

end Perform

/-! ## The two loops of `Resolve` -/

section Loops

variable {B : Port S Op} {isConstant : Op → Bool} {count : Nat} {s₀ d : Nat → Op} {G : S → Prop}
  (hconst : ∀ i < count, isConstant (d i) = false)

/-- What is left after the first loop: moves from constants. -/
def OnlyConstants (isConstant : Op → Bool) (mv : Nat → MoveOperands Op) (j : Nat) : Prop :=
  ∀ a, src mv j = some a → isConstant a = true

include hconst in
theorem OnlyConstants.settled {mv : Nat → MoveOperands Op} {j : Nat} (h : OnlyConstants isConstant mv j) :
    Settled count d mv j := by
  intro k hk hsrc
  have := h _ hsrc
  rw [hconst k hk] at this
  cases this

include hconst in
theorem performMoves_spec {perform : S → Nat → Option S} {s : S}
    (hperf : ∀ s i a, Graph count s₀ d (B.moves s) [] → G s → i < count →
      src (B.moves s) i = some a → isConstant a = false → (∀ j < i, Settled count d (B.moves s) j) →
      ∃ t, perform s i = some t ∧ Graph count s₀ d (B.moves t) [] ∧ src (B.moves t) i = none ∧
        Progress count d [] (B.moves s) (B.moves t) ∧ G t)
    (hgraph : Graph count s₀ d (B.moves s) []) (hgood : G s) :
    ∃ t, performMoves B isConstant perform count s = some t ∧ Graph count s₀ d (B.moves t) [] ∧ G t ∧
      ∀ j < count, OnlyConstants isConstant (B.moves t) j := by
  refine foldlM_range (I := fun k t => Graph count s₀ d (B.moves t) [] ∧ G t ∧
    ∀ j < k, OnlyConstants isConstant (B.moves t) j) ⟨hgraph, hgood, fun j hj => by omega⟩ ?_
  intro k hk t ⟨hgt, hgoodt, hdone⟩
  have hstay : (∀ a, src (B.moves t) k = some a → isConstant a = true) →
      ∀ j < k + 1, OnlyConstants isConstant (B.moves t) j := by
    intro hc j hj
    rcases Nat.lt_succ_iff_lt_or_eq.1 hj with hj | rfl
    · exact hdone j hj
    · exact hc
  cases hsrc : (B.moves t k).source with
  | none =>
    refine ⟨t, rfl, hgt, hgoodt, hstay fun a ha => ?_⟩
    rw [src, hsrc] at ha
    cases ha
  | some a =>
    cases ha : isConstant a with
    | true =>
      refine ⟨t, by simp [ha], hgt, hgoodt, hstay fun b hb => ?_⟩
      rw [src, hsrc, Option.some_inj] at hb
      rw [← hb, ha]
    | false =>
      obtain ⟨u, hu, hgu, hgone, hprog, hgoodu⟩ := hperf t k a hgt hgoodt hk hsrc ha
        fun j hj => (hdone j hj).settled hconst
      refine ⟨u, by simp [ha, hu], hgu, hgoodu, fun j hj b hb => ?_⟩
      rcases Nat.lt_succ_iff_lt_or_eq.1 hj with hj | rfl
      · rcases hprog.settled j ((hdone j hj).settled hconst) with h' | h'
        · exact hdone j hj b (h' ▸ hb)
        · rw [h'] at hb
          cases hb
      · rw [hgone] at hb
        cases hb

include hconst in
theorem emitConstants_spec {emitMove : S → Nat → S} {s : S}
    (hmoves : ∀ s i, B.moves (emitMove s i) = update (B.moves s) i eliminated)
    (hemit : ∀ s i a, G s → i < count → B.moves s i = ⟨some a, some (d i)⟩ → isConstant a = true →
      (∀ j < count, src (B.moves s) j ≠ some (d i)) → G (emitMove s i))
    (hgraph : Graph count s₀ d (B.moves s) []) (hgood : G s)
    (hleft : ∀ j < count, OnlyConstants isConstant (B.moves s) j) :
    G (emitConstants B emitMove count s) ∧
      ∀ j < count, src (B.moves (emitConstants B emitMove count s)) j = none := by
  have hdest : ∀ j < count, src (B.moves s) j = none ∨ (B.moves s j).destination = some (d j) := by
    intro j hj
    have := hgraph.dest j hj
    grind -linarith
  suffices h : ∀ n ≤ count, ∀ t, t = (List.range n).foldl
      (fun s i => if (B.moves s i).isEliminated then s else emitMove s i) s →
      G t ∧ (∀ j < n, src (B.moves t) j = none) ∧ (∀ j, n ≤ j → B.moves t j = B.moves s j) by
    obtain ⟨h1, h2, -⟩ := h count le_rfl _ rfl
    exact ⟨h1, h2⟩
  intro n
  induction n with
  | zero =>
    grind -linarith
  | succ n ih =>
    rintro hn t rfl
    obtain ⟨hgt, hgone, hrest⟩ := ih (by omega) _ rfl
    rw [range_succ, foldl_append]
    set t := (List.range n).foldl (fun s i => if (B.moves s i).isEliminated then s else emitMove s i) s
    simp only [foldl_cons, foldl_nil]
    have hsame := hrest n le_rfl
    cases hsrc : (B.moves t n).source with
    | none =>
      rw [if_pos (by simp [isEliminated, hsrc])]
      refine ⟨hgt, fun j hj => ?_, fun j hj => hrest j (by omega)⟩
      rcases Nat.lt_succ_iff_lt_or_eq.1 hj with hj | rfl
      · exact hgone j hj
      · exact hsrc
    | some a =>
      rw [if_neg (by simp [isEliminated, hsrc])]
      have hmove : B.moves t n = ⟨some a, some (d n)⟩ := by
        have hd' : (B.moves t n).destination = some (d n) := by
          rcases hdest n (by omega) with h0 | h0
          · rw [src, ← hsame, hsrc] at h0
            cases h0
          · rw [hsame, h0]
        rw [← hsrc, ← hd']
      have hconstant : isConstant a = true := hleft n (by omega) a (by rw [src, ← hsame, hsrc])
      -- What is still to be loaded are constants, which no destination is.
      have hfree : ∀ j < count, src (B.moves t) j ≠ some (d n) := by
        intro j hj hb
        rcases lt_or_ge j n with hjn | hjn
        · rw [hgone j hjn] at hb
          cases hb
        · have := hleft j hj (d n) (by rw [src, ← hrest j hjn]; exact hb)
          grind -linarith
      refine ⟨hemit t n a hgt (by omega) hmove hconstant hfree, fun j hj => ?_, fun j hj => ?_⟩
      · rw [hmoves, src_eliminated]
        grind -linarith
      · rw [hmoves, update_of_ne (by omega), hrest j (by omega)]

end Loops

/-! ## Ports that swap -/

/-- The three ways in which the end of `PerformMove` can go: swaps have completed the root, or the
root still blocks the move, or nothing does. -/
theorem finishBySwap_cases [DecidableEq Op] {moves : S → Nat → MoveOperands Op}
    {setDestination : S → Nat → Option Op → S} {removeMove emitSwap emitMove : S → Nat → S} {count : Nat}
    {s₀ d : Nat → Op} (hd : ∀ i < count, ∀ j < count, d i = d j → i = j)
    (hmoves : ∀ s i o, moves (setDestination s i o) = update (moves s) i ⟨(moves s i).source, o⟩)
    {s : S} {i : Nat} {stack : List Nat} (hgraph : Graph count s₀ d (moves s) (i :: stack))
    (hblockers : ∀ j < count, j ∉ i :: stack → src (moves s) j ≠ some (d i)) :
    (stack = [] ∧ src (moves s) i = some (d i) ∧
      finishBySwap moves removeMove emitSwap emitMove count (setDestination s i (some (d i))) i =
        removeMove (setDestination s i (some (d i))) i) ∨
    (∃ p r, stack.head? = some p ∧ stack.getLast? = some r ∧ src (moves s) r = some (d i) ∧
      finishBySwap moves removeMove emitSwap emitMove count (setDestination s i (some (d i))) i =
        emitSwap (setDestination s i (some (d i))) i) ∨
    ((∀ j < count, src (moves s) j ≠ some (d i)) ∧
      finishBySwap moves removeMove emitSwap emitMove count (setDestination s i (some (d i))) i =
        emitMove (setDestination s i (some (d i))) i) := by
  have hi : i < count := hgraph.lt i (by simp)
  have hmv := hmoves s i (some (d i))
  set s' := setDestination s i (some (d i))
  have hsrc : src (moves s') = src (moves s) := by rw [hmv, src_setDestination]
  have hmi : moves s' i = ⟨src (moves s) i, some (d i)⟩ := by
    rw [hmv, update_self]
    rfl
  unfold finishBySwap
  simp only [hmi]
  split_ifs with hself hblocked
  · refine .inl ⟨?_, hself, rfl⟩
    cases stack with
    | nil => rfl
    | cons p rest =>
      have hp := (hgraph.reads (p := p) rfl).1
      rw [hself, Option.some_inj] at hp
      have := hd i hi p (hgraph.lt p (by simp)) hp
      exact absurd (by simp [this]) hgraph.not_mem
  · obtain ⟨j, hj, hb⟩ := any_eq_true.1 hblocked
    have hj : j < count := by simpa using hj
    rw [blocks_iff] at hb
    have hb : src (moves s) j = some (d i) := by rw [← hsrc]; exact hb
    have hjin : j ∈ i :: stack := by
      by_contra hn
      exact hblockers j hj hn hb
    rcases mem_cons.1 hjin with rfl | hjs
    · exact absurd hb hself
    · cases stack with
      | nil => cases hjs
      | cons p rest => exact .inr (.inl ⟨p, j, rfl, hgraph.blocker_root hd hjs hb, hb, rfl⟩)
  · refine .inr (.inr ⟨fun j hj hb => hblocked ?_, rfl⟩)
    rw [← hsrc] at hb
    exact any_eq_true.2 ⟨j, by simpa using hj, by rw [blocks_iff]; exact hb⟩

/-- What a port that resolves cycles by swaps has to guarantee. A swap is emitted for a move of a
cycle whose source is the destination of the move below it on the stack, and whose destination the
root reads. -/
structure SwapLaw (moves : S → Nat → MoveOperands Op) (setDestination : S → Nat → Option Op → S)
    (removeMove emitSwap emitMove : S → Nat → S) [DecidableEq Op] (count : Nat) (s₀ d : Nat → Op)
    (Good : S → Prop) : Prop where
  moves_setDestination : ∀ s i o, moves (setDestination s i o) = update (moves s) i ⟨(moves s i).source, o⟩
  good_setDestination : ∀ s i o, Good s → Good (setDestination s i o)
  moves_removeMove : ∀ s i, moves (removeMove s i) = update (moves s) i eliminated
  good_removeMove : ∀ s i, Good s → i < count → moves s i = ⟨some (d i), some (d i)⟩ → Good (removeMove s i)
  moves_emitMove : ∀ s i, moves (emitMove s i) = update (moves s) i eliminated
  good_emitMove : ∀ s i a, Good s → i < count → moves s i = ⟨some a, some (d i)⟩ →
    (∀ j < count, src (moves s) j ≠ some (d i)) → Good (emitMove s i)
  moves_emitSwap : ∀ s i, moves (emitSwap s i) =
    renameSources (moves s i).source (moves s i).destination (update (moves s) i eliminated)
  good_emitSwap : ∀ s i p, Good s → i < count → p < count → p ≠ i → src (moves s) p ≠ none →
    moves s i = ⟨some (d p), some (d i)⟩ → s₀ i = d p → LaterInCycle s₀ d count i →
    (∃ r < count, r ≠ i ∧ src (moves s) r = some (d i) ∧ ∃ q < count, q ≠ p ∧ s₀ r = d q) → Good (emitSwap s i)

section SwapPort

variable [DecidableEq Op] {moves : S → Nat → MoveOperands Op} {setDestination : S → Nat → Option Op → S}
  {removeMove emitSwap emitMove : S → Nat → S} {count : Nat} {s₀ d : Nat → Op} {Good : S → Prop}
  (law : SwapLaw moves setDestination removeMove emitSwap emitMove count s₀ d Good)
  (hd : ∀ i < count, ∀ j < count, d i = d j → i = j)
include law

theorem SwapLaw.moves_eliminated (s : S) (i : Nat) :
    update (moves (setDestination s i (some (d i)))) i eliminated = update (moves s) i eliminated := by
  rw [law.moves_setDestination, update_idem]

theorem SwapLaw.moves_swapped {s : S} {i p : Nat} (hip : src (moves s) i = some (d p)) :
    moves (emitSwap (setDestination s i (some (d i))) i) =
      renameSources (some (d p)) (some (d i)) (update (moves s) i eliminated) := by
  rw [law.moves_emitSwap, law.moves_eliminated, law.moves_setDestination, update_self]
  unfold src at hip
  rw [hip]

include hd

theorem SwapLaw.lawful : Lawful ⟨moves, setDestination, finishBySwap moves removeMove emitSwap emitMove count⟩
    count s₀ d (fun _ => Good) where
  moves_setDestination := law.moves_setDestination
  good_push s i _ _ hgood _ _ := law.good_setDestination s i none hgood
  finish := by
    intro s i stack hgraph hgood hblockers
    have hi : i < count := hgraph.lt i (by simp)
    have hgood' := law.good_setDestination s i (some (d i)) hgood
    have hmi : moves (setDestination s i (some (d i))) i = ⟨src (moves s) i, some (d i)⟩ := by
      rw [law.moves_setDestination, update_self]
      rfl
    have hsrc : src (moves (setDestination s i (some (d i)))) = src (moves s) := by
      rw [law.moves_setDestination, src_setDestination]
    dsimp only at hgraph hblockers ⊢
    rcases finishBySwap_cases hd law.moves_setDestination hgraph hblockers with
      ⟨rfl, hself, he⟩ | ⟨p, r, hp, hr, hb, he⟩ | ⟨hfree, he⟩
    · rw [he, law.moves_removeMove, law.moves_eliminated]
      exact ⟨hgraph.pop fun r hr => by simp at hr, by rw [src_eliminated, if_pos rfl], .pop,
        law.good_removeMove _ i hgood' hi (by rw [hmi, hself])⟩
    · obtain ⟨hip, horig⟩ := hgraph.reads hp
      have hpin : p ∈ stack := mem_of_mem_head? hp
      have hrin : r ∈ stack := mem_of_getLast? hr
      rw [he, law.moves_swapped hip]
      refine ⟨hgraph.swap hd hp hr hb hblockers, ?_, .swap hgraph hd hp hr hb hblockers, ?_⟩
      · rw [hgraph.src_swap hd hp hr hb hblockers hi, if_pos rfl]
      · refine law.good_emitSwap _ i p hgood' hi (hgraph.lt p (mem_cons_of_mem _ hpin))
          (fun e => hgraph.not_mem (e ▸ hpin)) ?_ (by rw [hmi, hip]) horig (hgraph.laterInCycle hd hr hb)
          ⟨r, hgraph.lt r (mem_cons_of_mem _ hrin), fun e => hgraph.not_mem (e ▸ hrin), by rw [hsrc, hb],
            hgraph.root_source hd hr hb hpin⟩
        rw [hsrc]
        exact hgraph.live p (mem_cons_of_mem _ hpin)
    · obtain ⟨a, ha⟩ := Option.ne_none_iff_exists'.1 (hgraph.live i (by simp))
      rw [he, law.moves_emitMove, law.moves_eliminated]
      refine ⟨hgraph.pop fun r hr => .inl ?_, by rw [src_eliminated, if_pos rfl], .pop,
        law.good_emitMove _ i a hgood' hi (by rw [hmi, ha]) (by rwa [hsrc])⟩
      exact hfree r (hgraph.lt r (mem_cons_of_mem _ (mem_of_getLast? hr)))

/-- `Resolve` ends with every move performed. -/
theorem SwapLaw.resolve_spec (isConstant : Op → Bool) (hconst : ∀ i < count, isConstant (d i) = false) {s : S}
    (hgood : Good s) (hinit : ∀ i < count, moves s i = ⟨some (s₀ i), some (d i)⟩) :
    let B : Port S Op := ⟨moves, setDestination, finishBySwap moves removeMove emitSwap emitMove count⟩
    ∃ t, performMoves B isConstant (performMove B count count) count s = some t ∧
      Good (emitConstants B emitMove count t) ∧
      ∀ j < count, src (moves (emitConstants B emitMove count t)) j = none := by
  intro B
  have hgraph : Graph count s₀ d (B.moves s) [] := .init hinit
  obtain ⟨t, ht, hgt, hgoodt, hleft⟩ := performMoves_spec (B := B) (G := Good) hconst
    (fun s i a hg hgood hi ha _ hbelow => (law.lawful hd).performMove_spec hd count s i [] hg
      (law.good_setDestination s i none hgood) hi (by simp) (by rw [ha]; simp) (fun p hp => by cases hp)
      (fun _ => hbelow) (by simp)) hgraph hgood
  exact ⟨t, ht, emitConstants_spec hconst law.moves_emitMove
    (fun s i a hg hi hm _ hf => law.good_emitMove s i a hg hi hm hf) hgt hgoodt hleft⟩

end SwapPort

end W16.GapResolver
