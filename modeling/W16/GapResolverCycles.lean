import W16.GapResolverRun

/-!
# The cycles that are swapped

A port that resolves cycles by swaps swaps the operands of exactly the moves that lie on a
cycle and are not the first of it: such a move can never be performed in another way.
-/
namespace W16.GapResolver

open MoveOperands Function List

variable {S Op : Type} {count : Nat} {s₀ d : Nat → Op} {mv : Nat → MoveOperands Op} {stack cycle : List Nat}

/-- A cycle of different moves of the list. -/
structure Closed (count : Nat) (s₀ d : Nat → Op) (cycle : List Nat) : Prop where
  isCycle : IsCycle s₀ d cycle
  nodup : cycle.Nodup
  lt : ∀ j ∈ cycle, j < count

/-- A set of moves that leads nowhere else. -/
def Stable (count : Nat) (s₀ d : Nat → Op) (X : Nat → Prop) : Prop :=
  ∀ j p, X j → p < count → s₀ j = d p → X p

theorem chain_subset {X : Nat → Prop} (hX : Stable count s₀ d X) {l : List Nat} {x : Nat} (hx : X x)
    (hlt : ∀ j ∈ l, j < count) (hchain : (x :: l).IsChain fun c p => s₀ c = d p) : ∀ j ∈ l, X j := by
  induction l generalizing x with
  | nil => simp
  | cons y rest ih =>
    obtain ⟨hxy, hrest⟩ := isChain_cons_cons.1 hchain
    have hy : X y := hX x y hx (hlt y (by simp)) hxy
    intro j hj
    rcases mem_cons.1 hj with rfl | hj
    · exact hy
    · grind

/-- A set that leads nowhere else and meets a cycle contains it. -/
theorem Closed.subset (h : Closed count s₀ d cycle) {X : Nat → Prop} (hX : Stable count s₀ d X) {x : Nat}
    (hx : X x) (hmem : x ∈ cycle) : ∀ j ∈ cycle, X j := by
  obtain ⟨before, after, rfl⟩ := append_of_mem hmem
  obtain ⟨hchain, head, last, hhead, hlast, hclose⟩ := h.isCycle
  have hafter : ∀ j ∈ after, X j := chain_subset hX hx (fun j hj => h.lt j (by simp [hj]))
    (isChain_append.1 hchain).2.1
  have hlastX : X last := by
    rw [getLast?_append_of_ne_nil _ (by simp)] at hlast
    rcases mem_cons.1 (mem_of_getLast? hlast) with rfl | hl
    · exact hx
    · exact hafter last hl
  have hheadX : X head := hX last head hlastX (h.lt head (mem_of_mem_head? hhead)) hclose
  intro j hj
  cases hb : before ++ x :: after with
  | nil => simp at hb
  | cons y rest =>
    rw [hb] at hj hchain hhead
    obtain rfl : y = head := by simpa using hhead
    rcases mem_cons.1 hj with rfl | hj
    · exact hheadX
    · exact chain_subset hX hheadX (fun j hj => h.lt j (by rw [hb]; exact mem_cons_of_mem _ hj)) hchain j hj

/-- Every move of a cycle reads the destination of one of its moves. -/
theorem Closed.next (h : Closed count s₀ d cycle) {j : Nat} (hj : j ∈ cycle) : ∃ p ∈ cycle, s₀ j = d p := by
  obtain ⟨before, after, rfl⟩ := append_of_mem hj
  obtain ⟨hchain, head, last, hhead, hlast, hclose⟩ := h.isCycle
  cases after with
  | nil =>
    obtain rfl : j = last := by simpa using hlast
    exact ⟨head, mem_of_mem_head? hhead, hclose⟩
  | cons p rest =>
    exact ⟨p, by simp, (isChain_cons_cons.1 (isChain_append.1 hchain).2.1).1⟩

/-- The destination of every move of a cycle is read by one of its moves. -/
theorem Closed.prev (h : Closed count s₀ d cycle) {j : Nat} (hj : j ∈ cycle) : ∃ c ∈ cycle, s₀ c = d j := by
  obtain ⟨before, after, rfl⟩ := append_of_mem hj
  obtain ⟨hchain, head, last, hhead, hlast, hclose⟩ := h.isCycle
  rcases eq_nil_or_concat before with rfl | ⟨init, c, rfl⟩
  · grind
  · have := (isChain_append.1 hchain).2.2 c (by simp) j (by simp)
    exact ⟨c, by simp, this⟩

theorem Closed.stable (h : Closed count s₀ d cycle) (hd : ∀ i < count, ∀ j < count, d i = d j → i = j) :
    Stable count s₀ d (· ∈ cycle) := by
  intro j p hj hp he
  obtain ⟨q, hq, hq'⟩ := h.next hj
  rwa [hd p hp q (h.lt q hq) (he.symm.trans hq')]

/-- How far the traversal has come with a cycle: it has not met it, or it is done with it, or swaps
have moved the source of the root along it and the moves that are left are on the stack. -/
inductive Phase (s₀ d : Nat → Op) (mv : Nat → MoveOperands Op) (stack cycle : List Nat) : Prop
  | fresh : (∀ j ∈ cycle, src mv j = some (s₀ j)) → Phase s₀ d mv stack cycle
  | gone : (∀ j ∈ cycle, src mv j = none) → Phase s₀ d mv stack cycle
  | active (above rest : List Nat) (root head : Nat) : stack = above ++ rest → (∀ j ∈ above, j ∉ cycle) →
      rest.head? = some head → head ∈ cycle → stack.getLast? = some root → src mv root = some (d head) →
      root ∈ cycle → (∀ k ∈ cycle, root ≤ k) → (∀ j ∈ cycle, j ∉ rest → src mv j = none) →
      Phase s₀ d mv stack cycle

/-- The moves of the cycle that are done were swapped, but for the first. -/
structure Swapped (s₀ d : Nat → Op) (mv : Nat → MoveOperands Op) (swaps stack cycle : List Nat) : Prop where
  phase : Phase s₀ d mv stack cycle
  done : ∀ j ∈ cycle, src mv j = none → j ∈ swaps ∨ ∀ k ∈ cycle, j ≤ k

theorem Phase.congr {mv' : Nat → MoveOperands Op} (h : Phase s₀ d mv stack cycle) (hs : src mv' = src mv) :
    Phase s₀ d mv' stack cycle := by
  cases h with
  | fresh h => exact .fresh (by rwa [hs])
  | gone h => exact .gone (by rwa [hs])
  | active above rest root head he ha hh hc hr hsrc hrc hmin hnone =>
    exact .active above rest root head he ha hh hc hr (by rwa [hs]) hrc hmin (by rwa [hs])

theorem Phase.push {i : Nat} (h : Phase s₀ d mv stack cycle) (hlive : src mv i ≠ none) (hn : i ∉ stack) :
    Phase s₀ d mv (i :: stack) cycle := by
  cases h with
  | fresh h => exact .fresh h
  | gone h => exact .gone h
  | active above rest root head he ha hh hc hr hsrc hrc hmin hnone =>
    refine .active (i :: above) rest root head (by rw [he]; rfl) ?_ hh hc (Graph.root_tail hr) hsrc hrc hmin hnone
    grind

section Finish

variable {i : Nat} (hcycle : Closed count s₀ d cycle) (hd : ∀ i < count, ∀ j < count, d i = d j → i = j)
  (hself : ∀ j < count, s₀ j ≠ d j) (hgraph : Graph count s₀ d mv (i :: stack))
  (h : Phase s₀ d mv (i :: stack) cycle)
include hcycle hgraph h

/-- A move that nothing blocks is on no cycle. -/
theorem Phase.move (hfree : ∀ j < count, src mv j ≠ some (d i)) :
    i ∉ cycle ∧ Phase s₀ d (update mv i eliminated) stack cycle := by
  have hs := src_eliminated mv i
  have hkeep : ∀ {o : Nat → Option Op}, i ∉ cycle → (∀ j ∈ cycle, src mv j = o j) →
      ∀ j ∈ cycle, src (update mv i eliminated) j = o j := by
    grind
  cases h with
  | fresh h =>
    have hi : i ∉ cycle := by
      intro hi
      obtain ⟨c, hc, he⟩ := hcycle.prev hi
      exact hfree c (hcycle.lt c hc) (by rw [h c hc, he])
    exact ⟨hi, .fresh (hkeep hi h)⟩
  | gone h =>
    have hi : i ∉ cycle := fun hi => hgraph.live i (by simp) (h i hi)
    exact ⟨hi, .gone (hkeep hi h)⟩
  | active above rest root head he ha hh hc hr hsrc hrc hmin hnone =>
    cases above with
    | nil =>
      obtain rfl : i = head := by
        grind
      exact absurd hsrc (hfree root (hcycle.lt root hrc))
    | cons a above =>
      obtain ⟨rfl, hrest⟩ := List.cons.inj he
      have hi : i ∉ cycle := ha i (by simp)
      have hri : root ≠ i := fun e => hi (e ▸ hrc)
      have hr' : stack.getLast? = some root := by
        cases stack with
        | nil => exact absurd (by simpa using hr.symm) hri
        | cons p rest => simpa using hr
      refine ⟨hi, .active above rest root head hrest (fun j hj => ha j (mem_cons_of_mem _ hj)) hh hc hr' ?_ hrc
        hmin fun j hj hn => ?_⟩
      · rw [hs, if_neg hri, hsrc]
      · rw [hs, hnone j hj hn, ite_self]

include hself

omit hcycle in
/-- A root that swaps have completed is the first move of its cycle. -/
theorem Phase.remove (hroot : stack = []) (hi : src mv i = some (d i)) :
    (i ∈ cycle → ∀ k ∈ cycle, i ≤ k) ∧ Phase s₀ d (update mv i eliminated) stack cycle := by
  have hs := src_eliminated mv i
  have hlt : i < count := hgraph.lt i (by simp)
  subst hroot
  cases h with
  | fresh h =>
    have hic : i ∉ cycle := by
      grind
    refine ⟨fun hc => absurd hc hic, .fresh fun j hj => ?_⟩
    grind
  | gone h =>
    refine ⟨fun hic => absurd (h i hic) (hgraph.live i (by simp)), .gone fun j hj => ?_⟩
    rw [hs, h j hj, ite_self]
  | active above rest root head he ha hh hc hr hsrc hrc hmin hnone =>
    obtain rfl : i = root := by simpa using hr
    refine ⟨fun _ => hmin, .gone fun j hj => ?_⟩
    rw [hs]
    split_ifs with hji
    · rfl
    · refine hnone j hj fun hjr => hji ?_
      have : j ∈ [i] := by
        rw [he]
        exact mem_append_right _ hjr
      simpa using this

include hd

/-- A swap takes the next move of the cycle off the stack. -/
theorem Phase.swap [DecidableEq Op] {p r : Nat} (hp : stack.head? = some p) (hr : stack.getLast? = some r)
    (hsrc : src mv r = some (d i)) (hblockers : ∀ j < count, j ∉ i :: stack → src mv j ≠ some (d i)) :
    Phase s₀ d (renameSources (some (d p)) (some (d i)) (update mv i eliminated)) stack cycle := by
  have hs := fun j hj => hgraph.src_swap hd hp hr hsrc hblockers (j := j) hj
  have hi : i < count := hgraph.lt i (by simp)
  have hpin : p ∈ stack := mem_of_mem_head? hp
  have hrin : r ∈ stack := mem_of_getLast? hr
  have hri : r ≠ i := fun e => hgraph.not_mem (e ▸ hrin)
  have hplt : p < count := hgraph.lt p (mem_cons_of_mem _ hpin)
  have hrlt : r < count := hgraph.lt r (mem_cons_of_mem _ hrin)
  have horig := (hgraph.reads hp).2
  have hstable := hcycle.stable hd
  have hroot : src (renameSources (some (d p)) (some (d i)) (update mv i eliminated)) r = some (d p) := by
    rw [hs r hrlt, if_neg hri, if_pos rfl]
  have hnone : ∀ j ∈ cycle, src mv j = none →
      src (renameSources (some (d p)) (some (d i)) (update mv i eliminated)) j = none := by
    intro j hj h0
    rw [src_renameSources, src_eliminated, h0]
    simp
  cases h with
  | fresh h =>
    by_cases hic : i ∈ cycle
    · -- The traversal has gone once around the cycle.
      obtain ⟨c, hc, hce⟩ := hcycle.prev hic
      have hcsrc : src mv c = some (d i) := by rw [h c hc, hce]
      have hci : c ≠ i := fun e => hself i hi (e ▸ hce)
      have hcs : c ∈ stack := by
        by_contra hn
        exact hblockers c (hcycle.lt c hc) (by simp [hci, hn]) hcsrc
      obtain rfl : r = c := by
        have := hgraph.blocker_root hd hcs hcsrc
        rw [hr] at this
        simpa using this
      have hclos : Closed count s₀ d (i :: stack) :=
        ⟨⟨hgraph.chain.imp fun _ _ hcp => hcp.2, i, r, rfl, Graph.root_tail hr, hce⟩, hgraph.nodup, hgraph.lt⟩
      have hsub := hcycle.subset (hclos.stable hd) (x := i) (by simp) hic
      refine .active [] stack r p rfl (by simp) hp (hstable i p hic hplt horig) hr hroot hc ?_ fun j hj hn => ?_
      · exact fun k hk => (hgraph.root r (Graph.root_tail hr)).1 k (hsub k hk)
      grind
    · -- Another cycle is resolved, and the two share no move.
      obtain ⟨swapped, hc', hnd', hlt'⟩ := hgraph.cycle hd hr hsrc
      have hclos : Closed count s₀ d (swapped ++ i :: stack) := by
        refine ⟨hc', hnd', fun j hj => ?_⟩
        rcases mem_append.1 hj with hj | hj
        · exact (hlt' j hj).1
        · exact hgraph.lt j hj
      refine .fresh fun j hj => ?_
      have hji : j ≠ i := fun e => hic (e ▸ hj)
      have hjr : j ≠ r := by
        rintro rfl
        rw [h j hj, Option.some_inj] at hsrc
        exact hic (hstable j i hj hi hsrc)
      have hjp : src mv j ≠ some (d p) := by
        rw [h j hj, Ne, Option.some_inj]
        intro he
        have hpc := hstable j p hj hplt he
        exact hic (hclos.subset hstable hpc (by simp [hpin]) i (by simp))
      rw [hs j (hcycle.lt j hj), if_neg hji, if_neg hjr, if_neg hjp, h j hj]
  | gone h => exact .gone fun j hj => hnone j hj (h j hj)
  | active above rest root head he ha hh hc hr' hsrc' hrc hmin hrest =>
    obtain rfl : r = root := by
      rw [Graph.root_tail hr] at hr'
      simpa using hr'
    obtain rfl : i = head := by
      rw [hsrc, Option.some_inj] at hsrc'
      exact hd i hi head (hcycle.lt head hc) hsrc'
    cases above with
    | nil =>
      rw [nil_append] at he
      refine .active [] stack r p rfl (by simp) hp (hstable i p hc hplt horig) hr hroot hrc hmin fun j hj hn => ?_
      grind
    | cons a above =>
      grind

end Finish

/-! ## All of them are swapped -/

section SwapPort

variable [DecidableEq Op] {moves : S → Nat → MoveOperands Op} {setDestination : S → Nat → Option Op → S}
  {removeMove emitSwap emitMove : S → Nat → S} {Good : S → Prop} {swaps : S → List Nat}
  (law : SwapLaw moves setDestination removeMove emitSwap emitMove count s₀ d Good)
  (hd : ∀ i < count, ∀ j < count, d i = d j → i = j) (hself : ∀ j < count, s₀ j ≠ d j)
  (hset : ∀ s i o, swaps (setDestination s i o) = swaps s) (hremove : ∀ s i, swaps (removeMove s i) = swaps s)
  (hmove : ∀ s i, swaps (emitMove s i) = swaps s) (hswap : ∀ s i, swaps (emitSwap s i) = swaps s ++ [i])
include law hset

theorem SwapLaw.swapped_push {s : S} {i : Nat} (h : Swapped s₀ d (moves s) (swaps s) stack cycle)
    (hlive : src (moves s) i ≠ none) (hn : i ∉ stack) :
    Swapped s₀ d (moves (setDestination s i none)) (swaps (setDestination s i none)) (i :: stack) cycle := by
  have hsrc : src (moves (setDestination s i none)) = src (moves s) := by
    rw [law.moves_setDestination, src_setDestination]
  refine ⟨(h.phase.push hlive hn).congr hsrc, ?_⟩
  rw [hset, hsrc]
  exact h.done

include hd hself hremove hmove hswap

theorem SwapLaw.lawful_swapped (hcycle : Closed count s₀ d cycle) :
    Lawful ⟨moves, setDestination, finishBySwap moves removeMove emitSwap emitMove count⟩ count s₀ d
      fun stack s => Good s ∧ Swapped s₀ d (moves s) (swaps s) stack cycle where
  moves_setDestination := law.moves_setDestination
  good_push s i p stack hgood hlive hn := ⟨law.good_setDestination s i none hgood.1,
    law.swapped_push hset hgood.2 hlive hn⟩
  finish := by
    intro s i stack hgraph hgood hblockers
    obtain ⟨h1, h2, h3, h4⟩ := (law.lawful hd).finish s i stack hgraph hgood.1 hblockers
    refine ⟨h1, h2, h3, h4, ?_⟩
    obtain ⟨-, hphase, hdone⟩ := hgood
    dsimp only at hgraph hblockers ⊢
    rcases finishBySwap_cases hd law.moves_setDestination hgraph hblockers with
      ⟨hroot, hi, he⟩ | ⟨p, r, hp, hr, hb, he⟩ | ⟨hfree, he⟩
    · obtain ⟨hfirst, hphase'⟩ := hphase.remove hself hgraph hroot hi
      rw [he, law.moves_removeMove, law.moves_eliminated, hremove, hset]
      refine ⟨hphase', fun j hj h0 => ?_⟩
      rw [src_eliminated] at h0
      grind
    · obtain ⟨hip, -⟩ := hgraph.reads hp
      rw [he, law.moves_swapped hip, hswap, hset]
      refine ⟨hphase.swap hcycle hd hself hgraph hp hr hb hblockers, fun j hj h0 => ?_⟩
      by_cases hji : j = i
      · exact .inl (by simp [hji])
      · have h0' : src (moves s) j = none := by
          rw [hgraph.src_swap hd hp hr hb hblockers (hcycle.lt j hj), if_neg hji] at h0
          split_ifs at h0
          exact h0
        grind
    · obtain ⟨hic, hphase'⟩ := hphase.move hcycle hgraph hfree
      rw [he, law.moves_emitMove, law.moves_eliminated, hmove, hset]
      refine ⟨hphase', fun j hj h0 => ?_⟩
      have hji : j ≠ i := fun e => hic (e ▸ hj)
      rw [src_eliminated, if_neg hji] at h0
      exact hdone j hj h0

/-- The first loop of `Resolve` swaps every move of a cycle but the first. -/
theorem SwapLaw.all_swapped {isConstant : Op → Bool} (hconst : ∀ i < count, isConstant (d i) = false) {s t : S}
    (hgood : Good s) (hinit : ∀ i < count, moves s i = ⟨some (s₀ i), some (d i)⟩)
    (hrun : performMoves ⟨moves, setDestination, finishBySwap moves removeMove emitSwap emitMove count⟩ isConstant
      (performMove ⟨moves, setDestination, finishBySwap moves removeMove emitSwap emitMove count⟩ count count)
      count s = some t) {i : Nat} (hi : LaterInCycle s₀ d count i) : i ∈ swaps t := by
  obtain ⟨cycle, root, hc, hlast, hic, hne, hnd, hlt⟩ := hi
  have hcycle : Closed count s₀ d cycle := ⟨hc, hnd, fun j hj => (hlt j hj).1⟩
  have hlaw := law.lawful_swapped hd hself hset hremove hmove hswap hcycle
  have hstart : Swapped s₀ d (moves s) (swaps s) [] cycle := by
    have hall : ∀ j ∈ cycle, src (moves s) j = some (s₀ j) := by
      intro j hj
      rw [src, hinit j (hcycle.lt j hj)]
    refine ⟨.fresh hall, fun j hj h0 => ?_⟩
    rw [hall j hj] at h0
    cases h0
  obtain ⟨t', ht', -, ⟨-, hphase, hdone⟩, hleft⟩ := performMoves_spec hconst
    (G := fun s => Good s ∧ Swapped s₀ d (moves s) (swaps s) [] cycle)
    (fun s i a hg hgood hi ha _ hbelow => hlaw.performMove_spec hd count s i [] hg
      ⟨law.good_setDestination s i none hgood.1, law.swapped_push hset hgood.2 (by rw [ha]; simp) (by simp)⟩
      hi (by simp) (by rw [ha]; simp) (fun p hp => by cases hp) (fun _ => hbelow) (by simp))
    (Graph.init hinit) ⟨hgood, hstart⟩
  obtain rfl : t = t' := Option.some_inj.1 (hrun.symm.trans ht')
  have hgone : src (moves t) i = none := by
    cases hphase with
    | fresh h =>
      obtain ⟨p, hp, he⟩ := hcycle.next hic
      have := hleft i (hcycle.lt i hic) (s₀ i) (h i hic)
      grind
    | gone h => exact h i hic
    | active above rest root head he ha hh =>
      grind
  grind

end SwapPort

end W16.GapResolver
