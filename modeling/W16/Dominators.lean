import W16.BlockIds
import W16.Dominance

/-!
# The dominator tree

`AssignDominators` visits the blocks in the order of their ids. The dominator of a
block is the common ancestor of its predecessors in the tree built so far, and for
a loop header its first predecessor. What it assigns dominates strictly.
-/
namespace W16.Hydrogen

open Relation NaturalLoop Dominance List Option Function

variable {β : Type} [DecidableEq β]

/-- The members `dominator_` and `dominated_blocks_` of all blocks. -/
structure DomTree (β : Type) where
  dominator : β → Option β
  dominatedBlocks : β → List β

/-- The position that `AddDominatedBlock` looks for. -/
def insertDominated (blocks : List β) (block : β) : List β → List β
  | [] => [block]
  | x :: rest =>
    if blockId blocks x < blockId blocks block then x :: insertDominated blocks block rest
    else block :: x :: rest

/-- Set the dominator of a block and add it to the dominated blocks. -/
def DomTree.setDominator (blocks : List β) (T : DomTree β) (block other : β) : DomTree β where
  dominator := Function.update T.dominator block (some other)
  dominatedBlocks := Function.update T.dominatedBlocks other
    (insertDominated blocks block (T.dominatedBlocks other))

def DomTree.removeDominated (T : DomTree β) (block other : β) : DomTree β :=
  { T with
    dominatedBlocks := Function.update T.dominatedBlocks other ((T.dominatedBlocks other).erase block) }

/-- The loop of `AssignCommonDominator`; the number bounds its rounds. -/
def commonDominator (blocks : List β) (T : DomTree β) : Nat → β → β → Option β
  | 0, _, _ => none
  | fuel + 1, first, second =>
    if first = second then some first
    else if blockId blocks first > blockId blocks second then do
      commonDominator blocks T fuel (← T.dominator first) second
    else do
      commonDominator blocks T fuel first (← T.dominator second)

def assignCommonDominator (blocks : List β) (block : β) (fuel : Nat) (T : DomTree β) (other : β) :
    Option (DomTree β) :=
  match T.dominator block with
  | none => some (T.setDominator blocks block other)
  | some dominator =>
    match T.dominator other with
    | none => some T
    | some _ => do
      let first ← commonDominator blocks T fuel dominator other
      if dominator ≠ first then
        some ((T.removeDominated block dominator).setDominator blocks block first)
      else some T

/-- One round of `AssignDominators`. -/
def assignDominator (G : HGraph β) (L : Loops β) (blocks : List β) (fuel : Nat) (T : DomTree β)
    (block : β) : Option (DomTree β) :=
  if L.isLoopHeader block then
    (G.predecessors block).head?.bind (assignCommonDominator blocks block fuel T)
  else (G.predecessors block).foldlM (assignCommonDominator blocks block fuel) T

def assignDominators (G : HGraph β) (L : Loops β) (blocks : List β) (fuel : Nat) : Option (DomTree β) :=
  blocks.foldlM (assignDominator G L blocks fuel) ⟨fun _ => none, fun _ => []⟩

variable {G : HGraph β} {loops blocks : List β} {L : Loops β} {T T' : DomTree β} {b c d h p s x y : β}

/-- The graph after `OrderBlocks`. Its blocks have no other predecessors. -/
structure Numbered (G : HGraph β) (loops : List β) (L : Loops β) (blocks : List β) : Prop where
  registered : Registered G loops L
  ordered : Ordered G loops blocks
  predecessors : ∀ b ∈ blocks, ∀ p ∈ G.predecessors b, p ∈ blocks

namespace Numbered

variable (N : Numbered G loops L blocks)

include N

omit [DecidableEq β] in
theorem reachable (b : β) : b ∈ blocks ↔ ReflTransGen G.Edge G.start b := N.ordered.reachable b

omit [DecidableEq β] in
theorem edge_iff : G.Edge p b ↔ p ∈ G.predecessors b := (N.registered.built.predecessors p b).symm

omit [DecidableEq β] in
/-- A block other than the start is reached by an edge that is not a back edge. -/
theorem exists_forward_pred (hb : b ∈ blocks) (hne : b ≠ G.start) :
    ∃ p ∈ blocks, Forward G.Edge (BackEdge G loops) p b := by
  rcases ((N.reachable b).1 hb).cases_tail with heq | ⟨p, hp, hedge⟩
  · exact absurd heq hne
  · by_cases hback : BackEdge G loops b p
    · obtain ⟨q, -, hfwd, hq⟩ := N.registered.built.reducible.exists_outer_pred hback.1
      exact ⟨q, (N.reachable q).2 hq, hfwd⟩
    · exact ⟨p, (N.reachable p).2 hp, hedge, hback⟩

omit [DecidableEq β] in
theorem forward_path [Finite β] (hb : b ∈ blocks) :
    ReflTransGen (Forward G.Edge (BackEdge G loops)) G.start b := by
  induction b using N.registered.built.reducible.wellFounded.induction with
  | _ b ih =>
    by_cases hne : b = G.start
    · rw [hne]
    · obtain ⟨p, hp, hfwd⟩ := N.exists_forward_pred hb hne
      exact (ih p hfwd hp).tail hfwd

theorem blockId_lt_of_path (hd : d ∈ blocks) (hpath : TransGen (Forward G.Edge (BackEdge G loops)) d b) :
    blockId blocks d < blockId blocks b ∧ b ∈ blocks := by
  have hnext : ∀ {p s}, p ∈ blocks → Forward G.Edge (BackEdge G loops) p s →
      blockId blocks p < blockId blocks s ∧ s ∈ blocks := fun hp hfwd =>
    ⟨N.ordered.blockId_lt N.registered.built hp hfwd,
      (N.reachable _).2 (((N.reachable _).1 hp).tail hfwd.1)⟩
  induction hpath with
  | single hfwd => exact hnext hd hfwd
  | tail _ hfwd ih =>
    grind

/-- A dominator is reachable and has a smaller id. -/
theorem blockId_lt_of_dominates [Finite β] (hdom : StrictlyDominates G.Edge G.start d b)
    (hb : b ∈ blocks) : d ∈ blocks ∧ blockId blocks d < blockId blocks b := by
  obtain ⟨hd, hpath⟩ := hdom.path (fun _ _ h => h.1) (N.forward_path hb)
  have hd : d ∈ blocks := (N.reachable d).2 (ReflTransGen.mono (fun _ _ h => h.1) _ _ hd)
  exact ⟨hd, (N.blockId_lt_of_path hd hpath).1⟩

omit [DecidableEq β] in
/-- The first predecessor of a loop header is outside of the loop. -/
theorem exists_preHeader (hloop : IsLoop G loops h) :
    ∃ p rest, G.predecessors h = p :: rest ∧ Forward G.Edge (BackEdge G loops) p h ∧ ¬G.InLoop loops h p := by
  obtain ⟨p, hout, hfwd, -⟩ := N.registered.built.reducible.exists_outer_pred hloop
  have hmem := N.edge_iff.1 hfwd.1
  rcases hpreds : G.predecessors h with _ | ⟨q, rest⟩
  · grind
  rw [hpreds, mem_cons] at hmem
  rcases hmem with rfl | hmem
  · exact ⟨p, rest, rfl, hfwd, hout⟩
  · exact absurd (.latch ⟨hloop, by simpa [hpreds] using hmem⟩) hout

omit [DecidableEq β] in
/-- The first predecessor of a loop header dominates the loop. -/
theorem preHeader_dominates (hloop : IsLoop G loops h) {rest : List β}
    (hpreds : G.predecessors h = p :: rest) (hc : G.InLoop loops h c) :
    StrictlyDominates G.Edge G.start p c := by
  obtain ⟨p', rest', hpreds', -, hout⟩ := N.exists_preHeader hloop
  obtain rfl : p' = p := by
    grind
  have hlatch : ∀ {q}, G.Edge q h → q ≠ p' → BackEdge G loops h q := by
    intro q hedge hq
    have hmem := N.edge_iff.1 hedge
    rw [hpreds] at hmem
    refine ⟨hloop, ?_⟩
    grind
  refine ⟨fun heq => hout (heq ▸ hc), fun hpath => ?_⟩
  -- a path that avoids the first predecessor stays outside of the loop
  suffices ∀ {x}, ReflTransGen (Avoiding G.Edge fun q _ => q = p') G.start x →
      ¬G.InLoop loops h x from this hpath hc
  intro x hpath
  induction hpath with
  | refl => exact N.registered.built.reducible.outside hloop
  | @tail y x _ hstep ih =>
    intro hx
    by_cases hxh : x = h
    · subst hxh
      exact ih (.latch (hlatch hstep.1 hstep.2))
    · exact ih (.pred hstep.1 hxh hx)

omit [DecidableEq β] in
/-- A loop header dominates its loop. -/
theorem header_dominates (hloop : IsLoop G loops h) (hc : G.InLoop loops h c) :
    Dominates G.Edge G.start h c := by
  by_cases hne : h = c
  · exact .inl hne
  refine .inr ⟨hne, fun hpath => ?_⟩
  -- a path that does not leave the header stays outside of the loop
  suffices ∀ {x}, ReflTransGen (Avoiding G.Edge fun q _ => q = h) G.start x →
      x = h ∨ ¬G.InLoop loops h x from (this hpath).elim (fun heq => hne heq.symm) fun hx => hx hc
  intro x hpath
  induction hpath with
  | refl => exact .inr (N.registered.built.reducible.outside hloop)
  | @tail y x _ hstep ih =>
    by_cases hxh : x = h
    · exact .inl hxh
    · exact .inr fun hx => ih.elim hstep.2 fun hy => hy (.pred hstep.1 hxh hx)

end Numbered

/-- The order that `OrderBlocks` leaves, for any graph: a block comes after its predecessors, but
a loop header only after the first, and dominates the others, whose edges are back edges. The
start is the only predecessor of a block that it goes to, unless that is a loop header. -/
structure Sequenced (G : HGraph β) (L : Loops β) (blocks : List β) : Prop where
  nodup : blocks.Nodup
  reachable : ∀ b, b ∈ blocks ↔ ReflTransGen G.Edge G.start b
  edges : ∀ b ∈ blocks, ∀ p, p ∈ G.predecessors b ↔ G.Edge p b
  predecessors : ∀ b ∈ blocks, ∀ p ∈ G.predecessors b, p ∈ blocks
  sorted : ∀ b ∈ blocks, L.isLoopHeader b = false → ∀ p ∈ G.predecessors b, blockId blocks p < blockId blocks b
  headers : ∀ h ∈ blocks, L.isLoopHeader h = true → ∃ p rest, G.predecessors h = p :: rest ∧
    blockId blocks p < blockId blocks h ∧ ∀ e ∈ rest, Dominates G.Edge G.start h e
  start : ∀ b ∈ blocks, L.isLoopHeader b = false → G.start ∈ G.predecessors b →
    ∀ p ∈ G.predecessors b, p = G.start

namespace Sequenced

variable (S : Sequenced G L blocks)

include S

/-- A block other than the start has a predecessor with a smaller id. -/
theorem exists_pred (hb : b ∈ blocks) (hne : b ≠ G.start) :
    ∃ p ∈ blocks, G.Edge p b ∧ blockId blocks p < blockId blocks b := by
  cases hhead : L.isLoopHeader b with
  | true =>
    obtain ⟨p, rest, hpreds, hlt, -⟩ := S.headers b hb hhead
    have hp : p ∈ G.predecessors b := hpreds ▸ mem_cons_self
    exact ⟨p, S.predecessors b hb p hp, (S.edges b hb p).1 hp, hlt⟩
  | false =>
    rcases ((S.reachable b).1 hb).cases_tail with heq | ⟨p, hp, hedge⟩
    · exact absurd heq hne
    · exact ⟨p, (S.reachable p).2 hp, hedge, S.sorted b hb hhead p ((S.edges b hb p).2 hedge)⟩

/-- The edges to a larger id. -/
def Upward (G : HGraph β) (blocks : List β) (p b : β) : Prop :=
  G.Edge p b ∧ blockId blocks p < blockId blocks b

theorem upward_path (hb : b ∈ blocks) : ReflTransGen (Upward G blocks) G.start b := by
  induction hn : blockId blocks b using Nat.strong_induction_on generalizing b with
  | _ n ih =>
    by_cases hne : b = G.start
    · rw [hne]
    · obtain ⟨p, hp, hedge, hlt⟩ := S.exists_pred hb hne
      exact (ih _ (hn ▸ hlt) hp rfl).tail ⟨hedge, hlt⟩

omit S in
theorem blockId_lt_of_upward (hpath : TransGen (Upward G blocks) d b) :
    blockId blocks d < blockId blocks b := by
  induction hpath with
  | single h => exact h.2
  | tail _ h ih => exact lt_trans ih h.2

/-- A dominator is reachable and has a smaller id. -/
theorem blockId_lt_of_dominates (hdom : StrictlyDominates G.Edge G.start d b) (hb : b ∈ blocks) :
    d ∈ blocks ∧ blockId blocks d < blockId blocks b := by
  obtain ⟨hd, hpath⟩ := hdom.path (fun _ _ h => h.1) (S.upward_path hb)
  exact ⟨(S.reachable d).2 (ReflTransGen.mono (fun _ _ h => h.1) _ _ hd), blockId_lt_of_upward hpath⟩

theorem dominates_trans (hb : Dominates G.Edge G.start d b) (hc : Dominates G.Edge G.start b c)
    (hmem : c ∈ blocks) : Dominates G.Edge G.start d c := by
  rcases hc with rfl | hc
  · exact hb
  rcases hb with rfl | hb
  · exact .inr hc
  · obtain ⟨hbmem, hlt⟩ := S.blockId_lt_of_dominates hc hmem
    have hlt' := (S.blockId_lt_of_dominates hb hbmem).2
    exact .inr (hb.trans hc (by rintro rfl; omega))

/-- The start has the smallest id, and so no predecessor. -/
theorem no_edge_to_start (hp : p ∈ blocks) : ¬G.Edge p G.start := by
  intro hedge
  have hstart : G.start ∈ blocks := (S.reachable _).2 .refl
  have hleast : ∀ {b}, b ∈ blocks → ¬blockId blocks b < blockId blocks G.start := by
    intro b hb hlt
    rcases reflTransGen_iff_eq_or_transGen.1 (S.upward_path hb) with rfl | hpath
    · exact lt_irrefl _ hlt
    · exact lt_asymm hlt (blockId_lt_of_upward hpath)
  have hpred := (S.edges _ hstart p).2 hedge
  cases hhead : L.isLoopHeader G.start with
  | true =>
    obtain ⟨q, rest, hpreds, hlt, -⟩ := S.headers _ hstart hhead
    exact hleast (S.predecessors _ hstart q (hpreds ▸ mem_cons_self)) hlt
  | false => exact hleast hp (S.sorted _ hstart hhead p hpred)

/-- The first predecessor of a loop header dominates it: the others are behind the header. -/
theorem first_dominates (hh : h ∈ blocks) (hhead : L.isLoopHeader h = true) {rest : List β}
    (hpreds : G.predecessors h = p :: rest) : StrictlyDominates G.Edge G.start p h := by
  obtain ⟨q, rest', hpreds', hlt, hback⟩ := S.headers h hh hhead
  obtain ⟨rfl, rfl⟩ := List.cons.inj (hpreds.symm.trans hpreds')
  have hne : h ≠ G.start := by
    rintro rfl
    exact S.no_edge_to_start (S.predecessors _ hh p (hpreds ▸ mem_cons_self))
      ((S.edges _ hh p).1 (hpreds ▸ mem_cons_self))
  refine ⟨fun heq => lt_irrefl _ (heq ▸ hlt), ?_⟩
  refine (Inevitable.of_first_visit hne fun e hedge => ?_)
  have he := (S.edges _ hh e).2 hedge
  rw [hpreds, mem_cons] at he
  rcases he with rfl | he
  · exact .inl (.inl rfl)
  · rcases hback e he with rfl | hdom
    · exact .inl (.inr rfl)
    · exact .inr hdom.2

end Sequenced

theorem mem_prefix_iff {done rest : List β} (hnodup : (done ++ rest).Nodup) :
    x ∈ done ↔ x ∈ done ++ rest ∧ blockId (done ++ rest) x < done.length := by
  have hnodup' : ([] ++ done ++ rest).Nodup := hnodup
  have := mem_segment_iff (x := x) hnodup'
  grind

/-- The tree while the predecessors `seen` of `b` have been visited, after the
blocks `done`. -/
structure Assigning (G : HGraph β) (T : DomTree β) (done : List β) (b : β) (seen : List β) : Prop where
  others : ∀ x d, x ≠ b → T.dominator x = some d → x ∈ done ∧ StrictlyDominates G.Edge G.start d x
  nearest : ∀ x d, x ≠ b → T.dominator x = some d →
    ∀ y, StrictlyDominates G.Edge G.start y x → Dominates G.Edge G.start y d
  assigned : ∀ x ∈ done, x ≠ G.start → ∃ d, T.dominator x = some d
  common : ∀ d, T.dominator b = some d → d ∈ done ∧ ∀ p ∈ seen, Dominates G.Edge G.start d p
  greatest : ∀ d, T.dominator b = some d →
    ∀ y, (∀ p ∈ seen, Dominates G.Edge G.start y p) → Dominates G.Edge G.start y d
  first : T.dominator b = none ↔ seen = []
  seen : ∀ p ∈ seen, p ∈ done
  children : ∀ x d, x ∈ T.dominatedBlocks d ↔ T.dominator x = some d
  nodup : ∀ d, (T.dominatedBlocks d).Nodup

/-- The tree after the blocks `done`. -/
structure Assigned (G : HGraph β) (T : DomTree β) (done : List β) : Prop where
  dominates : ∀ x d, T.dominator x = some d → x ∈ done ∧ StrictlyDominates G.Edge G.start d x
  nearest : ∀ x d, T.dominator x = some d →
    ∀ y, StrictlyDominates G.Edge G.start y x → Dominates G.Edge G.start y d
  assigned : ∀ x ∈ done, x ≠ G.start → ∃ d, T.dominator x = some d
  children : ∀ x d, x ∈ T.dominatedBlocks d ↔ T.dominator x = some d
  nodup : ∀ d, (T.dominatedBlocks d).Nodup

variable {done rest seen : List β}

theorem Sequenced.dominator_done (S : Sequenced G L blocks) (hblocks : blocks = done ++ rest)
    (hx : x ∈ done) (hdom : StrictlyDominates G.Edge G.start d x) :
    d ∈ done ∧ blockId blocks d < blockId blocks x := by
  have hnodup := S.nodup
  rw [hblocks] at hnodup
  have hx' := (mem_prefix_iff hnodup).1 hx
  rw [← hblocks] at hx'
  obtain ⟨hd, hlt⟩ := S.blockId_lt_of_dominates hdom hx'.1
  refine ⟨(mem_prefix_iff hnodup).2 ?_, hlt⟩
  grind

/-- The climb to the common dominator. -/
theorem Assigning.commonDominator (S : Sequenced G L blocks)
    (hblocks : blocks = done ++ rest) (hb : b ∉ done) (hT : Assigning G T done b seen)
    (hx : x ∈ done) (hy : y ∈ done) :
    ∃ c ∈ done, Returns (fun fuel => commonDominator blocks T fuel x y) c ∧
      Dominates G.Edge G.start c x ∧ Dominates G.Edge G.start c y ∧
      ∀ z, Dominates G.Edge G.start z x → Dominates G.Edge G.start z y → Dominates G.Edge G.start z c := by
  have hmem : ∀ {x}, x ∈ done → x ∈ blocks := fun hx => hblocks ▸ mem_append_left _ hx
  -- a block with a larger id than another one has a dominator
  have hup : ∀ {x y}, x ∈ done → y ∈ done → blockId blocks y < blockId blocks x →
      ∃ d ∈ done, T.dominator x = some d ∧ StrictlyDominates G.Edge G.start d x ∧
        blockId blocks d < blockId blocks x ∧
        ∀ z, Dominates G.Edge G.start z x → Dominates G.Edge G.start z y → Dominates G.Edge G.start z d := by
    intro x y hx hy hlt
    have hne : x ≠ G.start := by
      rintro rfl
      rcases start_dominates G.Edge G.start y with rfl | hdom
      · exact lt_irrefl _ hlt
      · exact lt_asymm hlt (S.blockId_lt_of_dominates hdom (hmem hy)).2
    obtain ⟨d, hd⟩ := hT.assigned x hx hne
    have hxb : x ≠ b := fun heq => hb (heq ▸ hx)
    have hdom := (hT.others x d hxb hd).2
    obtain ⟨hdone, hless⟩ := S.dominator_done hblocks hx hdom
    refine ⟨d, hdone, hd, hdom, hless, fun z hzx hzy => ?_⟩
    rcases hzx with rfl | hzx
    · -- a block does not dominate one with a smaller id
      rcases hzy with rfl | hzy
      · exact absurd hlt (lt_irrefl _)
      · exact absurd hlt (lt_asymm (S.blockId_lt_of_dominates hzy (hmem hy)).2)
    · exact hT.nearest x d hxb hd z hzx
  induction hn : blockId blocks x + blockId blocks y using Nat.strong_induction_on generalizing x y with
  | _ n ih =>
    by_cases hxy : x = y
    · subst hxy
      refine ⟨x, hx, ⟨1, fun fuel hfuel => ?_⟩, .inl rfl, .inl rfl, fun z hz _ => hz⟩
      obtain ⟨m, rfl⟩ := Nat.exists_eq_add_of_le' hfuel
      simp [Hydrogen.commonDominator]
    by_cases hlt : blockId blocks x > blockId blocks y
    · obtain ⟨d, hdone, hd, hdom, hless, hnear⟩ := hup hx hy hlt
      obtain ⟨c, hc, ⟨k, hk⟩, hcd, hcy, hgreatest⟩ := ih _ (by omega) hdone hy rfl
      refine ⟨c, hc, ⟨k + 1, fun fuel hfuel => ?_⟩, S.dominates_trans hcd (.inr hdom) (hmem hx), hcy,
        fun z hzx hzy => hgreatest z (hnear z hzx hzy) hzy⟩
      obtain ⟨m, rfl⟩ : ∃ m, fuel = m + 1 := ⟨fuel - 1, by omega⟩
      have hm := hk m (by omega)
      simpa [Hydrogen.commonDominator, hxy, hlt, hd] using hm
    · have hlt' : blockId blocks x < blockId blocks y := by
        have hne : blockId blocks x ≠ blockId blocks y := fun heq =>
          hxy ((idxOf_inj (hmem hx)).1 heq)
        omega
      obtain ⟨d, hdone, hd, hdom, hless, hnear⟩ := hup hy hx hlt'
      obtain ⟨c, hc, ⟨k, hk⟩, hcx, hcd, hgreatest⟩ := ih _ (by omega) hx hdone rfl
      refine ⟨c, hc, ⟨k + 1, fun fuel hfuel => ?_⟩, hcx, S.dominates_trans hcd (.inr hdom) (hmem hy),
        fun z hzx hzy => hgreatest z hzx (hnear z hzy hzx)⟩
      obtain ⟨m, rfl⟩ : ∃ m, fuel = m + 1 := ⟨fuel - 1, by omega⟩
      have hm := hk m (by omega)
      simpa [Hydrogen.commonDominator, hxy, hlt, hd] using hm

theorem mem_insertDominated {l : List β} : x ∈ insertDominated blocks b l ↔ x = b ∨ x ∈ l := by
  induction l with
  | nil => simp [insertDominated]
  | cons y l ih =>
    grind [insertDominated]

theorem nodup_insertDominated {l : List β} (hb : b ∉ l) (hl : l.Nodup) :
    (insertDominated blocks b l).Nodup := by
  induction l with
  | nil => simp [insertDominated]
  | cons y l ih =>
    obtain ⟨hy, hl⟩ := nodup_cons.1 hl
    rw [mem_cons, not_or] at hb
    rw [insertDominated]
    split
    · refine nodup_cons.2 ⟨?_, ih hb.2 hl⟩
      rw [mem_insertDominated]
      grind
    grind

/-- A tree without a place for `b`. -/
structure Detached (T : DomTree β) (b : β) : Prop where
  children : ∀ x d, x ∈ T.dominatedBlocks d ↔ x ≠ b ∧ T.dominator x = some d
  nodup : ∀ d, (T.dominatedBlocks d).Nodup

theorem Detached.setDominator_children (hT : Detached T b) (x d : β) :
    x ∈ (T.setDominator blocks b c).dominatedBlocks d ↔ (T.setDominator blocks b c).dominator x = some d := by
  simp only [DomTree.setDominator]
  by_cases hd : d = c
  · subst hd
    rw [update_self, mem_insertDominated, hT.children]
    grind
  · rw [update_of_ne hd, hT.children]
    grind

theorem Detached.setDominator_nodup (hT : Detached T b) (d : β) :
    ((T.setDominator blocks b c).dominatedBlocks d).Nodup := by
  simp only [DomTree.setDominator]
  by_cases hd : d = c
  · subst hd
    rw [update_self]
    exact nodup_insertDominated (fun hmem => ((hT.children b d).1 hmem).1 rfl) (hT.nodup d)
  · rw [update_of_ne hd]
    exact hT.nodup d

omit [DecidableEq β] in
theorem Assigning.detached (hT : Assigning G T done b seen) (hnone : T.dominator b = none) : Detached T b := by
  refine ⟨fun x d => ?_, hT.nodup⟩
  rw [hT.children]
  grind

theorem Assigning.detached_remove (hT : Assigning G T done b seen) (hd : T.dominator b = some d) :
    Detached (T.removeDominated b d) b := by
  refine ⟨fun x e => ?_, fun e => ?_⟩
  · simp only [DomTree.removeDominated]
    by_cases hed : e = d
    · subst hed
      rw [update_self, (hT.nodup e).mem_erase_iff, hT.children]
    · rw [update_of_ne hed, hT.children]
      grind
  · simp only [DomTree.removeDominated]
    by_cases hed : e = d
    · subst hed
      rw [update_self]
      exact (hT.nodup e).erase b
    · rw [update_of_ne hed]
      exact hT.nodup e

/-- Setting the dominator of `b` to a common dominator of its predecessors. -/
theorem Assigning.setDominator {T₀ : DomTree β} (hT : Assigning G T done b seen) (hb : b ∉ done)
    (hT₀ : Detached T₀ b) (hsame : T₀.dominator = T.dominator) (hc : c ∈ done) (hp : p ∈ done)
    (hcommon : ∀ q, q = p ∨ q ∈ seen → Dominates G.Edge G.start c q)
    (hgreatest : ∀ y, (∀ q ∈ p :: seen, Dominates G.Edge G.start y q) → Dominates G.Edge G.start y c) :
    Assigning G (T₀.setDominator blocks b c) done b (p :: seen) where
  others := by
    intro x d hx hd
    simp only [DomTree.setDominator, update_of_ne hx, hsame] at hd
    exact hT.others x d hx hd
  nearest := by
    intro x d hx hd
    simp only [DomTree.setDominator, update_of_ne hx, hsame] at hd
    exact hT.nearest x d hx hd
  assigned := by
    intro x hx hne
    have hxb : x ≠ b := fun heq => hb (heq ▸ hx)
    simp only [DomTree.setDominator, update_of_ne hxb, hsame]
    exact hT.assigned x hx hne
  common := by
    intro d hd
    simp only [DomTree.setDominator, update_self, Option.some.injEq] at hd
    grind
  greatest := by
    intro d hd
    simp only [DomTree.setDominator, update_self, Option.some.injEq] at hd
    subst hd
    exact hgreatest
  first := by simp [DomTree.setDominator]
  seen := by
    intro q hq
    rcases mem_cons.1 hq with rfl | hq
    · exact hp
    · exact hT.seen q hq
  children := hT₀.setDominator_children
  nodup := hT₀.setDominator_nodup

/-- One predecessor is visited. -/
theorem assignCommonDominator_assigning (S : Sequenced G L blocks)
    (hblocks : blocks = done ++ b :: rest) (hT : Assigning G T done b seen) (hp : p ∈ done)
    (hstart : p = G.start → ∀ q ∈ seen, q = G.start) :
    ∃ T', Returns (fun fuel => assignCommonDominator blocks b fuel T p) T' ∧
      Assigning G T' done b (p :: seen) := by
  have hmem : ∀ {x}, x ∈ done → x ∈ blocks := fun hx => hblocks ▸ mem_append_left _ hx
  have hb : b ∉ done := by
    have hnodup := S.nodup
    grind
  cases hd : T.dominator b with
  | none =>
    refine ⟨T.setDominator blocks b p, ⟨0, fun fuel _ => by simp [assignCommonDominator, hd]⟩, ?_⟩
    refine hT.setDominator hb (hT.detached hd) rfl hp hp ?_ fun y hy => hy p mem_cons_self
    rw [hT.first.1 hd]
    rintro q (rfl | hq)
    · exact .inl rfl
    · exact absurd hq not_mem_nil
  | some d =>
    obtain ⟨hdone, hcommon⟩ := hT.common d hd
    have hseen : seen ≠ [] := fun heq => by
      rw [hT.first.2 heq] at hd
      cases hd
    -- the tree stays when the dominator dominates the predecessor already
    have hkeep : Dominates G.Edge G.start d p → Assigning G T done b (p :: seen) := by
      intro hdom
      refine ⟨hT.others, hT.nearest, hT.assigned, ?_, ?_, by simp [hd], ?_, hT.children, hT.nodup⟩
      · grind
      · exact fun e he y hy => hT.greatest e he y fun q hq => hy q (mem_cons_of_mem p hq)
      · intro q hq
        rcases mem_cons.1 hq with rfl | hq
        · exact hp
        · exact hT.seen q hq
    cases hpd : T.dominator p with
    | none =>
      refine ⟨T, ⟨0, fun fuel _ => by simp [assignCommonDominator, hd, hpd]⟩, hkeep ?_⟩
      have hpstart : p = G.start := by
        by_contra hne
        obtain ⟨e, he⟩ := hT.assigned p hp hne
        rw [he] at hpd
        cases hpd
      -- the start is the only predecessor so far, and so the dominator
      obtain ⟨q, hq⟩ := exists_mem_of_ne_nil seen hseen
      grind
    | some e =>
      obtain ⟨c, hc, ⟨k, hk⟩, hcd, hcp, hgreatest⟩ := hT.commonDominator S hblocks hb hdone hp
      by_cases hdc : d = c
      · subst hdc
        refine ⟨T, ⟨k, fun fuel hfuel => ?_⟩, hkeep hcp⟩
        have hclimb := hk fuel hfuel
        simp [assignCommonDominator, hd, hpd, hclimb]
      · refine ⟨(T.removeDominated b d).setDominator blocks b c, ⟨k, fun fuel hfuel => ?_⟩, ?_⟩
        · have hclimb := hk fuel hfuel
          simp [assignCommonDominator, hd, hpd, hclimb, hdc]
        · refine hT.setDominator hb (hT.detached_remove hd) rfl hc hp ?_ fun y hy => ?_
          · rintro q (rfl | hq)
            · exact hcp
            · exact S.dominates_trans hcd (hcommon q hq) (hmem (hT.seen q hq))
          · exact hgreatest y (hT.greatest d hd y fun q hq => hy q (mem_cons_of_mem p hq))
              (hy p mem_cons_self)

omit [DecidableEq β] in
theorem Assigned.assigning (hT : Assigned G T done) (hb : b ∉ done) : Assigning G T done b [] := by
  have hnone : T.dominator b = none := by
    cases hd : T.dominator b with
    | none => rfl
    | some d => exact absurd (hT.dominates b d hd).1 hb
  have hno : ∀ d, T.dominator b ≠ some d := by simp [hnone]
  exact ⟨fun x d _ => hT.dominates x d, fun x d _ => hT.nearest x d, hT.assigned,
    fun d hd => absurd hd (hno d), fun d hd => absurd hd (hno d), by simp [hnone], by simp,
    hT.children, hT.nodup⟩

omit [DecidableEq β] in
/-- The block is done when its dominator is known to dominate it. -/
theorem Assigning.assigned_append (hT : Assigning G T done b seen)
    (hdom : ∀ d, T.dominator b = some d → StrictlyDominates G.Edge G.start d b)
    (hseen : ∀ p ∈ seen, G.Edge p b) (hsome : b ≠ G.start → ∃ d, T.dominator b = some d) :
    Assigned G T (done ++ [b]) where
  dominates := by
    intro x d hd
    by_cases hx : x = b
    · subst hx
      exact ⟨by simp, hdom d hd⟩
    · obtain ⟨hdone, hdom⟩ := hT.others x d hx hd
      exact ⟨mem_append_left _ hdone, hdom⟩
  nearest := by
    intro x d hd y hy
    by_cases hx : x = b
    · subst hx
      exact hT.greatest d hd y fun p hp => hy.pred (hseen p hp)
    · exact hT.nearest x d hx hd y hy
  assigned := by
    intro x hx hne
    rcases mem_append.1 hx with hx | hx
    · exact hT.assigned x hx hne
    grind
  children := hT.children
  nodup := hT.nodup

/-- One block is visited. -/
theorem assignDominator_assigned (S : Sequenced G L blocks)
    (hblocks : blocks = done ++ b :: rest) (hT : Assigned G T done) :
    ∃ T', Returns (fun fuel => assignDominator G L blocks fuel T b) T' ∧ Assigned G T' (done ++ [b]) := by
  have hnodup := S.nodup
  rw [hblocks] at hnodup
  have hb : b ∉ done := fun h => (nodup_append.1 hnodup).2.2 b h b mem_cons_self rfl
  have hbmem : b ∈ blocks := by simp [hblocks]
  have hassigning := hT.assigning hb
  -- a predecessor with a smaller id is done
  have hpreds : ∀ p ∈ G.predecessors b, blockId blocks p < blockId blocks b → p ∈ done := by
    intro p hp hlt
    have hpmem := S.predecessors b hbmem p hp
    have hbid : blockId blocks b = done.length := by
      rw [blockId, hblocks, idxOf_append_of_notMem hb, idxOf_cons_self, add_zero]
    refine (mem_prefix_iff hnodup).2 ?_
    grind
  cases hhead : L.isLoopHeader b with
  | true =>
    obtain ⟨p, tail, htail, hlt, -⟩ := S.headers b hbmem hhead
    have hdom := S.first_dominates hbmem hhead htail
    have hp : p ∈ G.predecessors b := by simp [htail]
    obtain ⟨T', ⟨k, hk⟩, hT'⟩ := assignCommonDominator_assigning S hblocks hassigning
      (hpreds p hp hlt) (by simp)
    have hnone : T.dominator b = none := hassigning.first.2 rfl
    have hd : ∀ d, T'.dominator b = some d → d = p := by
      intro d hd
      have hT'eq : some T' = some (T.setDominator blocks b p) := by
        rw [← hk k (le_refl k)]
        simp [assignCommonDominator, hnone]
      rw [some.inj hT'eq] at hd
      simpa [DomTree.setDominator] using hd.symm
    refine ⟨T', ⟨k, fun fuel hfuel => ?_⟩, hT'.assigned_append ?_ ?_ ?_⟩
    · simpa [assignDominator, hhead, htail] using hk fuel hfuel
    · intro d hd'
      rw [hd d hd']
      exact hdom
    · intro q hq
      rw [mem_singleton.1 hq]
      exact (S.edges b hbmem p).1 hp
    · intro _
      exact ne_none_iff_exists'.1 (mt hT'.first.1 (by simp))
  | false =>
    have hdone : ∀ p ∈ G.predecessors b, p ∈ done :=
      fun p hp => hpreds p hp (S.sorted b hbmem hhead p hp)
    -- by induction on the predecessors that are left
    have hfold : ∀ (xs seen : List β) (T : DomTree β), G.predecessors b = seen.reverse ++ xs →
        Assigning G T done b seen →
        ∃ T', Returns (fun fuel => xs.foldlM (assignCommonDominator blocks b fuel) T) T' ∧
          Assigning G T' done b (G.predecessors b).reverse := by
      intro xs
      induction xs with
      | nil =>
        intro seen T hxs hT
        refine ⟨T, ⟨0, fun _ _ => rfl⟩, ?_⟩
        grind
      | cons p xs ih =>
        intro seen T hxs hT
        have hp : p ∈ G.predecessors b := by simp [hxs]
        have hstart : p = G.start → ∀ q ∈ seen, q = G.start := by
          intro heq q hq
          exact S.start b hbmem hhead (heq ▸ hp) q (by simp [hxs, hq])
        obtain ⟨T₁, hfirst, hT₁⟩ :=
          assignCommonDominator_assigning S hblocks hT (hdone p hp) hstart
        obtain ⟨T₂, hrest, hT₂⟩ := ih (p :: seen) T₁ (by simp [hxs]) hT₁
        exact ⟨T₂, hfirst.foldlM_cons hrest, hT₂⟩
    obtain ⟨T', ⟨k, hk⟩, hT'⟩ := hfold (G.predecessors b) [] T (by simp) hassigning
    refine ⟨T', ⟨k, fun fuel hfuel => ?_⟩, hT'.assigned_append ?_ ?_ ?_⟩
    · simpa [assignDominator, hhead] using hk fuel hfuel
    · intro d hd
      obtain ⟨hd', hcommon⟩ := hT'.common d hd
      have hstart : b ≠ G.start := by
        rintro rfl
        have hempty : (G.predecessors G.start).reverse = [] := by
          rw [reverse_eq_nil_iff, eq_nil_iff_forall_not_mem]
          intro p hp
          exact S.no_edge_to_start (S.predecessors _ hbmem p hp) ((S.edges _ hbmem p).1 hp)
        rw [hT'.first.2 hempty] at hd
        cases hd
      refine .of_preds (fun heq => hb (heq ▸ hd')) hstart fun p hedge => ?_
      exact hcommon p (mem_reverse.2 ((S.edges b hbmem p).2 hedge))
    · exact fun p hp => (S.edges b hbmem p).1 (mem_reverse.1 hp)
    · intro hne
      obtain ⟨p, -, hedge, -⟩ := S.exists_pred hbmem hne
      refine ne_none_iff_exists'.1 (mt hT'.first.1 fun hnil => ?_)
      have hp := (S.edges b hbmem p).2 hedge
      rw [reverse_eq_nil_iff.1 hnil] at hp
      exact absurd hp not_mem_nil

/-- `AssignDominators` returns a tree of strict dominators. -/
theorem Sequenced.assignDominators_assigned (S : Sequenced G L blocks) :
    ∃ T, Returns (assignDominators G L blocks) T ∧ Assigned G T blocks := by
  suffices ∀ (rest done : List β) (T : DomTree β), blocks = done ++ rest → Assigned G T done →
      ∃ T', Returns (fun fuel => rest.foldlM (assignDominator G L blocks fuel) T) T' ∧ Assigned G T' blocks from
    this blocks [] _ rfl ⟨by simp, by simp, by simp, by simp, by simp⟩
  intro rest
  induction rest with
  | nil =>
    intro done T hblocks hT
    rw [append_nil] at hblocks
    exact ⟨T, ⟨0, fun _ _ => rfl⟩, hblocks ▸ hT⟩
  | cons b rest ih =>
    intro done T hblocks hT
    obtain ⟨T₁, hfirst, hT₁⟩ := assignDominator_assigned S hblocks hT
    obtain ⟨T₂, hrest, hT₂⟩ := ih (done ++ [b]) T₁ (by simp [hblocks]) hT₁
    exact ⟨T₂, hfirst.foldlM_cons hrest, hT₂⟩

/-- A graph of the builder is in order. In edge split form the start has no other successor than
a block with more predecessors, and these would come after it. -/
theorem Numbered.sequenced [Finite β] (N : Numbered G loops L blocks) : Sequenced G L blocks := by
  have hhead : ∀ {b}, L.isLoopHeader b = false → ¬IsLoop G loops b := by
    intro b hb hloop
    rw [(N.registered.headers b).2 hloop] at hb
    cases hb
  have hsort : ∀ b ∈ blocks, L.isLoopHeader b = false → ∀ p ∈ G.predecessors b,
      blockId blocks p < blockId blocks b := fun b hb hfalse p hp =>
    N.ordered.blockId_lt N.registered.built (N.predecessors b hb p hp)
      ⟨N.edge_iff.2 hp, fun hback => hhead hfalse hback.1⟩
  constructor
  case nodup => exact N.ordered.nodup
  case reachable => exact N.reachable
  case edges => exact fun b _ p => N.edge_iff.symm
  case predecessors => exact N.predecessors
  case sorted => exact hsort
  case headers =>
    intro h hh htrue
    have hloop := (N.registered.headers h).1 htrue
    obtain ⟨p, rest, hpreds, hfwd, -⟩ := N.exists_preHeader hloop
    have hp : p ∈ G.predecessors h := hpreds ▸ mem_cons_self
    refine ⟨p, rest, hpreds,
      N.ordered.blockId_lt N.registered.built (N.predecessors h hh p hp) hfwd, fun e he => ?_⟩
    exact N.header_dominates hloop (.latch ⟨hloop, by simpa [hpreds] using he⟩)
  case start =>
    intro b hb hfalse hstart p hp
    by_contra hne
    have hmany : 1 < (G.predecessors b).length := by
      by_contra hle
      obtain ⟨q, hq⟩ := length_eq_one_iff.1 (le_antisymm (not_lt.1 hle) (length_pos_of_mem hp))
      grind -linarith
    have hsuccs := N.registered.built.edgeSplit G.start b hstart hmany
    have hlt := hsort b hb hfalse p hp
    have hdom : StrictlyDominates G.Edge G.start b p := by
      refine ⟨fun heq => lt_irrefl _ (heq ▸ hlt), fun hpath => ?_⟩
      rcases hpath.cases_head with heq | ⟨x, hstep, hrest⟩
      · exact hne heq.symm
      · have hx : x = b := by
          have := hstep.1
          rwa [HGraph.Edge, hsuccs, mem_singleton] at this
        rcases hrest.cases_head with heq | ⟨y, hstep', -⟩
        · exact lt_irrefl _ (hx ▸ heq ▸ hlt)
        · exact hstep'.2 hx
    exact lt_asymm hlt (N.blockId_lt_of_dominates hdom (N.predecessors b hb p hp)).2

/-- `AssignDominators` returns a tree of strict dominators for the graphs of the builder. -/
theorem assignDominators_assigned [Finite β] (N : Numbered G loops L blocks) :
    ∃ T, Returns (assignDominators G L blocks) T ∧ Assigned G T blocks :=
  N.sequenced.assignDominators_assigned

/-- The block is `c` or below it in the dominator tree. -/
def Below (T : DomTree β) (c x : β) : Prop := ReflTransGen (Up T.dominator) x c

theorem blockId_up [Finite β] (N : Numbered G loops L blocks)
    (hT : Assigned G T blocks) (hchain : TransGen (Up T.dominator) x c) :
    blockId blocks c < blockId blocks x := by
  have hstep : ∀ {x d}, Up T.dominator x d → blockId blocks d < blockId blocks x := by
    intro x d hd
    obtain ⟨hx, hdom⟩ := hT.dominates x d hd
    exact (N.blockId_lt_of_dominates hdom hx).2
  induction hchain with
  | single h => exact hstep h
  | tail _ h ih => exact lt_trans (hstep h) ih

theorem Below.blockId_le [Finite β] (N : Numbered G loops L blocks)
    (hT : Assigned G T blocks) (hx : Below T c x) : blockId blocks c ≤ blockId blocks x := by
  rcases hx.cases_head with rfl | ⟨y, hy, hrest⟩
  · exact le_refl _
  · exact (blockId_up N hT (.head' hy hrest)).le

/-- The dominated blocks are in the order of their ids. -/
def SortedChildren (blocks : List β) (T : DomTree β) : Prop :=
  ∀ d, (T.dominatedBlocks d).Pairwise fun x y => blockId blocks x ≤ blockId blocks y

theorem pairwise_insertDominated {l : List β} (hl : l.Pairwise fun x y => blockId blocks x ≤ blockId blocks y) :
    (insertDominated blocks b l).Pairwise fun x y => blockId blocks x ≤ blockId blocks y := by
  induction l with
  | nil => simp [insertDominated]
  | cons y l ih =>
    obtain ⟨hy, hl'⟩ := pairwise_cons.1 hl
    rw [insertDominated]
    split
    · next hlt =>
      refine pairwise_cons.2 ⟨fun z hz => ?_, ih hl'⟩
      rcases mem_insertDominated.1 hz with rfl | hz
      · exact hlt.le
      · exact hy z hz
    grind

theorem SortedChildren.setDominator (hT : SortedChildren blocks T) :
    SortedChildren blocks (T.setDominator blocks b c) := by
  intro d
  simp only [DomTree.setDominator]
  by_cases hd : d = c
  · subst hd
    rw [update_self]
    exact pairwise_insertDominated (hT d)
  · rw [update_of_ne hd]
    exact hT d

theorem SortedChildren.assignCommonDominator {fuel : Nat} (hT : SortedChildren blocks T)
    (h : assignCommonDominator blocks b fuel T p = some T') : SortedChildren blocks T' := by
  rw [Hydrogen.assignCommonDominator] at h
  split at h
  · rw [← some.inj h]
    exact hT.setDominator
  · next dominator _ =>
    split at h
    · rw [← some.inj h]
      exact hT
    · rw [bind_eq_bind, bind_eq_some_iff] at h
      obtain ⟨first, -, h⟩ := h
      split at h
      · rw [← some.inj h]
        refine SortedChildren.setDominator fun d => ?_
        simp only [DomTree.removeDominated]
        by_cases hd : d = dominator
        · subst hd
          rw [update_self]
          exact (hT d).sublist erase_sublist
        · rw [update_of_ne hd]
          exact hT d
      · rw [← some.inj h]
        exact hT

theorem assignDominators_sorted (h : Returns (assignDominators G L blocks) T) : SortedChildren blocks T := by
  obtain ⟨n, hn⟩ := h
  have hres := hn n (le_refl n)
  -- every step of both loops keeps the order
  have hfold : ∀ {α : Type} (f : DomTree β → α → Option (DomTree β)),
      (∀ T T' a, SortedChildren blocks T → f T a = some T' → SortedChildren blocks T') →
      ∀ (l : List α) (T T' : DomTree β), SortedChildren blocks T → l.foldlM f T = some T' →
        SortedChildren blocks T' := by
    intro α f hf l
    induction l with
    | nil =>
      simp
    | cons a l ih =>
      intro T T' hT h
      rw [foldlM_cons, bind_eq_bind, bind_eq_some_iff] at h
      obtain ⟨T₁, h₁, h₂⟩ := h
      exact ih T₁ T' (hf T T₁ a hT h₁) h₂
  refine hfold _ ?_ blocks _ T (fun d => Pairwise.nil) hres
  intro T T' b hT h
  rw [assignDominator] at h
  split at h
  · rw [bind_eq_some_iff] at h
    obtain ⟨p, -, h⟩ := h
    exact hT.assignCommonDominator h
  · exact hfold _ (fun T T' p hT h => hT.assignCommonDominator h) _ T T' hT h

/-- `AssignDominators` assigns to every block but the start its immediate dominator, and the lists
of dominated blocks are the children of the tree, each once and by increasing id. -/
theorem assignDominators_immediate (S : Sequenced G L blocks) : ∃ T, Returns (assignDominators G L blocks) T ∧
      (∀ b ∈ blocks, b ≠ G.start →
        ∃ d ∈ blocks, T.dominator b = some d ∧ ImmediatelyDominates G.Edge G.start d b) ∧
      (∀ b d, b ∈ T.dominatedBlocks d ↔ T.dominator b = some d) ∧
      ∀ d, (T.dominatedBlocks d).Nodup ∧
        (T.dominatedBlocks d).Pairwise fun x y => blockId blocks x < blockId blocks y := by
  obtain ⟨T, hreturns, hT⟩ := S.assignDominators_assigned
  refine ⟨T, hreturns, ?_, hT.children, fun d => ⟨hT.nodup d, ?_⟩⟩
  · intro b hb hne
    obtain ⟨d, hd⟩ := hT.assigned b hb hne
    have hdom := (hT.dominates b d hd).2
    exact ⟨d, (S.blockId_lt_of_dominates hdom hb).1, hd, hdom, hT.nearest b d hd⟩
  · have hmem : ∀ {x}, x ∈ T.dominatedBlocks d → x ∈ blocks := fun hx =>
      (hT.dominates _ d ((hT.children _ d).1 hx)).1
    refine ((assignDominators_sorted hreturns d).and (hT.nodup d)).imp_of_mem ?_
    intro x y hx _ ⟨hle, hne⟩
    exact lt_of_le_of_ne hle fun heq => hne ((idxOf_inj (hmem hx)).1 heq)

theorem assignDominators_immediate_while :
    ∃ L blocks T, Sequenced whileGraph L blocks ∧ Returns (assignDominators whileGraph L blocks) T ∧
      (∀ b ∈ blocks, b ≠ whileGraph.start → ∃ d ∈ blocks, T.dominator b = some d ∧
        ImmediatelyDominates whileGraph.Edge whileGraph.start d b) ∧
      (∀ b d, b ∈ T.dominatedBlocks d ↔ T.dominator b = some d) ∧
      ∀ d, (T.dominatedBlocks d).Nodup ∧
        (T.dominatedBlocks d).Pairwise fun x y => blockId blocks x < blockId blocks y := by
  obtain ⟨L, -, hforest, hheaders⟩ := registerLoops_forest whileGraph_built
  have R : Registered whileGraph [1] L := ⟨whileGraph_built, hforest, hheaders⟩
  obtain ⟨blocks, -, O⟩ := orderBlocks_ordered R
  have hreach : ∀ b, ReflTransGen whileGraph.Edge whileGraph.start b := by
    have hedge : ∀ p s, s ∈ whileGraph.successors p → whileGraph.Edge p s := fun _ _ h => h
    have h1 : ReflTransGen whileGraph.Edge 0 1 := .single (hedge 0 1 (by decide))
    have h2 : ReflTransGen whileGraph.Edge 0 2 := h1.tail (hedge 1 2 (by decide))
    have h3 : ReflTransGen whileGraph.Edge 0 3 := h1.tail (hedge 1 3 (by decide))
    intro b
    fin_cases b
    · exact .refl
    · exact h1
    · exact h2
    · exact h3
  have N : Numbered whileGraph [1] L blocks := ⟨R, O, fun _ _ p _ => (O.reachable p).2 (hreach p)⟩
  obtain ⟨T, hT⟩ := assignDominators_immediate N.sequenced
  exact ⟨L, blocks, T, N.sequenced, hT⟩

end W16.Hydrogen
