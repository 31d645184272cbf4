import Mathlib.Data.Fin.VecNotation
import Mathlib.Data.Set.Finite.Lemmas
import Mathlib.Tactic.FinCases
import W16.BlockOrder

/-!
# The ids of the blocks

The ids that `OrderBlocks` gives grow along every edge that is not a back edge, and
the ids from the header of a loop to its last back edge are those of the loop. The
last block of a loop is a latch because the graph is in edge split form: the source
of a back edge has no other successor, so a loop nested in it is left before.
-/
namespace W16.Hydrogen

open Relation NaturalLoop List

variable {β : Type} [DecidableEq β] {G : HGraph β} {loops blocks : List β} {L : Loops β} {b e h s x y : β}

/-- The loops stand together in the list of blocks, the header first. -/
structure Ordered (G : HGraph β) (loops blocks : List β) : Prop where
  nodup : blocks.Nodup
  reachable : ∀ b, b ∈ blocks ↔ ReflTransGen G.Edge G.start b
  sorted : blocks.Pairwise fun x y => ¬Forward G.Edge (BackEdge G loops) y x
  segment : ∀ h ∈ blocks, IsLoop G loops h → ∃ before body after,
    blocks = before ++ (h :: body) ++ after ∧ ∀ x ∈ blocks, x ∈ h :: body ↔ G.InLoop loops h x

omit [DecidableEq β] in
theorem Walk.reachable (R : Registered G loops L) {v : Visit β} (hv : Walk G loops L v)
    (hdone : ∀ b ∈ v.visited, b ∈ v.order) (hstart : G.start ∈ v.visited) :
    b ∈ v.order ↔ ReflTransGen G.Edge G.start b := by
  refine ⟨fun hb => hv.reached b (hv.visited b hb), fun hpath => ?_⟩
  induction hpath with
  | refl => exact hdone _ hstart
  | @tail p s _ hedge ih =>
    by_cases hback : BackEdge G loops s p
    · exact hdone s (hv.chain (hv.visited p ih) (R.chain_of_backEdge hback))
    · exact hv.closed p ih s ⟨hedge, hback⟩

/-- `OrderBlocks` returns, and its result is ordered. -/
theorem orderBlocks_ordered [Fintype β] (R : Registered G loops L) :
    ∃ blocks, Returns (orderBlocks G L) blocks ∧ Ordered G loops blocks := by
  have hempty : Walk G loops L ⟨[], []⟩ := by
    refine ⟨?_, nodup_nil, ?_, ?_, ?_, Pairwise.nil, ?_⟩ <;> simp
  obtain ⟨v, new, ⟨k, hk⟩, hprog, hstart⟩ := postorder_visits R _ ⟨[], []⟩ none G.start
    (Nat.lt_succ_self _) hempty ⟨by simp, by simp⟩ fun _ _ => ⟨.refl, by simp⟩
  have horder : v.order = new := by simpa using hprog.order
  have hdone : ∀ b ∈ v.visited, b ∈ v.order := by
    intro b hb
    rw [horder]
    simpa using (hprog.visited b).1 hb
  have hv := hprog.walk
  have hreachable : ∀ b, b ∈ v.order ↔ ReflTransGen G.Edge G.start b :=
    fun b => hv.reachable R hdone (hstart R.start_parent)
  refine ⟨v.order.reverse, ⟨k, fun fuel hfuel => ?_⟩, nodup_reverse.2 hv.nodup, ?_, ?_, ?_⟩
  · have hret := hk fuel hfuel
    simp [orderBlocks, hret]
  · intro b
    rw [mem_reverse, hreachable]
  · exact pairwise_reverse.2 hv.sorted
  · intro h hh hloop
    obtain ⟨before, body, after, hsplit, hbody, hoth⟩ :=
      hv.contiguous h (mem_reverse.1 hh) hloop
    refine ⟨after.reverse, body.reverse, before.reverse, by simp [hsplit], fun x hx => ?_⟩
    rw [← R.forest.chain hloop, mem_cons, mem_reverse]
    constructor
    · grind
    · grind

theorem blockId_lt_of_pairwise {T : β → β → Prop} (hsort : blocks.Pairwise fun x y => ¬T y x)
    (hx : x ∈ blocks) (hy : y ∈ blocks) (hne : x ≠ y) (hT : T x y) :
    blockId blocks x < blockId blocks y := by
  induction blocks with
  | nil => exact absurd hx not_mem_nil
  | cons c rest ih =>
    obtain ⟨hhead, htail⟩ := pairwise_cons.1 hsort
    by_cases hxc : x = c
    · simp_all [blockId]
    · replace hx := (mem_cons.1 hx).resolve_left hxc
      have hyc : y ≠ c := by
        rintro rfl
        exact hhead x hx hT
      have hy := (mem_cons.1 hy).resolve_left hyc
      rw [blockId, blockId, idxOf_cons_ne _ (Ne.symm hxc), idxOf_cons_ne _ (Ne.symm hyc)]
      exact Nat.succ_lt_succ (ih htail hx hy)

/-- The ids of a segment of the list. -/
theorem mem_segment_iff {before middle after : List β} (hnodup : (before ++ middle ++ after).Nodup) :
    x ∈ middle ↔ before.length ≤ blockId (before ++ middle ++ after) x ∧
      blockId (before ++ middle ++ after) x < before.length + middle.length := by
  rw [blockId]
  rw [append_assoc] at hnodup ⊢
  grind

namespace Ordered

variable (O : Ordered G loops blocks)

include O

/-- An edge that is not a back edge goes to a larger id. -/
theorem blockId_lt (hB : Built G loops) (hx : x ∈ blocks)
    (hfwd : Forward G.Edge (BackEdge G loops) x y) : blockId blocks x < blockId blocks y := by
  have hy : y ∈ blocks := (O.reachable y).2 (((O.reachable x).1 hx).tail hfwd.1)
  refine blockId_lt_of_pairwise O.sorted hx hy ?_ hfwd
  rintro rfl
  exact hB.reducible.acyclic x (.single hfwd)

/-- The ids of a loop are an interval that begins at the header. -/
theorem interval (hh : h ∈ blocks) (hloop : IsLoop G loops h) : ∃ n, ∀ x ∈ blocks, G.InLoop loops h x ↔
      blockId blocks h ≤ blockId blocks x ∧ blockId blocks x < n := by
  obtain ⟨before, body, after, hsplit, hmem⟩ := O.segment h hh hloop
  have hnodup := O.nodup
  rw [hsplit] at hnodup
  have hfirst : blockId blocks h = before.length := by
    have hnot : h ∉ before := by
      intro hbefore
      rw [append_assoc] at hnodup
      grind
    simp [blockId, idxOf_append_of_notMem, hsplit, hnot]
  refine ⟨before.length + (h :: body).length, fun x hx => ?_⟩
  rw [← hmem x hx, hfirst, hsplit]
  exact mem_segment_iff hnodup

end Ordered

namespace Built

variable (B : Built G loops)

include B

omit [DecidableEq β] in
theorem exists_backEdge (hloop : IsLoop G loops h) : ∃ e, BackEdge G loops h e := by
  obtain ⟨q, -, hfwd, -⟩ := B.reducible.exists_outer_pred hloop
  have hq : q ∈ G.predecessors h := (B.predecessors q h).2 hfwd.1
  have hlen := hloop.2
  rcases hpreds : G.predecessors h with _ | ⟨p, _ | ⟨e, rest⟩⟩
  · grind
  · grind
  · exact ⟨e, hloop, by simp [hpreds]⟩

omit [DecidableEq β] in
/-- The source of a back edge has no other successor. -/
theorem successors_of_backEdge (hback : BackEdge G loops h e) : G.successors e = [h] := by
  have hmem : e ∈ G.predecessors h := mem_of_mem_tail hback.2
  refine B.edgeSplit e h hmem ?_
  have := length_pos_of_mem hmem
  have := hback.1.2
  omega

omit [DecidableEq β] in
/-- A block of a loop is no latch of a loop around it. -/
theorem not_outer_latch [Finite β] (hloop : IsLoop G loops h) (hx : G.InLoop loops h x)
    (hback : BackEdge G loops s x) : G.InLoop loops h s := by
  by_contra hout
  have hsuccs := B.successors_of_backEdge hback
  have key : ∀ {y}, G.Edge x y → ¬G.InLoop loops h y := by
    simp [HGraph.Edge, hsuccs, hout]
  cases hx with
  | header =>
    -- the loop of `h` goes back to `h` through a successor of `h`
    obtain ⟨e, he⟩ := B.exists_backEdge hloop
    rcases (B.reducible.inside hloop (.latch he)).cases_head with heq | ⟨y, hedge, -⟩
    · have hedge := B.reducible.edge_of_latch he
      rw [← heq] at hedge
      exact key hedge .header
    · exact key hedge.1 hedge.2.2
  | latch hlatch => exact key (B.reducible.edge_of_latch hlatch) .header
  | pred hedge _ hy => exact key hedge hy

omit [DecidableEq β] in
/-- A loop nested in another one is left for a block of the outer loop. -/
theorem exists_exit [Finite β] (hh : IsLoop G loops h) (hs : IsLoop G loops s) (hne : s ≠ h)
    (hin : G.InLoop loops h s) : ∃ p y, Forward G.Edge (BackEdge G loops) p y ∧
      G.InLoop loops s p ∧ ¬G.InLoop loops s y ∧ G.InLoop loops h y := by
  have hedge : ∃ p y, G.Edge p y ∧ G.InLoop loops s p ∧ ¬G.InLoop loops s y ∧ G.InLoop loops h y := by
    have hout : ¬G.InLoop loops s h := B.reducible.not_mutual hh hs hne hin
    suffices ∀ x, G.InLoop loops h x → G.InLoop loops s x → ∃ p y, G.Edge p y ∧
        G.InLoop loops s p ∧ ¬G.InLoop loops s y ∧ G.InLoop loops h y from this s hin .header
    intro x hx
    induction hx with
    | header => exact fun hinner => absurd hinner hout
    | @latch e he =>
      exact fun hinner => ⟨e, h, B.reducible.edge_of_latch he, hinner, hout, .header⟩
    | @pred p y hedge _ hy ih =>
      intro hinner
      by_cases hys : G.InLoop loops s y
      · exact ih hys
      · exact ⟨p, y, hedge, hinner, hys, hy⟩
  obtain ⟨p, y, hedge, hp, hy, hyh⟩ := hedge
  exact ⟨p, y, ⟨hedge, fun hback => hy (B.not_outer_latch hs hp hback)⟩, hp, hy, hyh⟩

end Built

/-- The block with the largest id of a loop is a latch. -/
theorem Ordered.backEdge_of_last [Finite β] (O : Ordered G loops blocks) (B : Built G loops)
    (hh : IsLoop G loops h) (hx : G.InLoop loops h x)
    (hlast : ∀ y, G.InLoop loops h y → blockId blocks y ≤ blockId blocks x) :
    BackEdge G loops h x := by
  have hmem : ∀ {i y}, IsLoop G loops i → G.InLoop loops i y → y ∈ blocks :=
    fun hi hy => (O.reachable _).2 (B.reducible.entered hi hy)
  cases hx with
  | header =>
    obtain ⟨e, he⟩ := B.exists_backEdge hh
    by_cases heh : e = h
    · rw [heh] at he
      exact he
    · obtain ⟨q, hq, hfwd⟩ := B.reducible.exists_forward_pred hh (.latch he) heh
      obtain ⟨n, hn⟩ := O.interval (hmem hh .header) hh
      have hlt := O.blockId_lt B (hmem hh hq) hfwd
      have hle := hlast e (.latch he)
      have hfirst := ((hn q (hmem hh hq)).1 hq).1
      omega
  | latch hlatch => exact hlatch
  | @pred _ s hedge hsh hs =>
    by_cases hback : BackEdge G loops s x
    · obtain ⟨p, y, hfwd, hp, hy, hyh⟩ := B.exists_exit hh hback.1 hsh hs
      obtain ⟨n, hn⟩ := O.interval (hmem hback.1 .header) hback.1
      have hxs : G.InLoop loops s x := .latch hback
      -- `y` is beyond the loop of `s`, which `x` belongs to
      have hlt := O.blockId_lt B (hmem hback.1 hp) hfwd
      have hpn := (hn p (hmem hback.1 hp)).1 hp
      have hxn := (hn x (hmem hback.1 hxs)).1 hxs
      grind
    · have := O.blockId_lt B (hmem hh (.pred hedge hsh hs)) ⟨hedge, hback⟩
      have := hlast s hs
      omega

/-- `GetLastBackEdge` finds the back edge with the largest id. -/
theorem getLastBackEdge_spec (blocks : List β) (hne : L.backEdges h ≠ []) :
    ∃ e, getLastBackEdge L blocks h = some e ∧ e ∈ L.backEdges h ∧
      ∀ e' ∈ L.backEdges h, blockId blocks e' ≤ blockId blocks e := by
  suffices ∀ (f : Option β → β → Option β), (∀ last cur, f (some last) cur =
        if blockId blocks cur > blockId blocks last then some cur else some last) →
      ∀ (rest done : List β) (last : β), last ∈ done →
      (∀ e ∈ done, blockId blocks e ≤ blockId blocks last) →
      ∃ e, rest.foldl f (some last) = some e ∧ (e ∈ done ∨ e ∈ rest) ∧
        ∀ e', e' ∈ done ∨ e' ∈ rest → blockId blocks e' ≤ blockId blocks e by
    cases hedges : L.backEdges h with
    | nil => exact absurd hedges hne
    | cons e₀ rest =>
      obtain ⟨e, hfold, hmem, hlast⟩ : ∃ e, getLastBackEdge L blocks h = some e ∧ (e ∈ [e₀] ∨ e ∈ rest) ∧
          ∀ e', e' ∈ [e₀] ∨ e' ∈ rest → blockId blocks e' ≤ blockId blocks e := by
        rw [getLastBackEdge, hedges, foldl_cons]
        refine this _ ?_ rest [e₀] e₀ (by simp) (by simp)
        exact fun _ _ => rfl
      exact ⟨e, hfold, by simpa using hmem, fun e' he' => hlast e' (by simpa using he')⟩
  intro f hf rest
  induction rest with
  | nil =>
    simp_all
  | cons cur rest ih =>
    intro done last hmem hlast
    rw [foldl_cons, hf]
    by_cases hcur : blockId blocks cur > blockId blocks last
    · obtain ⟨e, hfold, he, hall⟩ := ih (cur :: done) cur (by simp) (by
        grind)
      refine ⟨e, by simpa only [hcur, if_true] using hfold, ?_, fun e' he' => hall e' ?_⟩ <;>
        simp only [mem_cons] at * <;> grind
    grind

/-- The ids between the header of a loop and its last back edge are those of the
loop. -/
theorem Ordered.last_backEdge [Fintype β] (O : Ordered G loops blocks) (R : Registered G loops L)
    (hh : h ∈ blocks) (hloop : IsLoop G loops h) : ∃ e, getLastBackEdge L blocks h = some e ∧
      ∀ b ∈ blocks, blockId blocks h ≤ blockId blocks b ∧ blockId blocks b ≤ blockId blocks e ↔
        G.InLoop loops h b := by
  have hlatch : ∀ e, e ∈ L.backEdges h ↔ BackEdge G loops h e := by
    intro e
    rw [R.forest.latches hloop e]
    exact ⟨fun he => ⟨hloop, he⟩, And.right⟩
  have hmem : ∀ {y}, G.InLoop loops h y → y ∈ blocks :=
    fun hy => (O.reachable _).2 (R.built.reducible.entered hloop hy)
  obtain ⟨e₀, he₀⟩ := R.built.exists_backEdge hloop
  obtain ⟨e, he, hback, hlargest⟩ := getLastBackEdge_spec blocks (ne_nil_of_mem ((hlatch e₀).2 he₀))
  -- the last block of the loop
  obtain ⟨x, hx, hlast⟩ : ∃ x, G.InLoop loops h x ∧
      ∀ y, G.InLoop loops h y → blockId blocks y ≤ blockId blocks x := by
    exact Set.exists_max_image {x | G.InLoop loops h x} (blockId blocks) (Set.toFinite _) ⟨h, .header⟩
  have hxe := hlargest x ((hlatch x).2 (O.backEdge_of_last R.built hloop hx hlast))
  have heLoop : G.InLoop loops h e := .latch ((hlatch e).1 hback)
  obtain ⟨n, hn⟩ := O.interval hh hloop
  grind

/-- The order that `OrderBlocks` gives to the blocks of a graph with registered
loops: exactly the reachable blocks get an id, the id grows along every edge that
is not a back edge, and the ids from a loop header to the last back edge are those
of the loop. -/
theorem orderBlocks_contiguous [Fintype β] (hB : Built G loops) :
    ∃ L blocks, Returns (registerLoops G loops) L ∧ Returns (orderBlocks G L) blocks ∧
      blocks.Nodup ∧ (∀ b, b ∈ blocks ↔ ReflTransGen G.Edge G.start b) ∧
      (∀ p ∈ blocks, ∀ s ∈ G.successors p, p ∉ L.backEdges s → blockId blocks p < blockId blocks s) ∧
      ∀ h ∈ blocks, L.isLoopHeader h = true → ∃ e, getLastBackEdge L blocks h = some e ∧
        ∀ b ∈ blocks, blockId blocks h ≤ blockId blocks b ∧ blockId blocks b ≤ blockId blocks e ↔
          ReflTransGen L.Parent b h ∧ G.InLoop loops h b := by
  obtain ⟨L, hregister, hforest, hheaders⟩ := registerLoops_forest hB
  have R : Registered G loops L := ⟨hB, hforest, hheaders⟩
  obtain ⟨blocks, horder, O⟩ := orderBlocks_ordered R
  refine ⟨L, blocks, hregister, horder, O.nodup, O.reachable, ?_, ?_⟩
  · intro p hp s hs hnot
    refine O.blockId_lt hB hp ⟨hs, fun hback => hnot ?_⟩
    exact (hforest.latches hback.1 p).2 hback.2
  · intro h hh hheader
    have hloop := (hheaders h).1 hheader
    obtain ⟨e, he, hids⟩ := O.last_backEdge R hh hloop
    refine ⟨e, he, fun b hb => ?_⟩
    rw [hids b hb, hforest.chain hloop, and_self]

omit [DecidableEq β] in
/-- A numbering of the blocks and the bodies of the loops show what is asked of a
graph. -/
theorem Built.of_rank (rank : β → Nat) (body : β → List β)
    (hpreds : ∀ p s, p ∈ G.predecessors s ↔ s ∈ G.successors p)
    (hsplit : ∀ p s, p ∈ G.predecessors s → 1 < (G.predecessors s).length → G.successors p = [s])
    (hnodup : loops.Nodup)
    (hrank : ∀ p s, s ∈ G.successors p → rank p < rank s ∨ BackEdge G loops s p)
    (hreach : ∀ b, b = G.start ∨ ∃ p, b ∈ G.successors p ∧ rank p < rank b)
    (hhead : ∀ h, IsLoop G loops h → h ∈ body h ∧ G.start ∉ body h)
    (hlatch : ∀ h e, BackEdge G loops h e → e ∈ body h)
    (hclos : ∀ h, IsLoop G loops h → ∀ x ∈ body h, x = h ∨ ∀ p ∈ G.predecessors x, p ∈ body h)
    (hinner : loops.Pairwise fun a b => IsLoop G loops a → b ∉ body a) : Built G loops := by
  have hin : ∀ {h b}, IsLoop G loops h → G.InLoop loops h b → b ∈ body h := by
    intro h b hh hb
    induction hb with
    | header => exact (hhead h hh).1
    | latch he => exact hlatch h _ he
    | @pred p x hedge hne _ ih =>
      exact (hclos h hh x ih).resolve_left hne p ((hpreds p x).2 hedge)
  have hpath : ∀ b, ReflTransGen G.Edge G.start b := by
    intro b
    induction hn : rank b using Nat.strong_induction_on generalizing b with
    | _ n ih =>
      rcases hreach b with rfl | ⟨p, hp, hlt⟩
      · exact .refl
      · exact (ih _ (hn ▸ hlt) p rfl).tail hp
  have hfwd : ∀ {p s}, TransGen (Forward G.Edge (BackEdge G loops)) p s → rank p < rank s := by
    intro p s hpath
    induction hpath with
    | single h => exact (hrank _ _ h.1).resolve_right h.2
    | tail _ h ih => exact lt_trans ih ((hrank _ _ h.1).resolve_right h.2)
  refine ⟨hpreds, hsplit, hnodup, ⟨And.left, ?_, fun _ _ => hpath _, ?_, ?_⟩, ?_⟩
  · exact fun he => (hpreds _ _).1 (mem_of_mem_tail he.2)
  · exact fun hh hstart => (hhead _ hh).2 (hin hh hstart)
  · grind
  · exact hinner.imp fun hab ha hb => hab ha (hin ha hb)

instance : DecidablePred (IsLoop G loops) := fun _ => inferInstanceAs (Decidable (_ ∧ _))

instance (h e : β) : Decidable (BackEdge G loops h e) := inferInstanceAs (Decidable (_ ∧ _))

/-- A loop of two blocks with a block before it and one after it. -/
def whileGraph : HGraph (Fin 4) where
  start := 0
  successors := ![[1], [2, 3], [1], []]
  predecessors := ![[], [0, 2], [1], [1]]

theorem whileGraph_built : Built whileGraph [1] :=
  .of_rank (fun b => b.val) (fun _ => [1, 2]) (by decide) (by decide) (by decide) (by decide)
    (by decide) (by decide) (by decide) (by decide) (by decide)

/-- The order of the blocks of the loop. -/
theorem orderBlocks_contiguous_while : ∃ L blocks, Returns (registerLoops whileGraph [1]) L ∧
    Returns (orderBlocks whileGraph L) blocks ∧ blocks.Nodup := by
  obtain ⟨L, blocks, hregister, horder, hnodup, -⟩ := orderBlocks_contiguous whileGraph_built
  exact ⟨L, blocks, hregister, horder, hnodup⟩

end W16.Hydrogen
