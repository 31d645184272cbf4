import Mathlib.Data.Fintype.EquivFin
import W16.NaturalLoop

/-!
# Registering the loops of a Hydrogen graph

`PostProcessLoopHeader` registers the back edges of a loop once its body is
built, so the loops inside it come first. `AddBlock` walks backwards from a back
edge, steps over loops that are registered already to their headers, and sets
the parent loop header of what it meets. The parents then form the forest of the
natural loops.
-/
namespace W16.Hydrogen

open Relation NaturalLoop List Function

/-- The basic blocks of an `HGraph` with their edges. -/
structure HGraph (β : Type) where
  start : β
  successors : β → List β
  predecessors : β → List β

/-- The loop information of all blocks. -/
structure Loops (β : Type) where
  isLoopHeader : β → Bool
  parentLoopHeader : β → Option β
  /-- `HLoopInformation::blocks_` and `back_edges_`. -/
  blocks : β → List β
  backEdges : β → List β

variable {β : Type} [DecidableEq β]

/-- Set the parent of a block that has none and add it to the loop. -/
def Loops.enclose (L : Loops β) (header block : β) : Loops β :=
  { L with
    parentLoopHeader := Function.update L.parentLoopHeader block (some header)
    blocks := Function.update L.blocks header (L.blocks header ++ [block]) }

/-- `AddBlock`; the number bounds the depth of the recursion. -/
def addBlock (G : HGraph β) (header : β) : Nat → Loops β → β → Option (Loops β)
  | 0, _, _ => none
  | fuel + 1, L, block =>
    if block = header then some L
    else if L.parentLoopHeader block = some header then some L
    else
      match L.parentLoopHeader block with
      | some parent => addBlock G header fuel L parent
      | none =>
        (G.predecessors block).foldlM (addBlock G header fuel) (L.enclose header block)

def registerBackEdge (G : HGraph β) (header : β) (fuel : Nat) (L : Loops β) (block : β) : Option (Loops β) :=
  addBlock G header fuel
    { L with backEdges := Function.update L.backEdges header (L.backEdges header ++ [block]) } block

/-- `PostProcessLoopHeader`. A header with one predecessor is no loop after all. -/
def postProcessLoopHeader (G : HGraph β) (fuel : Nat) (L : Loops β) (header : β) : Option (Loops β) :=
  if (G.predecessors header).length = 1 then
    some { L with isLoopHeader := Function.update L.isLoopHeader header false }
  else (G.predecessors header).tail.foldlM (registerBackEdge G header fuel) L

/-- `AttachLoopInformation` of all loop headers. -/
def attachLoops (loops : List β) : Loops β where
  isLoopHeader := fun b => loops.contains b
  parentLoopHeader := fun _ => none
  blocks := fun b => [b]
  backEdges := fun _ => []

/-- The loops in the order in which the graph builder completes them. -/
def registerLoops (G : HGraph β) (loops : List β) (fuel : Nat) : Option (Loops β) :=
  loops.foldlM (postProcessLoopHeader G fuel) (attachLoops loops)

/-- With enough fuel the computation returns the result. -/
def Returns {γ : Type} (f : Nat → Option γ) (r : γ) : Prop := ∃ n, ∀ fuel ≥ n, f fuel = some r

omit [DecidableEq β] in
theorem Returns.foldlM_cons {γ : Type} {f : Nat → γ → β → Option γ} {x : β} {rest : List β}
    {c c₁ c₂ : γ} (h₁ : Returns (fun fuel => f fuel c x) c₁)
    (h₂ : Returns (fun fuel => rest.foldlM (f fuel) c₁) c₂) :
    Returns (fun fuel => (x :: rest).foldlM (f fuel) c) c₂ := by
  obtain ⟨n₁, hn₁⟩ := h₁
  obtain ⟨n₂, hn₂⟩ := h₂
  refine ⟨max n₁ n₂, fun fuel hfuel => ?_⟩
  simp_all

omit [DecidableEq β] in
/-- The rule for a loop: `Good done c` holds of the result of each round. -/
theorem Returns.foldlM {γ : Type} (f : Nat → γ → β → Option γ) (Good : List β → γ → Prop)
    (xs : List β) (hstep : ∀ x ∈ xs, ∀ done c, Good done c →
      ∃ c', Returns (fun fuel => f fuel c x) c' ∧ Good (x :: done) c')
    (done : List β) (c : γ) (hc : Good done c) :
    ∃ c', Returns (fun fuel => xs.foldlM (f fuel) c) c' ∧ Good (xs.reverse ++ done) c' := by
  induction xs generalizing c done with
  | nil => exact ⟨c, ⟨0, fun _ _ => rfl⟩, hc⟩
  | cons x rest ih =>
    obtain ⟨c₁, hfirst, hc₁⟩ := hstep x mem_cons_self done c hc
    obtain ⟨c₂, hrest, hc₂⟩ :=
      ih (fun y hy => hstep y (mem_cons_of_mem x hy)) (x :: done) c₁ hc₁
    exact ⟨c₂, hfirst.foldlM_cons hrest, by simpa using hc₂⟩

/-- The edges, and the back edges that `PostProcessLoopHeader` registers. -/
def HGraph.Edge (G : HGraph β) (p s : β) : Prop := s ∈ G.successors p

def IsLoop (G : HGraph β) (loops : List β) (h : β) : Prop :=
  h ∈ loops ∧ (G.predecessors h).length ≠ 1

def BackEdge (G : HGraph β) (loops : List β) (h e : β) : Prop :=
  IsLoop G loops h ∧ e ∈ (G.predecessors h).tail

/-- The blocks of the loop and of the loops nested in it. -/
def HGraph.InLoop (G : HGraph β) (loops : List β) : β → β → Prop :=
  NaturalLoop.InLoop G.Edge (BackEdge G loops)

/-- What the graph builder delivers: consistent predecessors, edge split form,
loops entered only through their headers, and each loop completed after the loops
in it. -/
structure Built (G : HGraph β) (loops : List β) : Prop where
  predecessors : ∀ p s, p ∈ G.predecessors s ↔ s ∈ G.successors p
  edgeSplit : ∀ p s, p ∈ G.predecessors s → 1 < (G.predecessors s).length → G.successors p = [s]
  nodup : loops.Nodup
  reducible : Reducible G.Edge G.start (IsLoop G loops) (BackEdge G loops)
  innerFirst : loops.Pairwise fun a b => IsLoop G loops a → ¬G.InLoop loops a b

/-- The parent relation of the blocks. -/
def Loops.Parent (L : Loops β) (b p : β) : Prop := L.parentLoopHeader b = some p

/-- The parents are the forest of the natural loops of the headers in `S`. -/
structure Forest (G : HGraph β) (loops : List β) (S : β → Prop) (L : Loops β) : Prop where
  parent_mem : ∀ {b p}, L.Parent b p → S p
  chain : ∀ {h b}, S h → (ReflTransGen L.Parent b h ↔ G.InLoop loops h b)
  wellFounded : WellFounded fun p b => L.Parent b p
  blocks : ∀ {h b}, S h → (b ∈ L.blocks h ↔ b = h ∨ L.Parent b h)
  others : ∀ {h}, ¬S h → L.blocks h = [h]
  backEdges : ∀ h, L.backEdges h = [] ∨ S h
  latches : ∀ {h}, S h → ∀ e, e ∈ L.backEdges h ↔ e ∈ (G.predecessors h).tail

/-- The last block of the chain of parents. -/
def Top (L : Loops β) (b t : β) : Prop := ReflTransGen L.Parent b t ∧ L.parentLoopHeader t = none

omit [DecidableEq β] in
theorem exists_top {L : Loops β} (hwf : WellFounded fun p b => L.Parent b p) (b : β) : ∃ t, Top L b t := by
  induction b using hwf.induction with
  | _ b ih =>
    cases hpar : L.parentLoopHeader b with
    | none => exact ⟨b, .refl, hpar⟩
    | some p =>
      obtain ⟨t, hchain, htop⟩ := ih p hpar
      exact ⟨t, hchain.head hpar, htop⟩

/-- While the loop of `h` is registered, `L₀` being the state before: some blocks
without a parent have got the parent `h`. -/
structure Marks (L₀ : Loops β) (h : β) (L : Loops β) : Prop where
  marked : ∀ b ∈ L.blocks h, b ≠ h → L.Parent b h
  unmarked : ∀ b, b ∉ L.blocks h ∨ b = h → L.parentLoopHeader b = L₀.parentLoopHeader b
  fresh : ∀ b ∈ L.blocks h, b ≠ h → L₀.parentLoopHeader b = none
  self : h ∈ L.blocks h
  others : ∀ h', h' ≠ h → L.blocks h' = L₀.blocks h'
  headers : L.isLoopHeader = L₀.isLoopHeader

/-- The top of the block is the loop's header or belongs to the loop. -/
def Covered (L₀ : Loops β) (h : β) (L : Loops β) (b : β) : Prop :=
  ∃ t, Top L₀ b t ∧ t ∈ L.blocks h

/-- `L'` comes from `L` by adding blocks of the loop together with what reaches
them. -/
structure Extends (G : HGraph β) (loops : List β) (L₀ : Loops β) (h : β) (L L' : Loops β) : Prop where
  marks : Marks L₀ h L'
  blocks : ∀ b ∈ L.blocks h, b ∈ L'.blocks h
  inLoop : ∀ b ∈ L'.blocks h, b ∈ L.blocks h ∨ G.InLoop loops h b
  closed : ∀ b ∈ L'.blocks h, b ∈ L.blocks h ∨ ∀ p ∈ G.predecessors b, Covered L₀ h L' p
  backEdges : L'.backEdges = L.backEdges

variable {G : HGraph β} {loops : List β} {L₀ L L' L'' : Loops β} {h b : β}

omit [DecidableEq β] in
theorem Covered.mono (hb : Covered L₀ h L b) (hsub : ∀ x ∈ L.blocks h, x ∈ L'.blocks h) :
    Covered L₀ h L' b := by
  obtain ⟨t, htop, ht⟩ := hb
  exact ⟨t, htop, hsub t ht⟩

omit [DecidableEq β] in
theorem Extends.refl (hL : Marks L₀ h L) : Extends G loops L₀ h L L :=
  ⟨hL, fun _ hb => hb, fun _ hb => .inl hb, fun _ hb => .inl hb, rfl⟩

omit [DecidableEq β] in
theorem Extends.trans (h₁ : Extends G loops L₀ h L L') (h₂ : Extends G loops L₀ h L' L'') :
    Extends G loops L₀ h L L'' where
  marks := h₂.marks
  blocks := fun b hb => h₂.blocks b (h₁.blocks b hb)
  inLoop := by
    intro b hb
    rcases h₂.inLoop b hb with hb | hb
    · exact h₁.inLoop b hb
    · exact .inr hb
  closed := by
    intro b hb
    rcases h₂.closed b hb with hb | hb
    · rcases h₁.closed b hb with hb | hb
      · exact .inl hb
      · exact .inr fun p hp => (hb p hp).mono h₂.blocks
    · exact .inr hb
  backEdges := h₂.backEdges.trans h₁.backEdges

theorem enclose_parent : (L.enclose h b).parentLoopHeader = Function.update L.parentLoopHeader b (some h) := rfl

theorem mem_enclose (x : β) : x ∈ (L.enclose h b).blocks h ↔ x ∈ L.blocks h ∨ x = b := by
  simp [Loops.enclose]

/-- Marking a block that has no parent. -/
theorem Marks.enclose (hL : Marks L₀ h L) (hb : b ≠ h) (hnone : L.parentLoopHeader b = none) :
    Marks L₀ h (L.enclose h b) := by
  have hnot : b ∉ L.blocks h := by
    intro hmem
    have := hL.marked b hmem hb
    rw [Loops.Parent, hnone] at this
    cases this
  have hfresh : L₀.parentLoopHeader b = none := by
    rw [← hL.unmarked b (.inl hnot)]
    exact hnone
  have hblocks : ∀ x, x ∈ (L.enclose h b).blocks h ↔ x ∈ L.blocks h ∨ x = b := mem_enclose
  refine ⟨?_, ?_, ?_, ?_, ?_, hL.headers⟩
  · intro x hx hne
    rcases (hblocks x).1 hx with hx | rfl
    · have hxb : x ≠ b := fun heq => hnot (heq ▸ hx)
      rw [Loops.Parent, enclose_parent, update_of_ne hxb]
      exact hL.marked x hx hne
    · rw [Loops.Parent, enclose_parent, update_self]
  · intro x hx
    have hxb : x ≠ b := by
      grind
    rw [enclose_parent, update_of_ne hxb]
    exact hL.unmarked x (hx.imp_left fun hx hmem => hx ((hblocks x).2 (.inl hmem)))
  · intro x hx hne
    rcases (hblocks x).1 hx with hx | rfl
    · exact hL.fresh x hx hne
    · exact hfresh
  · exact (hblocks h).2 (.inl hL.self)
  · intro h' hne
    rw [← hL.others h' hne]
    simp [Loops.enclose, update_of_ne hne]

/-- The number of blocks without a parent. -/
def unparented [Fintype β] (L : Loops β) : Nat :=
  (Finset.univ.filter fun b => L.parentLoopHeader b = none).card

theorem unparented_enclose [Fintype β] (hnone : L.parentLoopHeader b = none) :
    unparented (L.enclose h b) < unparented L := by
  refine Finset.card_lt_card ((Finset.ssubset_iff_of_subset ?_).2 ⟨b, ?_, ?_⟩)
  · intro x hx
    have hnone' := (Finset.mem_filter.1 hx).2
    refine Finset.mem_filter.2 ⟨Finset.mem_univ x, ?_⟩
    by_cases hxb : x = b
    · rw [hxb]
      exact hnone
    · rwa [enclose_parent, update_of_ne hxb] at hnone'
  · grind
  · intro hmem
    have hnone' := (Finset.mem_filter.1 hmem).2
    rw [enclose_parent, update_self] at hnone'
    cases hnone'

theorem Extends.unparented_le [Fintype β] (hL : Marks L₀ h L)
    (hext : Extends G loops L₀ h L L') : unparented L' ≤ unparented L := by
  refine Finset.card_le_card fun x hx => ?_
  simp only [Finset.mem_filter, Finset.mem_univ, true_and] at hx ⊢
  have hnot : x ∉ L'.blocks h ∨ x = h := by
    by_contra hboth
    push Not at hboth
    have := hext.marks.marked x hboth.1 hboth.2
    rw [Loops.Parent, hx] at this
    cases this
  rw [hL.unmarked x (hnot.imp_left fun hnot hmem => hnot (hext.blocks x hmem)), ← hext.marks.unmarked x hnot]
  exact hx

variable {S : β → Prop}

/-- The state in which the registration of the loop of `h` begins: the loops in it
are registered, and no loop around it. -/
structure Next (G : HGraph β) (loops : List β) (S : β → Prop) (L₀ : Loops β) (h : β) : Prop where
  forest : Forest G loops S L₀
  isLoop : IsLoop G loops h
  loop : ∀ {i}, S i → IsLoop G loops i
  new : ¬S h
  notInside : ∀ {i}, S i → ¬G.InLoop loops i h

omit [DecidableEq β] in
theorem Next.parent_none (hN : Next G loops S L₀ h) : L₀.parentLoopHeader h = none := by
  cases hpar : L₀.parentLoopHeader h with
  | none => rfl
  | some p =>
    have hp : S p := hN.forest.parent_mem hpar
    exact absurd ((hN.forest.chain hp).1 (.single hpar)) (hN.notInside hp)

omit [DecidableEq β] in
/-- The walk stays inside the loop when it steps over a registered loop. -/
theorem Next.inLoop_parent (hB : Built G loops) (hN : Next G loops S L₀ h) {p : β}
    (hb : G.InLoop loops h b) (hpar : L₀.Parent b p) : G.InLoop loops h p := by
  have hp : S p := hN.forest.parent_mem hpar
  have hbp : G.InLoop loops p b := (hN.forest.chain hp).1 (.single hpar)
  rcases hB.reducible.comparable hN.isLoop hb hbp with hmeet | hmeet
  · exact absurd hmeet (hN.notInside hp)
  · exact hmeet

theorem addBlock_extends [Fintype β] (hB : Built G loops) (hN : Next G loops S L₀ h)
    (hL : Marks L₀ h L) (hb : G.InLoop loops h b) :
    ∃ L', Returns (fun fuel => addBlock G h fuel L b) L' ∧ Extends G loops L₀ h L L' ∧ Covered L₀ h L' b := by
  induction hn : unparented L using Nat.strong_induction_on generalizing L b with
  | _ n ihL =>
    induction b using hN.forest.wellFounded.induction with
    | _ b ihb =>
      by_cases hbh : b = h
      · refine ⟨L, ⟨1, fun fuel hfuel => ?_⟩, .refl hL, h, ?_, hL.self⟩
        · obtain ⟨k, rfl⟩ := Nat.exists_eq_add_of_le' hfuel
          simp [addBlock, hbh]
        · rw [hbh]
          exact ⟨.refl, hN.parent_none⟩
      cases hpar : L.parentLoopHeader b with
      | some p =>
        by_cases hph : p = h
        · -- the block is in the loop already
          subst hph
          have hmem : b ∈ L.blocks p := by
            by_contra hnot
            rw [hL.unmarked b (.inl hnot)] at hpar
            exact hN.new (hN.forest.parent_mem hpar)
          refine ⟨L, ⟨1, fun fuel hfuel => ?_⟩, .refl hL, b, ⟨.refl, hL.fresh b hmem hbh⟩, hmem⟩
          grind [Nat.exists_eq_add_of_le', addBlock]
        · have hpar₀ : L₀.Parent b p := by
            have hnot : b ∉ L.blocks h := by
              intro hmem
              have := hL.marked b hmem hbh
              simp_all [Loops.Parent]
            rw [Loops.Parent, ← hL.unmarked b (.inl hnot)]
            exact hpar
          obtain ⟨L', ⟨k, hk⟩, hext, t, htop, ht⟩ :=
            ihb p hpar₀ (hN.inLoop_parent hB hb hpar₀)
          refine ⟨L', ⟨k + 1, fun fuel hfuel => ?_⟩, hext, t, ⟨htop.1.head hpar₀, htop.2⟩, ht⟩
          obtain ⟨m, rfl⟩ : ∃ m, fuel = m + 1 := ⟨fuel - 1, by omega⟩
          simp_all [addBlock]
      | none =>
        have hmarks := hL.enclose hbh hpar
        have hless : unparented (L.enclose h b) < n := hn ▸ unparented_enclose hpar
        -- each predecessor is covered once it has been visited
        obtain ⟨L', hret, hext, hcov⟩ := Returns.foldlM (addBlock G h)
          (fun done L' => Extends G loops L₀ h (L.enclose h b) L' ∧
            ∀ p ∈ done, Covered L₀ h L' p) (G.predecessors b) (by
          intro p hp done L₁ ⟨hext₁, hdone⟩
          have hedge : G.Edge p b := (hB.predecessors p b).1 hp
          have hin : G.InLoop loops h p := .pred hedge hbh hb
          obtain ⟨L₂, hret₂, hext₂, hcov₂⟩ := ihL (unparented L₁)
            (lt_of_le_of_lt (hext₁.unparented_le hmarks) hless) hext₁.marks hin rfl
          refine ⟨L₂, hret₂, hext₁.trans hext₂, ?_⟩
          intro q hq
          rcases mem_cons.1 hq with rfl | hq
          · exact hcov₂
          · exact (hdone q hq).mono hext₂.blocks) [] (L.enclose h b)
          ⟨.refl hmarks, fun _ hp => absurd hp not_mem_nil⟩
        have hcov : ∀ p ∈ G.predecessors b, Covered L₀ h L' p :=
          fun p hp => hcov p (by simpa using hp)
        have hself : b ∈ L'.blocks h := hext.blocks b ((mem_enclose b).2 (.inr rfl))
        refine ⟨L', ?_, ?_, b, ⟨.refl, hext.marks.fresh b hself hbh⟩, hself⟩
        · obtain ⟨k, hk⟩ := hret
          refine ⟨k + 1, fun fuel hfuel => ?_⟩
          obtain ⟨m, rfl⟩ : ∃ m, fuel = m + 1 := ⟨fuel - 1, by omega⟩
          simp_all [addBlock]
        · refine ⟨hext.marks, ?_, ?_, ?_, hext.backEdges⟩
          · exact fun x hx => hext.blocks x ((mem_enclose x).2 (.inl hx))
          · intro x hx
            rcases hext.inLoop x hx with hx | hx
            · grind [mem_enclose]
            · exact .inr hx
          · intro x hx
            rcases hext.closed x hx with hx | hx
            · grind [mem_enclose]
            · exact .inr hx

/-- What holds while the back edges `done` of `h` have been registered. -/
structure Registering (G : HGraph β) (loops : List β) (L₀ : Loops β) (h : β) (done : List β)
    (L : Loops β) : Prop where
  marks : Marks L₀ h L
  inLoop : ∀ b ∈ L.blocks h, G.InLoop loops h b
  closed : ∀ b ∈ L.blocks h, b ≠ h → ∀ p ∈ G.predecessors b, Covered L₀ h L p
  covered : ∀ e ∈ done, Covered L₀ h L e
  backEdges : L.backEdges h = done.reverse
  others : ∀ h', h' ≠ h → L.backEdges h' = L₀.backEdges h'

variable {done : List β}

theorem registerBackEdge_registering [Fintype β] (hB : Built G loops) (hN : Next G loops S L₀ h) {e : β} (he : BackEdge G loops h e) (hL : Registering G loops L₀ h done L) :
    ∃ L', Returns (fun fuel => registerBackEdge G h fuel L e) L' ∧ Registering G loops L₀ h (e :: done) L' := by
  let L₁ : Loops β :=
    { L with backEdges := Function.update L.backEdges h (L.backEdges h ++ [e]) }
  have hmarks : Marks L₀ h L₁ := ⟨hL.marks.marked, hL.marks.unmarked, hL.marks.fresh,
    hL.marks.self, hL.marks.others, hL.marks.headers⟩
  obtain ⟨L', hret, hext, hcov⟩ := addBlock_extends hB hN hmarks (.latch he)
  refine ⟨L', hret, hext.marks, ?_, ?_, ?_, ?_, ?_⟩
  · intro b hb
    rcases hext.inLoop b hb with hb | hb
    · exact hL.inLoop b hb
    · exact hb
  · intro b hb hne p hp
    rcases hext.closed b hb with hb | hb
    · exact (hL.closed b hb hne p hp).mono hext.blocks
    · exact hb p hp
  · intro e' he'
    rcases mem_cons.1 he' with rfl | he'
    · exact hcov
    · exact (hL.covered e' he').mono hext.blocks
  · rw [hext.backEdges, reverse_cons, ← hL.backEdges]
    exact update_self _ _ _
  · intro h' hne
    rw [hext.backEdges, ← hL.others h' hne]
    exact update_of_ne hne _ _

/-- The blocks of the natural loop are covered when all its back edges are. -/
theorem Registering.covers (hB : Built G loops) (hN : Next G loops S L₀ h)
    (hL : Registering G loops L₀ h done L) (hdone : ∀ e, BackEdge G loops h e → e ∈ done)
    (hb : G.InLoop loops h b) : Covered L₀ h L b := by
  induction hb with
  | header => exact ⟨h, ⟨.refl, hN.parent_none⟩, hL.marks.self⟩
  | latch hlatch => exact hL.covered _ (hdone _ hlatch)
  | @pred p x hedge hne _ ih =>
    obtain ⟨t, htop, ht⟩ := ih
    by_cases hxt : x = t
    · subst hxt
      exact hL.closed x ht hne p ((hB.predecessors p x).2 hedge)
    · -- `x` is inside of the registered loop of `t`, and so is its predecessor
      obtain ⟨y, -, hpar⟩ : ∃ y, ReflTransGen L₀.Parent x y ∧ L₀.Parent y t :=
        (ReflTransGen.cases_tail htop.1).resolve_left fun heq => hxt heq.symm
      have hSt : S t := hN.forest.parent_mem hpar
      have hx : G.InLoop loops t x := (hN.forest.chain hSt).1 htop.1
      have hp : G.InLoop loops t p := .pred hedge hxt hx
      exact ⟨t, ⟨(hN.forest.chain hSt).2 hp, htop.2⟩, ht⟩

omit [DecidableEq β] in
/-- A link of the old chain of parents is a link of the new one. -/
theorem Marks.parent_of_parent (hL : Marks L₀ h L) (hnone : L₀.parentLoopHeader h = none) {p : β}
    (hpar : L₀.Parent b p) : L.Parent b p := by
  have hnot : b ∉ L.blocks h := by
    intro hmem
    have hne : b ≠ h := by
      grind [Loops.Parent]
    rw [Loops.Parent, hL.fresh b hmem hne] at hpar
    cases hpar
  rw [Loops.Parent, hL.unmarked b (.inl hnot)]
  exact hpar

omit [DecidableEq β] in
/-- A link of the new chain of parents is new, and leads to `h`, or old. -/
theorem Marks.parent_cases (hL : Marks L₀ h L) {p : β} (hpar : L.Parent b p) :
    (b ∈ L.blocks h ∧ b ≠ h ∧ p = h) ∨ L₀.Parent b p := by
  by_cases hmem : b ∈ L.blocks h ∧ b ≠ h
  · have := hL.marked b hmem.1 hmem.2
    simp_all [Loops.Parent]
  · right
    rw [Loops.Parent, ← hL.unmarked b (by grind)]
    exact hpar

theorem Registering.forest [Fintype β] (hB : Built G loops)
    (hN : Next G loops S L₀ h) (hL : Registering G loops L₀ h done L)
    (hdone : ∀ e, e ∈ done ↔ e ∈ (G.predecessors h).tail) :
    Forest G loops (fun i => S i ∨ i = h) L := by
  have hnone := hN.parent_none
  have hnone' : L.parentLoopHeader h = none := by
    rw [hL.marks.unmarked h (.inr rfl)]
    exact hnone
  have hlift : ∀ {x y}, ReflTransGen L₀.Parent x y → ReflTransGen L.Parent x y :=
    fun hchain => ReflTransGen.mono (fun _ _ => hL.marks.parent_of_parent hnone) _ _ hchain
  refine ⟨?_, ?_, ?_, ?_, ?_, ?_, ?_⟩
  · intro b p hpar
    rcases hL.marks.parent_cases hpar with ⟨-, -, rfl⟩ | hpar
    · exact .inr rfl
    · exact .inl (hN.forest.parent_mem hpar)
  · rintro i b (hi | rfl)
    · rw [← hN.forest.chain hi]
      refine ⟨fun hchain => ?_, hlift⟩
      -- the chain to an old header never passes through `h`
      induction hchain using ReflTransGen.head_induction_on with
      | refl => exact .refl
      | head hpar hchain ih =>
        rcases hL.marks.parent_cases hpar with ⟨-, -, rfl⟩ | hpar
        · rcases hchain.cases_head with rfl | ⟨z, hz, -⟩
          · exact absurd hi hN.new
          · rw [Loops.Parent, hnone'] at hz
            cases hz
        · exact ih.head hpar
    · constructor
      · intro hchain
        induction hchain using ReflTransGen.head_induction_on with
        | refl => exact .header
        | @head x c hpar _ ih =>
          rcases hL.marks.parent_cases hpar with ⟨hmem, -, -⟩ | hpar
          · exact hL.inLoop x hmem
          · have hc : S c := hN.forest.parent_mem hpar
            have hne : c ≠ i := fun heq => hN.new (heq ▸ hc)
            exact hB.reducible.nested hN.isLoop (hN.loop hc) hne ih ((hN.forest.chain hc).1 (.single hpar))
      · intro hb
        obtain ⟨t, htop, ht⟩ := hL.covers hB hN (fun e he => (hdone e).2 he.2) hb
        by_cases hti : t = i
        · rw [← hti]
          exact hlift htop.1
        · exact (hlift htop.1).tail (hL.marks.marked t ht hti)
  · have hacc : Acc (fun p b => L.Parent b p) h := by
      refine ⟨_, fun p hp => ?_⟩
      rw [Loops.Parent, hnone'] at hp
      cases hp
    refine ⟨fun b => ?_⟩
    induction b using hN.forest.wellFounded.induction with
    | _ b ih =>
      refine ⟨_, fun p hp => ?_⟩
      rcases hL.marks.parent_cases hp with ⟨-, -, rfl⟩ | hp
      · exact hacc
      · exact ih p hp
  · rintro i b (hi | rfl)
    · have hne : i ≠ h := fun heq => hN.new (heq ▸ hi)
      rw [hL.marks.others i hne, hN.forest.blocks hi]
      refine or_congr_right ⟨hL.marks.parent_of_parent hnone, fun hpar => ?_⟩
      rcases hL.marks.parent_cases hpar with ⟨-, -, heq⟩ | hpar
      · exact absurd heq hne
      · exact hpar
    · constructor
      · intro hmem
        by_cases hbi : b = i
        · exact .inl hbi
        · exact .inr (hL.marks.marked b hmem hbi)
      · rintro (rfl | hpar)
        · exact hL.marks.self
        · rcases hL.marks.parent_cases hpar with ⟨hmem, -, -⟩ | hpar
          · exact hmem
          · exact absurd (hN.forest.parent_mem hpar) hN.new
  · intro i hi
    push Not at hi
    rw [hL.marks.others i hi.2]
    exact hN.forest.others hi.1
  · intro i
    by_cases hih : i = h
    · exact .inr (.inr hih)
    · rw [hL.others i hih]
      exact (hN.forest.backEdges i).imp_right .inl
  · rintro i (hi | rfl) e
    · have hne : i ≠ h := fun heq => hN.new (heq ▸ hi)
      rw [hL.others i hne]
      exact hN.forest.latches hi e
    · rw [hL.backEdges, mem_reverse]
      exact hdone e

/-- Registering one loop extends the forest by it. -/
theorem postProcessLoopHeader_forest [Fintype β] (hB : Built G loops) (hN : Next G loops S L₀ h) :
    ∃ L', Returns (fun fuel => postProcessLoopHeader G fuel L₀ h) L' ∧
      Forest G loops (fun i => S i ∨ i = h) L' ∧ L'.isLoopHeader = L₀.isLoopHeader := by
  have hblocks : L₀.blocks h = [h] := hN.forest.others hN.new
  have hstart : Registering G loops L₀ h [] L₀ := by
    refine ⟨⟨?_, fun _ _ => rfl, ?_, ?_, fun _ _ => rfl, rfl⟩, ?_, ?_, ?_, ?_, fun _ _ => rfl⟩
    · grind
    · grind
    · simp [hblocks]
    · intro b hb
      rw [hblocks, mem_singleton] at hb
      rw [hb]
      exact .header
    · grind
    · exact fun _ he => absurd he not_mem_nil
    · exact (hN.forest.backEdges h).resolve_right hN.new
  obtain ⟨L', ⟨k, hk⟩, hL'⟩ := Returns.foldlM (registerBackEdge G h) (Registering G loops L₀ h)
    (G.predecessors h).tail
    (fun e he done L hL => registerBackEdge_registering hB hN ⟨hN.isLoop, he⟩ hL) [] L₀ hstart
  refine ⟨L', ⟨k, fun fuel hfuel => ?_⟩, hL'.forest hB hN (by simp), hL'.marks.headers⟩
  show postProcessLoopHeader G fuel L₀ h = some L'
  rw [postProcessLoopHeader, if_neg hN.isLoop.2]
  exact hk fuel hfuel

omit [DecidableEq β] in
theorem Forest.congr {S' : β → Prop} (hF : Forest G loops S L) (h : ∀ i, S i ↔ S' i) : Forest G loops S' L := by
  have heq : S = S' := funext fun i => propext (h i)
  exact heq ▸ hF

theorem attachLoops_forest : Forest G loops (fun _ => False) (attachLoops loops) := by
  refine ⟨?_, ?_, ⟨fun b => ⟨_, ?_⟩⟩, ?_, fun _ => rfl, fun _ => .inl rfl, ?_⟩
  · intro b p hpar
    cases hpar
  · exact fun h => h.elim
  · intro p hpar
    cases hpar
  · exact fun h => h.elim
  · exact fun h => h.elim

/-- After the headers `done` have been processed. -/
structure Processed (G : HGraph β) (loops done : List β) (L : Loops β) : Prop where
  forest : Forest G loops (fun i => i ∈ done ∧ IsLoop G loops i) L
  headers : ∀ b, L.isLoopHeader b = true ↔ b ∈ loops ∧ ¬(b ∈ done ∧ (G.predecessors b).length = 1)

theorem postProcessLoopHeader_processed [Fintype β] (hB : Built G loops) {rest : List β}
    (hloops : loops = done ++ h :: rest) (hL : Processed G loops done L) :
    ∃ L', Returns (fun fuel => postProcessLoopHeader G fuel L h) L' ∧ Processed G loops (done ++ [h]) L' := by
  have hmem : h ∈ loops := by simp [hloops]
  by_cases hone : (G.predecessors h).length = 1
  · refine ⟨{ L with isLoopHeader := Function.update L.isLoopHeader h false }, ⟨0, ?_⟩, ?_, ?_⟩
    · simp [postProcessLoopHeader, hone]
    · have hF : Forest G loops (fun i => i ∈ done ∧ IsLoop G loops i)
          { L with isLoopHeader := Function.update L.isLoopHeader h false } :=
        ⟨hL.forest.parent_mem, hL.forest.chain, hL.forest.wellFounded, hL.forest.blocks,
          hL.forest.others, hL.forest.backEdges, hL.forest.latches⟩
      refine hF.congr fun i => ?_
      constructor
      · grind
      · rintro ⟨hi, hloop⟩
        rcases mem_append.1 hi with hi | hi
        · exact ⟨hi, hloop⟩
        · rw [mem_singleton.1 hi] at hloop
          exact absurd hone hloop.2
    · intro b
      by_cases hbh : b = h
      · subst hbh
        simp [hone]
      · simp [hL.headers b, hbh]
  · have hnotMem : h ∉ done := by
      intro hdone
      have hnodup := hB.nodup
      grind
    have hinner : ∀ i ∈ done, IsLoop G loops i → ¬G.InLoop loops i h := by
      intro i hi
      have hpairs := hB.innerFirst
      grind
    have hN : Next G loops (fun i => i ∈ done ∧ IsLoop G loops i) L h :=
      ⟨hL.forest, ⟨hmem, hone⟩, fun hi => hi.2, fun hi => hnotMem hi.1, fun hi => hinner _ hi.1 hi.2⟩
    obtain ⟨L', hret, hforest, hheaders⟩ := postProcessLoopHeader_forest hB hN
    refine ⟨L', hret, hforest.congr fun i => ?_, fun b => ?_⟩
    · constructor
      · rintro (hi | rfl)
        · exact ⟨mem_append_left _ hi.1, hi.2⟩
        · exact ⟨mem_append_right _ (mem_singleton.2 rfl), hmem, hone⟩
      grind
    · rw [hheaders, hL.headers b]
      grind

/-- The loops that `registerLoops` finds are the natural loops. -/
theorem registerLoops_forest [Fintype β] (hB : Built G loops) :
    ∃ L, Returns (registerLoops G loops) L ∧ Forest G loops (IsLoop G loops) L ∧
      ∀ b, L.isLoopHeader b = true ↔ IsLoop G loops b := by
  suffices ∀ (rest done : List β) (L : Loops β), loops = done ++ rest → Processed G loops done L →
      ∃ L', Returns (fun fuel => rest.foldlM (postProcessLoopHeader G fuel) L) L' ∧
        Processed G loops loops L' by
    obtain ⟨L, hret, hL⟩ := this loops [] (attachLoops loops) rfl
      ⟨attachLoops_forest.congr (by simp), by simp [attachLoops]⟩
    refine ⟨L, hret, hL.forest.congr fun i => ?_, fun b => ?_⟩
    · exact ⟨And.right, fun h => ⟨h.1, h⟩⟩
    · rw [hL.headers b, IsLoop]
      grind
  intro rest
  induction rest with
  | nil =>
    intro done L hloops hL
    rw [append_nil] at hloops
    exact ⟨L, ⟨0, fun _ _ => rfl⟩, hloops ▸ hL⟩
  | cons h rest ih =>
    intro done L hloops hL
    obtain ⟨L₁, hfirst, hL₁⟩ := postProcessLoopHeader_processed hB hloops hL
    obtain ⟨L₂, hrest, hL₂⟩ := ih (done ++ [h]) L₁ (by simp [hloops]) hL₁
    exact ⟨L₂, hfirst.foldlM_cons hrest, hL₂⟩

end W16.Hydrogen
