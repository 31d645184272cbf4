import Mathlib.Data.List.Nodup
import W16.Dominance
import W16.LoopRegistration

/-!
# Block ordering

`OrderBlocks` numbers the blocks in a reverse postorder. At a loop header it first
visits the blocks after the loop, through every edge that leaves the loop or a
loop nested in it, and then the body; a block is visited only by the walk of its
own loop level.
-/
namespace W16.Hydrogen

open Relation NaturalLoop Dominance List

variable {β : Type} [DecidableEq β]

/-- The bit vector `visited` and the list `order`. -/
structure Visit (β : Type) where
  visited : List β
  order : List β

mutual

/-- `Postorder`; the number bounds the depth of the recursion. -/
def postorder (G : HGraph β) (L : Loops β) : Nat → Option β → Visit β → β → Option (Visit β)
  | 0, _, _, _ => none
  | fuel + 1, loopHeader, v, block =>
    if v.visited.contains block then some v
    else if L.parentLoopHeader block ≠ loopHeader then some v
    else
      let entered : Visit β := { v with visited := block :: v.visited }
      if L.isLoopHeader block then do
        let exits ← postorderLoopBlocks G L fuel loopHeader entered block
        let body ← (G.successors block).foldlM (postorder G L fuel (some block)) exits
        some { body with order := body.order ++ [block] }
      else do
        let after ← (G.successors block).foldlM (postorder G L fuel loopHeader) entered
        some { after with order := after.order ++ [block] }

/-- `PostorderLoopBlocks`. -/
def postorderLoopBlocks (G : HGraph β) (L : Loops β) : Nat → Option β → Visit β → β → Option (Visit β)
  | 0, _, _, _ => none
  | fuel + 1, loopHeader, v, header =>
    (L.blocks header).foldlM (fun v b => do
      let after ← (G.successors b).foldlM (postorder G L fuel loopHeader) v
      if L.isLoopHeader b && b != header then postorderLoopBlocks G L fuel loopHeader after b
      else some after) v

end

/-- `OrderBlocks`: the blocks in the order of their new ids. -/
def orderBlocks (G : HGraph β) (L : Loops β) (fuel : Nat) : Option (List β) :=
  (postorder G L fuel none ⟨[], []⟩ G.start).map fun v => v.order.reverse

/-- The id of a block in the new list of blocks. -/
def blockId (blocks : List β) (b : β) : Nat := blocks.idxOf b

/-- `GetLastBackEdge`. -/
def getLastBackEdge (L : Loops β) (blocks : List β) (h : β) : Option β :=
  (L.backEdges h).foldl (fun result cur =>
    match result with
    | none => some cur
    | some last => if blockId blocks cur > blockId blocks last then some cur else result) none

/-- The registered loops, as the ordering finds them. -/
structure Registered (G : HGraph β) (loops : List β) (L : Loops β) : Prop where
  built : Built G loops
  forest : Forest G loops (IsLoop G loops) L
  headers : ∀ b, L.isLoopHeader b = true ↔ IsLoop G loops b

variable {G : HGraph β} {loops : List β} {L : Loops β} {a b h s x y : β}

omit [DecidableEq β] in
theorem Forest.chain_irrefl {S : β → Prop} (hF : Forest G loops S L) (x : β) : ¬TransGen L.Parent x x := by
  intro hcycle
  exact hF.wellFounded.transGen.irrefl.irrefl x (TransGen.swap _ _ hcycle)

omit [DecidableEq β] in
/-- Two blocks of a chain with the same parent are the same. -/
theorem Forest.eq_of_parent_eq {S : β → Prop} (hF : Forest G loops S L)
    (hx : ReflTransGen L.Parent b x) (hy : ReflTransGen L.Parent b y)
    (hpar : L.parentLoopHeader x = L.parentLoopHeader y) : x = y :=
  up_eq_of_parent_eq hF.chain_irrefl hx hy hpar

namespace Registered

variable (R : Registered G loops L)

include R

omit [DecidableEq β] in
theorem isLoop_of_parent (h : L.Parent x y) : IsLoop G loops y := R.forest.parent_mem h

omit [DecidableEq β] in
/-- The parent of the target of an edge encloses the source. -/
theorem chain_of_edge (hedge : s ∈ G.successors b) (hpar : L.Parent s h) : ReflTransGen L.Parent b h := by
  have hh := R.isLoop_of_parent hpar
  have hne : s ≠ h := by
    rintro rfl
    exact R.forest.chain_irrefl s (.single hpar)
  have hs : G.InLoop loops h s := (R.forest.chain hh).1 (.single hpar)
  exact (R.forest.chain hh).2 (.pred hedge hne hs)

omit [DecidableEq β] in
/-- The target of a back edge encloses the source. -/
theorem chain_of_backEdge (hback : BackEdge G loops h b) : ReflTransGen L.Parent b h :=
  (R.forest.chain hback.1).2 (.latch hback)

omit [DecidableEq β] in
theorem start_parent : L.parentLoopHeader G.start = none := by
  cases hpar : L.parentLoopHeader G.start with
  | none => rfl
  | some p =>
    have hp := R.isLoop_of_parent hpar
    exact absurd ((R.forest.chain hp).1 (.single hpar)) (R.built.reducible.outside hp)

end Registered

/-- The blocks of the loop stand together, the header last. -/
def Contiguous (L : Loops β) (order : List β) (h : β) : Prop :=
  ∃ before body after, order = before ++ body ++ h :: after ∧ (∀ x ∈ body, ReflTransGen L.Parent x h) ∧
    ∀ x, x ∈ before ∨ x ∈ after → ¬ReflTransGen L.Parent x h

/-- The invariant of the walk. -/
structure Walk (G : HGraph β) (loops : List β) (L : Loops β) (v : Visit β) : Prop where
  visited : ∀ b ∈ v.order, b ∈ v.visited
  nodup : v.order.Nodup
  reached : ∀ b ∈ v.visited, ReflTransGen G.Edge G.start b
  parents : ∀ b ∈ v.visited, ∀ p, L.Parent b p → p ∈ v.visited
  closed : ∀ p ∈ v.order, ∀ s, Forward G.Edge (BackEdge G loops) p s → s ∈ v.order
  sorted : v.order.Pairwise fun x y => ¬Forward G.Edge (BackEdge G loops) x y
  contiguous : ∀ h ∈ v.order, IsLoop G loops h → Contiguous L v.order h

/-- The walk is inside the loop at this level: the loops around it are entered and
not finished, and what follows them is visited. -/
structure Level (G : HGraph β) (L : Loops β) (loopHeader : Option β) (v : Visit β) : Prop where
  entered : ∀ l a, loopHeader = some l → ReflTransGen L.Parent l a → a ∈ v.visited ∧ a ∉ v.order
  exits : ∀ l a, loopHeader = some l → ReflTransGen L.Parent l a →
    ∀ b, ReflTransGen L.Parent b a → ∀ s ∈ G.successors b,
      L.parentLoopHeader s = L.parentLoopHeader a → s ∈ v.visited

/-- All blocks on the stack precede the block. -/
def Callable (G : HGraph β) (loops : List β) (v : Visit β) (s : β) : Prop :=
  ReflTransGen G.Edge G.start s ∧
    ∀ g ∈ v.visited, g ∉ v.order → TransGen (Forward G.Edge (BackEdge G loops)) g s

/-- A part of the walk at one level: the new blocks are finished and belong to new
blocks of the level. -/
structure Progress (G : HGraph β) (loops : List β) (L : Loops β) (loopHeader : Option β)
    (v v' : Visit β) (new : List β) : Prop where
  walk : Walk G loops L v'
  order : v'.order = v.order ++ new
  visited : ∀ b, b ∈ v'.visited ↔ b ∈ v.visited ∨ b ∈ new
  fresh : ∀ b ∈ new, b ∉ v.visited
  level : ∀ b ∈ new, ∃ c ∈ new, L.parentLoopHeader c = loopHeader ∧ ReflTransGen L.Parent b c

variable {v v' v'' : Visit β} {new new' : List β} {lh : Option β}

omit [DecidableEq β] in
theorem Progress.refl (hv : Walk G loops L v) : Progress G loops L lh v v [] :=
  ⟨hv, by simp, by simp, by simp, by simp⟩

omit [DecidableEq β] in
theorem Progress.trans (h₁ : Progress G loops L lh v v' new)
    (h₂ : Progress G loops L lh v' v'' new') : Progress G loops L lh v v'' (new ++ new') where
  walk := h₂.walk
  order := by rw [h₂.order, h₁.order, append_assoc]
  visited := by
    intro b
    rw [h₂.visited, h₁.visited, mem_append, or_assoc]
  fresh := by
    intro b hb
    rcases mem_append.1 hb with hb | hb
    · exact h₁.fresh b hb
    · exact fun hmem => h₂.fresh b hb ((h₁.visited b).2 (.inl hmem))
  level := by
    intro b hb
    rcases mem_append.1 hb with hb | hb
    · obtain ⟨c, hc, hlevel⟩ := h₁.level b hb
      exact ⟨c, mem_append_left _ hc, hlevel⟩
    · obtain ⟨c, hc, hlevel⟩ := h₂.level b hb
      exact ⟨c, mem_append_right _ hc, hlevel⟩

omit [DecidableEq β] in
/-- The stack is the same after the walk. -/
theorem Progress.stack (h : Progress G loops L lh v v' new) (hv : Walk G loops L v) :
    b ∈ v'.visited ∧ b ∉ v'.order ↔ b ∈ v.visited ∧ b ∉ v.order := by
  rw [h.visited, h.order, mem_append]
  have hfresh := h.fresh b
  grind

omit [DecidableEq β] in
theorem Progress.mem (h : Progress G loops L lh v v' new) (hb : b ∈ v.visited) :
    b ∈ v'.visited := (h.visited b).2 (.inl hb)

omit [DecidableEq β] in
theorem Level.mono {lh' : Option β} (hlevel : Level G L lh v) (hv : Walk G loops L v)
    (h : Progress G loops L lh' v v' new) : Level G L lh v' where
  entered := fun l a hl ha => (h.stack hv).2 (hlevel.entered l a hl ha)
  exits := fun l a hl ha b hb s hs hpar => h.mem (hlevel.exits l a hl ha b hb s hs hpar)

omit [DecidableEq β] in
theorem Callable.mono (hs : Callable G loops v s) (hv : Walk G loops L v)
    (h : Progress G loops L lh v v' new) : Callable G loops v' s := by
  refine ⟨hs.1, fun g hg hnot => ?_⟩
  obtain ⟨hg, hnot⟩ := (h.stack hv).1 ⟨hg, hnot⟩
  exact hs.2 g hg hnot

/-- A block is entered. -/
def Visit.enter (v : Visit β) (block : β) : Visit β := { v with visited := block :: v.visited }

/-- A block is finished. -/
def Visit.finish (v : Visit β) (block : β) : Visit β := { v with order := v.order ++ [block] }

omit [DecidableEq β] in
theorem mem_enter : x ∈ (v.enter b).visited ↔ x = b ∨ x ∈ v.visited := mem_cons

omit [DecidableEq β] in
theorem Walk.enter (hv : Walk G loops L v) (hreach : ReflTransGen G.Edge G.start b)
    (hparents : ∀ p, L.Parent b p → p ∈ v.visited) : Walk G loops L (v.enter b) where
  visited := fun x hx => mem_enter.2 (.inr (hv.visited x hx))
  nodup := hv.nodup
  reached := by
    intro x hx
    rcases mem_enter.1 hx with rfl | hx
    · exact hreach
    · exact hv.reached x hx
  parents := by
    intro x hx p hp
    rcases mem_enter.1 hx with rfl | hx
    · exact mem_enter.2 (.inr (hparents p hp))
    · exact mem_enter.2 (.inr (hv.parents x hx p hp))
  closed := hv.closed
  sorted := hv.sorted
  contiguous := hv.contiguous

omit [DecidableEq β] in
theorem Walk.chain (hv : Walk G loops L v) (hb : b ∈ v.visited)
    (hchain : ReflTransGen L.Parent b x) : x ∈ v.visited := by
  induction hchain with
  | refl => exact hb
  | tail _ hpar ih => exact hv.parents _ ih _ hpar

omit [DecidableEq β] in
theorem Walk.finish (hv : Walk G loops L v) (hb : b ∈ v.visited) (hnew : b ∉ v.order)
    (hclos : ∀ s, Forward G.Edge (BackEdge G loops) b s → s ∈ v.order)
    (houter : ∀ h ∈ v.order, ¬ReflTransGen L.Parent b h)
    (hcontiguous : IsLoop G loops b → Contiguous L (v.order ++ [b]) b) :
    Walk G loops L (v.finish b) where
  visited := by
    intro x hx
    rcases mem_append.1 hx with hx | hx
    · exact hv.visited x hx
    · rw [mem_singleton.1 hx]
      exact hb
  nodup := nodup_append.2 ⟨hv.nodup, nodup_singleton b, by
    grind⟩
  reached := hv.reached
  parents := hv.parents
  closed := by
    intro p hp s hs
    rcases mem_append.1 hp with hp | hp
    · exact mem_append_left _ (hv.closed p hp s hs)
    · rw [mem_singleton.1 hp] at hs
      exact mem_append_left _ (hclos s hs)
  sorted := pairwise_append.2 ⟨hv.sorted, pairwise_singleton _ _, by
    intro x hx y hy hfwd
    rw [mem_singleton.1 hy] at hfwd
    exact hnew (hv.closed x hx b hfwd)⟩
  contiguous := by
    intro h hh hloop
    rcases mem_append.1 hh with hh | hh
    · obtain ⟨before, body, after, horder, hbody, hoth⟩ := hv.contiguous h hh hloop
      refine ⟨before, body, after ++ [b], ?_, hbody, ?_⟩
      · simp [Visit.finish, horder]
      grind
    · rw [mem_singleton.1 hh] at hloop ⊢
      exact hcontiguous hloop

/-- The number of blocks not visited. -/
def unvisited [Fintype β] (v : Visit β) : Nat :=
  (Finset.univ.filter fun b => b ∉ v.visited).card

theorem unvisited_enter [Fintype β] (hb : b ∉ v.visited) : unvisited (v.enter b) < unvisited v := by
  refine Finset.card_lt_card ((Finset.ssubset_iff_of_subset ?_).2 ⟨b, ?_, ?_⟩)
  · intro x hx
    simp_all [mem_enter]
  · simpa using hb
  · simp [mem_enter]

theorem Progress.unvisited_le [Fintype β] (h : Progress G loops L lh v v' new) :
    unvisited v' ≤ unvisited v := by
  refine Finset.card_le_card fun x hx => ?_
  simp only [Finset.mem_filter, Finset.mem_univ, true_and] at hx ⊢
  exact fun hmem => hx (h.mem hmem)

omit [DecidableEq β] in
/-- The walk goes on from a block of the loop of `a` that has just been entered. -/
theorem Callable.extend (ha : Callable G loops v a)
    (hpath : ReflTransGen (Forward G.Edge (BackEdge G loops)) a b)
    (hfwd : Forward G.Edge (BackEdge G loops) b s) : Callable G loops (v.enter a) s := by
  have hs : TransGen (Forward G.Edge (BackEdge G loops)) a s := .tail' hpath hfwd
  refine ⟨ha.1.trans ?_, ?_⟩
  · exact ReflTransGen.mono (fun _ _ h => h.1) _ _ hs.to_reflTransGen
  · intro g hg hnot
    rcases mem_enter.1 hg with rfl | hg
    · exact hs
    · exact (ha.2 g hg hnot).trans hs

/-- `Postorder` visits the block when it belongs to the level, from every state in
which fewer than `n` blocks are left. -/
def PostorderVisits [Fintype β] (G : HGraph β) (loops : List β) (L : Loops β) (n : Nat) : Prop :=
  ∀ (v : Visit β) (lh : Option β) (block : β), unvisited v < n → Walk G loops L v → Level G L lh v →
    (block ∉ v.visited → L.parentLoopHeader block = lh → Callable G loops v block) →
    ∃ v' new, Returns (fun fuel => postorder G L fuel lh v block) v' ∧
      Progress G loops L lh v v' new ∧ (L.parentLoopHeader block = lh → block ∈ v'.visited)

theorem successors_visited [Fintype β] {n : Nat} (hvisits : PostorderVisits G loops L n)
    (hn : unvisited v < n) (hv : Walk G loops L v) (hlevel : Level G L lh v) (xs : List β)
    (hcall : ∀ s ∈ xs, s ∉ v.visited → L.parentLoopHeader s = lh → Callable G loops v s) :
    ∃ v' new, Returns (fun fuel => xs.foldlM (postorder G L fuel lh) v) v' ∧ Progress G loops L lh v v' new ∧
      ∀ s ∈ xs, L.parentLoopHeader s = lh → s ∈ v'.visited := by
  obtain ⟨v', hret, ⟨new, hprog⟩, hdone⟩ := Returns.foldlM (fun fuel => postorder G L fuel lh)
    (fun done v' => (∃ new, Progress G loops L lh v v' new) ∧
      ∀ s ∈ done, L.parentLoopHeader s = lh → s ∈ v'.visited) xs (by
    rintro s hs done v₁ ⟨⟨new₁, h₁⟩, hdone⟩
    obtain ⟨v₂, new₂, hret, h₂, hvis⟩ := hvisits v₁ lh s
      (lt_of_le_of_lt h₁.unvisited_le hn) h₁.walk (hlevel.mono hv h₁)
      (fun hnot hpar => (hcall s hs (fun hmem => hnot (h₁.mem hmem)) hpar).mono hv h₁)
    refine ⟨v₂, hret, ⟨_, h₁.trans h₂⟩, ?_⟩
    intro t ht hpar
    rcases mem_cons.1 ht with rfl | ht
    · exact hvis hpar
    · exact h₂.mem (hdone t ht hpar)) [] v ⟨⟨[], .refl hv⟩, by simp⟩
  grind

omit [DecidableEq β] in
theorem Forest.children_wellFounded [Finite β] {S : β → Prop} (hF : Forest G loops S L) :
    WellFounded L.Parent := by
  have htrans : WellFounded (TransGen L.Parent) := by
    have : Std.Irrefl (TransGen L.Parent) := ⟨hF.chain_irrefl⟩
    exact Finite.wellFounded_of_trans_of_irrefl _
  exact Subrelation.wf (fun h => TransGen.single h) htrans

/-- What a round of `PostorderLoopBlocks` does with the block `b` of the loop. -/
def loopBlockRound (G : HGraph β) (L : Loops β) (lh : Option β) (header : β) (fuel : Nat)
    (v : Visit β) (b : β) : Option (Visit β) := do
  let after ← (G.successors b).foldlM (postorder G L fuel lh) v
  if L.isLoopHeader b && b != header then postorderLoopBlocks G L fuel lh after b
  else some after

/-- `PostorderLoopBlocks` visits what follows the loop at the level. -/
theorem exits_visited [Fintype β] {n : Nat} (R : Registered G loops L)
    (hvisits : PostorderVisits G loops L n) (hn : unvisited v < n) (hv : Walk G loops L v)
    (hlevel : Level G L lh v) (ha : IsLoop G loops a)
    (hcall : ∀ b, ReflTransGen L.Parent b a → ∀ s ∈ G.successors b, s ∉ v.visited →
      L.parentLoopHeader s = lh → Callable G loops v s) :
    ∃ v' new, Returns (fun fuel => postorderLoopBlocks G L fuel lh v a) v' ∧ Progress G loops L lh v v' new ∧
      ∀ b, ReflTransGen L.Parent b a → ∀ s ∈ G.successors b, L.parentLoopHeader s = lh → s ∈ v'.visited := by
  induction a using R.forest.children_wellFounded.induction generalizing v with
  | _ a ih =>
    -- the loops nested in the loop of `a` are done with their headers
    obtain ⟨v', ⟨k, hk⟩, ⟨new, hprog⟩, hdone⟩ := Returns.foldlM (loopBlockRound G L lh a)
      (fun done v' => (∃ new, Progress G loops L lh v v' new) ∧
        ∀ c ∈ done, ∀ b, ReflTransGen L.Parent b c → b = c ∨ c ≠ a →
          ∀ s ∈ G.successors b, L.parentLoopHeader s = lh → s ∈ v'.visited) (L.blocks a) (by
      rintro c hc done v₁ ⟨⟨new₁, h₁⟩, hdone⟩
      have hchain : ReflTransGen L.Parent c a := by
        rcases (R.forest.blocks ha).1 hc with rfl | hpar
        · exact .refl
        · exact .single hpar
      obtain ⟨v₂, new₂, ⟨k₂, hk₂⟩, h₂, hsuccs⟩ := successors_visited hvisits
        (lt_of_le_of_lt h₁.unvisited_le hn) h₁.walk (hlevel.mono hv h₁) (G.successors c)
        (fun s hs hnot hpar =>
          (hcall c hchain s hs (fun hmem => hnot (h₁.mem hmem)) hpar).mono hv h₁)
      by_cases hinner : IsLoop G loops c ∧ c ≠ a
      · have hpar : L.Parent c a := ((R.forest.blocks ha).1 hc).resolve_left hinner.2
        have h₁₂ := h₁.trans h₂
        obtain ⟨v₃, new₃, ⟨k₃, hk₃⟩, h₃, hexits⟩ := ih c hpar
          (lt_of_le_of_lt h₁₂.unvisited_le hn) h₁₂.walk (hlevel.mono hv h₁₂) hinner.1
          (fun b hb s hs hnot hlevel => (hcall b (hb.tail hpar) s hs
            (fun hmem => hnot (h₁₂.mem hmem)) hlevel).mono hv h₁₂)
        refine ⟨v₃, ⟨max k₂ k₃, fun fuel hfuel => ?_⟩, ⟨_, h₁₂.trans h₃⟩, ?_⟩
        · have h₂ := hk₂ fuel (by omega)
          have h₃ := hk₃ fuel (by omega)
          have hhead : L.isLoopHeader c = true := (R.headers c).2 hinner.1
          simp [loopBlockRound, h₂, h₃, hhead, hinner.2]
        · intro d hd b hb hcase s hs hsame
          rcases mem_cons.1 hd with rfl | hd
          · exact hexits b hb s hs hsame
          · exact h₃.mem (h₂.mem (hdone d hd b hb hcase s hs hsame))
      · refine ⟨v₂, ⟨k₂, fun fuel hfuel => ?_⟩, ⟨_, h₁.trans h₂⟩, ?_⟩
        · have h₂ := hk₂ fuel hfuel
          have hskip : (L.isLoopHeader c && c != a) = false := by
            by_contra hboth
            rw [Bool.not_eq_false, Bool.and_eq_true, R.headers c, bne_iff_ne] at hboth
            exact hinner hboth
          simp [loopBlockRound, h₂, hskip]
        · intro d hd b hb hcase s hs hpar
          rcases mem_cons.1 hd with rfl | hd
          · -- only a header has other blocks below it
            have hbd : b = d := by
              rcases hcase with hbd | hda
              · exact hbd
              · rcases hb.cases_tail with heq | ⟨y, -, hy⟩
                · exact heq.symm
                · exact absurd ⟨R.isLoop_of_parent hy, hda⟩ hinner
            exact hsuccs s (hbd ▸ hs) hpar
          · exact h₂.mem (hdone d hd b hb hcase s hs hpar)) [] v ⟨⟨[], .refl hv⟩, by simp⟩
    refine ⟨v', new, ⟨k + 1, fun fuel hfuel => ?_⟩, hprog, ?_⟩
    · obtain ⟨m, rfl⟩ : ∃ m, fuel = m + 1 := ⟨fuel - 1, by omega⟩
      show postorderLoopBlocks G L (m + 1) lh v a = some v'
      exact hk m (by omega)
    · intro b hb s hs hpar
      have hmem : ∀ c, c = a ∨ L.Parent c a → c ∈ (L.blocks a).reverse ++ [] := by
        intro c hc
        simpa using (R.forest.blocks ha).2 hc
      rcases hb.cases_tail with heq | ⟨c, hbc, hca⟩
      · grind
      · refine hdone c (hmem c (.inr hca)) b hbc (.inr ?_) s hs hpar
        rintro rfl
        exact R.forest.chain_irrefl c (.single hca)

omit [DecidableEq β] in
/-- An edge leads to the level of its source, into the loop of its source, or to
what follows a loop around it. -/
theorem Level.edge_cases {p : β} (R : Registered G loops L) (hlevel : Level G L lh v)
    (hp : L.parentLoopHeader p = lh) (hs : s ∈ G.successors p) :
    L.parentLoopHeader s = lh ∨ L.Parent s p ∨ s ∈ v.visited := by
  cases hpar : L.parentLoopHeader s with
  | none =>
    cases hlh : lh with
    | none => exact .inl rfl
    | some l =>
      obtain ⟨t, htop, hnone⟩ := exists_top R.forest.wellFounded l
      have hpt : ReflTransGen L.Parent p t := htop.head (hp.trans hlh)
      exact .inr (.inr (hlevel.exits l t hlh htop p hpt s hs (hpar.trans hnone.symm)))
  | some q =>
    have hchain := R.chain_of_edge hs hpar
    rcases hchain.cases_head with rfl | ⟨l, hl, hlq⟩
    · exact .inr (.inl hpar)
    · have hlh : lh = some l := hp.symm.trans hl
      rcases hlq.cases_tail with rfl | ⟨a, hla, haq⟩
      · exact .inl hlh.symm
      · exact .inr (.inr (hlevel.exits l a hlh hla p (hla.head hl) s hs (hpar.trans haq.symm)))

omit [DecidableEq β] in
/-- The parent of a block of the level is on the stack. -/
theorem Level.parents (hlevel : Level G L lh v) (hb : L.parentLoopHeader b = lh)
    (hchain : TransGen L.Parent b x) : x ∈ v.visited ∧ x ∉ v.order := by
  obtain ⟨l, hl, hrest⟩ := TransGen.head'_iff.1 hchain
  exact hlevel.entered l x (hb.symm.trans hl) hrest

omit [DecidableEq β] in
/-- An edge to a block on the stack is a back edge. -/
theorem backEdge_of_stack (hB : Built G loops) {p : β} (hp : Callable G loops v p)
    (hs : s ∈ G.successors p) (hvis : s ∈ (v.enter p).visited) (hnot : s ∉ v.order) :
    BackEdge G loops s p := by
  by_contra hback
  rcases mem_enter.1 hvis with rfl | hvis
  · exact hB.reducible.acyclic s (.single ⟨hs, hback⟩)
  · exact hB.reducible.acyclic s ((hp.2 s hvis hnot).tail ⟨hs, hback⟩)

omit [DecidableEq β] in
theorem Registered.forward_of_unvisited {p : β} (R : Registered G loops L)
    (hv : Walk G loops L v) (hp : p ∈ v.visited) (hs : s ∈ G.successors p) (hnot : s ∉ v.visited) :
    Forward G.Edge (BackEdge G loops) p s := by
  refine ⟨hs, fun hback => hnot ?_⟩
  exact hv.chain hp (R.chain_of_backEdge hback)

omit [DecidableEq β] in
/-- An edge from the loop of `a` to an unvisited block of the level of `a`. -/
theorem Registered.forward_of_exit (R : Registered G loops L) (ha : a ∈ v.visited)
    (hb : ReflTransGen L.Parent b a) (hs : s ∈ G.successors b) (hnot : s ∉ v.visited)
    (hpar : L.parentLoopHeader s = L.parentLoopHeader a) :
    Forward G.Edge (BackEdge G loops) b s := by
  refine ⟨hs, fun hback => hnot ?_⟩
  rw [R.forest.eq_of_parent_eq (R.chain_of_backEdge hback) hb hpar]
  exact ha

omit [DecidableEq β] in
/-- Finishing a block that was entered and whose successors were visited. -/
theorem Progress.finish (R : Registered G loops L) (hv : Walk G loops L v) (hlevel : Level G L lh v)
    (hb : b ∉ v.visited) (hpar : L.parentLoopHeader b = lh) (hcall : Callable G loops v b)
    (hwalk : Walk G loops L v') (horder : v'.order = v.order ++ new)
    (hvis : ∀ x, x ∈ v'.visited ↔ x ∈ (v.enter b).visited ∨ x ∈ new)
    (hfresh : ∀ x ∈ new, x ∉ (v.enter b).visited)
    (hnew : ∀ x ∈ new, ReflTransGen L.Parent x b ∨
      ∃ c ∈ new, L.parentLoopHeader c = lh ∧ ReflTransGen L.Parent x c)
    (hsuccs : ∀ s ∈ G.successors b, s ∈ v'.visited)
    (hcontiguous : IsLoop G loops b → Contiguous L (v'.order ++ [b]) b) :
    Progress G loops L lh v (v'.finish b) (new ++ [b]) where
  walk := by
    have hnotOrder : b ∉ v'.order := by
      rw [horder, mem_append]
      rintro (hmem | hmem)
      · exact hb (hv.visited b hmem)
      · exact hfresh b hmem (mem_enter.2 (.inl rfl))
    refine hwalk.finish ((hvis b).2 (.inl (mem_enter.2 (.inl rfl)))) hnotOrder ?_ ?_ hcontiguous
    · intro s hs
      rw [horder, mem_append]
      rcases (hvis s).1 (hsuccs s hs.1) with hmem | hmem
      · by_contra hnot
        exact hs.2 (backEdge_of_stack R.built hcall hs.1 hmem fun h => hnot (.inl h))
      · exact .inr hmem
    · intro h hh hchain
      rcases hchain.cases_head with rfl | ⟨l, hl, hrest⟩
      · exact hnotOrder hh
      · have hstack := hlevel.entered l h (hpar.symm.trans hl) hrest
        simp_all [mem_enter]
  order := by simp [Visit.finish, horder]
  visited := by
    intro x
    show x ∈ v'.visited ↔ _
    rw [hvis, mem_enter, mem_append, mem_singleton]
    grind
  fresh := by
    intro x hx
    rcases mem_append.1 hx with hx | hx
    · exact fun hmem => hfresh x hx (mem_enter.2 (.inr hmem))
    · rw [mem_singleton.1 hx]
      exact hb
  level := by
    grind

omit [DecidableEq β] in
theorem Level.enter (hlevel : Level G L lh v) : Level G L lh (v.enter b) where
  entered := by
    intro l a hl ha
    obtain ⟨hmem, hnot⟩ := hlevel.entered l a hl ha
    exact ⟨mem_enter.2 (.inr hmem), hnot⟩
  exits := fun l a hl ha b hb s hs hpar =>
    mem_enter.2 (.inr (hlevel.exits l a hl ha b hb s hs hpar))

omit [DecidableEq β] in
/-- The level of the body of a loop, when what follows the loop has been visited. -/
theorem Level.body (hlevel : Level G L lh v) (hpar : L.parentLoopHeader b = lh)
    (hb : b ∈ v.visited ∧ b ∉ v.order)
    (hexits : ∀ x, ReflTransGen L.Parent x b → ∀ s ∈ G.successors x,
      L.parentLoopHeader s = lh → s ∈ v.visited) : Level G L (some b) v where
  entered := by
    rintro l a ⟨⟩ ha
    rcases ha.cases_head with rfl | ⟨l, hl, hla⟩
    · exact hb
    · exact hlevel.entered l a (hpar.symm.trans hl) hla
  exits := by
    rintro l a ⟨⟩ ha x hx s hs hsame
    rcases ha.cases_head with rfl | ⟨l, hl, hla⟩
    · exact hexits x hx s hs (hsame.trans hpar)
    · exact hlevel.exits l a (hpar.symm.trans hl) hla x hx s hs hsame

theorem postorder_skip (h : b ∈ v.visited ∨ L.parentLoopHeader b ≠ lh) :
    Returns (fun fuel => postorder G L fuel lh v b) v := by
  refine ⟨1, fun fuel hfuel => ?_⟩
  grind [Nat.exists_eq_add_of_le', postorder]

/-- A block of the level that is no loop header. -/
theorem postorder_block [Fintype β] {n : Nat} (R : Registered G loops L)
    (hvisits : PostorderVisits G loops L n) (hn : unvisited v < n + 1) (hv : Walk G loops L v)
    (hlevel : Level G L lh v) (hb : b ∉ v.visited) (hpar : L.parentLoopHeader b = lh)
    (hcall : Callable G loops v b) (hloop : ¬IsLoop G loops b) :
    ∃ v' new, Returns (fun fuel => postorder G L fuel lh v b) v' ∧
      Progress G loops L lh v v' new ∧ b ∈ v'.visited := by
  have hentered : Walk G loops L (v.enter b) :=
    hv.enter hcall.1 fun p hp => (hlevel.parents hpar (.single hp)).1
  have hself : b ∈ (v.enter b).visited := mem_enter.2 (.inl rfl)
  have hless := unvisited_enter hb
  obtain ⟨v', new, ⟨k, hk⟩, hprog, hsuccs⟩ := successors_visited hvisits
    (by omega) hentered hlevel.enter (G.successors b) fun s hs hnot _ =>
      hcall.extend .refl (R.forward_of_unvisited hentered hself hs hnot)
  have hdone : Progress G loops L lh v (v'.finish b) (new ++ [b]) := by
    refine .finish R hv hlevel hb hpar hcall hprog.walk hprog.order hprog.visited
      hprog.fresh (fun x hx => .inr (hprog.level x hx)) ?_ fun h => absurd h hloop
    intro s hs
    rcases hlevel.edge_cases R hpar hs with hsame | hinner | hmem
    · exact hsuccs s hs hsame
    · exact absurd (R.isLoop_of_parent hinner) hloop
    · exact hprog.mem (mem_enter.2 (.inr hmem))
  refine ⟨v'.finish b, new ++ [b], ⟨k + 1, fun fuel hfuel => ?_⟩, hdone, hprog.mem hself⟩
  obtain ⟨m, rfl⟩ : ∃ m, fuel = m + 1 := ⟨fuel - 1, by omega⟩
  have hm := hk m (by omega)
  have hhead : L.isLoopHeader b = false := by
    rw [← Bool.not_eq_true, R.headers b]
    exact hloop
  simp only [Visit.enter] at hm
  simp [postorder, hb, hpar, hhead, hm, Visit.finish]

omit [DecidableEq β] in
/-- The blocks after the loop are not in it. -/
theorem Progress.not_inside (R : Registered G loops L) (h : Progress G loops L lh v v' new)
    (hb : b ∈ v.visited) (hpar : L.parentLoopHeader b = lh) (hx : x ∈ new) :
    ¬ReflTransGen L.Parent x b := by
  intro hchain
  obtain ⟨c, hc, hlevel, hxc⟩ := h.level x hx
  have hcb : c = b := R.forest.eq_of_parent_eq hxc hchain (hlevel.trans hpar.symm)
  exact h.fresh c hc (hcb ▸ hb)

/-- A loop header of the level. -/
theorem postorder_header [Fintype β] {n : Nat} (R : Registered G loops L)
    (hvisits : PostorderVisits G loops L n) (hn : unvisited v < n + 1) (hv : Walk G loops L v)
    (hlevel : Level G L lh v) (hb : b ∉ v.visited) (hpar : L.parentLoopHeader b = lh)
    (hcall : Callable G loops v b) (hloop : IsLoop G loops b) :
    ∃ v' new, Returns (fun fuel => postorder G L fuel lh v b) v' ∧
      Progress G loops L lh v v' new ∧ b ∈ v'.visited := by
  have hentered : Walk G loops L (v.enter b) :=
    hv.enter hcall.1 fun p hp => (hlevel.parents hpar (.single hp)).1
  have hself : b ∈ (v.enter b).visited := mem_enter.2 (.inl rfl)
  have hless := unvisited_enter hb
  -- the blocks after the loop
  obtain ⟨v₁, new₁, ⟨k₁, hk₁⟩, h₁, hexits⟩ := exits_visited R hvisits (by omega) hentered hlevel.enter hloop (by
    intro x hx s hs hnot hsame
    refine hcall.extend ?_ (R.forward_of_exit hself hx hs hnot (hsame.trans hpar.symm))
    by_cases hxb : x = b
    · rw [hxb]
    · exact (R.built.reducible.forward_from_header hloop ((R.forest.chain hloop).1 hx) hxb).to_reflTransGen)
  have hstack := (h₁.stack hentered).2 ⟨hself, fun hmem => hb (hv.visited b hmem)⟩
  -- the body
  obtain ⟨v₂, new₂, ⟨k₂, hk₂⟩, h₂, hbody⟩ := successors_visited hvisits
    (lt_of_le_of_lt h₁.unvisited_le (by omega)) h₁.walk
    ((hlevel.enter.mono hentered h₁).body hpar hstack hexits) (G.successors b) (by
    intro s hs hnot _
    have hnot' : s ∉ (v.enter b).visited := fun hmem => hnot (h₁.mem hmem)
    exact (hcall.extend .refl (R.forward_of_unvisited hentered hself hs hnot')).mono hentered h₁)
  have hdone : Progress G loops L lh v (v₂.finish b) (new₁ ++ new₂ ++ [b]) := by
    refine .finish R hv hlevel hb hpar hcall h₂.walk ?_ ?_ ?_ ?_ ?_ ?_
    · rw [h₂.order, h₁.order, append_assoc]
      rfl
    · intro x
      rw [h₂.visited, h₁.visited, mem_append, or_assoc]
    · intro x hx
      rcases mem_append.1 hx with hx | hx
      · exact h₁.fresh x hx
      · exact fun hmem => h₂.fresh x hx (h₁.mem hmem)
    · intro x hx
      rcases mem_append.1 hx with hx | hx
      · obtain ⟨c, hc, hlevel⟩ := h₁.level x hx
        grind
      · obtain ⟨c, -, hlevel, hchain⟩ := h₂.level x hx
        exact .inl (hchain.tail hlevel)
    · intro s hs
      rcases hlevel.edge_cases R hpar hs with hsame | hinner | hmem
      · exact h₂.mem (hexits b .refl s hs hsame)
      · exact hbody s hs hinner
      · exact h₂.mem (h₁.mem (mem_enter.2 (.inr hmem)))
    · intro _
      refine ⟨v.order ++ new₁, new₂, [], ?_, ?_, ?_⟩
      · rw [h₂.order, h₁.order]
        rfl
      · intro x hx
        obtain ⟨c, -, hlevel, hchain⟩ := h₂.level x hx
        exact hchain.tail hlevel
      · rintro x (hx | hx) hchain
        · rcases mem_append.1 hx with hx | hx
          · exact hb (hv.chain (hv.visited x hx) hchain)
          · exact h₁.not_inside R hself hpar hx hchain
        · exact absurd hx not_mem_nil
  refine ⟨v₂.finish b, _, ⟨max k₁ k₂ + 1, fun fuel hfuel => ?_⟩, hdone, h₂.mem hstack.1⟩
  obtain ⟨m, rfl⟩ : ∃ m, fuel = m + 1 := ⟨fuel - 1, by omega⟩
  have hm₁ := hk₁ m (by omega)
  have hm₂ := hk₂ m (by omega)
  have hhead : L.isLoopHeader b = true := (R.headers b).2 hloop
  simp only [Visit.enter] at hm₁
  simp [postorder, hb, hpar, hhead, hm₁, hm₂, Visit.finish]

/-- By induction on the number of blocks that are left. -/
theorem postorder_visits [Fintype β] (R : Registered G loops L) (n : Nat) : PostorderVisits G loops L n := by
  induction n with
  | zero =>
    intro v lh b hn
    omega
  | succ n ih =>
    intro v lh b hn hv hlevel hcall
    by_cases hvis : b ∈ v.visited
    · exact ⟨v, [], postorder_skip (.inl hvis), .refl hv, fun _ => hvis⟩
    by_cases hpar : L.parentLoopHeader b = lh
    · have hcall := hcall hvis hpar
      by_cases hloop : IsLoop G loops b
      · obtain ⟨v', new, hret, hprog, hb⟩ :=
          postorder_header R ih hn hv hlevel hvis hpar hcall hloop
        exact ⟨v', new, hret, hprog, fun _ => hb⟩
      · obtain ⟨v', new, hret, hprog, hb⟩ :=
          postorder_block R ih hn hv hlevel hvis hpar hcall hloop
        exact ⟨v', new, hret, hprog, fun _ => hb⟩
    · exact ⟨v, [], postorder_skip (.inr hpar), .refl hv, fun h => absurd h hpar⟩

end W16.Hydrogen
