import W16.SideEffects
import W16.ValueMap

/-!
# Global value numbering

`AnalyzeBlock` goes down the dominator tree with the map of the values computed so
far. Before a dominated block it kills what is changed on the paths to it, collected
by a walk over the predecessors with smaller and smaller ids, and at a loop header
what the loop changes. The graph itself is kept and the replacements are recorded in
their order; an operand is read through them.
-/
namespace W16.Hydrogen

open Relation NaturalLoop Dominance

set_option linter.dupNamespace false

variable {β ν ω : Type} [DecidableEq β] [DecidableEq ν] [DecidableEq ω]

/-- The instructions that were deleted, each with the one that replaces it. -/
abbrev Replacements (ν ω : Type) := List (HInstruction ν ω × HInstruction ν ω)

/-- `ReplaceAllUsesWith`, for all replacements so far. -/
def Replacements.use (log : Replacements ν ω) (v : ν) : ν :=
  log.foldl (fun v r => if v = r.1.id then r.2.id else v) v

/-- `Equals`, with the operands as they are now. -/
def Replacements.equals (log : Replacements ν ω) (i j : HInstruction ν ω) : Bool :=
  i.op = j.op ∧ i.useGvn = j.useGvn ∧ i.changesFlags = j.changesFlags ∧
    i.dependsOnFlags = j.dependsOnFlags ∧ i.operands.map log.use = j.operands.map log.use

/-- `Hashcode`, with the operands as they are now. -/
def Replacements.hash (hashcode : ω → List ν → Nat) (log : Replacements ν ω)
    (i : HInstruction ν ω) : Nat := hashcode i.op (i.operands.map log.use)

end W16.Hydrogen

/-!
## Value numbering replaces available values

The walk over the paths to a dominated block follows the edges with growing ids. A
loop on the way is passed through its header only, so what the body of such a loop
changes has to be changed on the walk, or by the loop of the dominated block, too.
Then every value in the map is available and so is every value that replaces another
one.
-/
namespace W16.Hydrogen

open Relation NaturalLoop Dominance

variable {β ν ω : Type} [DecidableEq β] {G : HGraph β} {P : HProgram β ν ω}
  {loops blocks : List β} {L : Loops β} {T : DomTree β} {S : SideEffects β} {a b c d x : β}
  {i j : HInstruction ν ω} {m : HValueMap ν ω}

/-- The edges that the walk from a dominated block back to `d` follows. -/
def WalkStep (G : HGraph β) (blocks : List β) (d p b : β) : Prop :=
  p ∈ G.predecessors b ∧ blockId blocks d < blockId blocks p ∧ blockId blocks p < blockId blocks b

/-- The walk from `c` back to `d` passes `x`. -/
def OnWalk (G : HGraph β) (blocks : List β) (d c x : β) : Prop :=
  TransGen (WalkStep G blocks d) x c

/-- What one call of the walk adds: all of it is found from `c`, its effects are
collected, and it is closed. -/
structure Collected (G : HGraph β) (blocks : List β) (S : SideEffects β) (d c : β)
    (st st' : List β × Finset GvnFlag) : Prop where
  visited : ∀ x ∈ st.1, x ∈ st'.1
  onWalk : ∀ x ∈ st'.1, x ∈ st.1 ∨ OnWalk G blocks d c x
  effects : st.2 ⊆ st'.2
  collected : ∀ x ∈ st'.1, x ∈ st.1 ∨ S.block x ⊆ st'.2
  closed : ∀ x ∈ st'.1, x ∈ st.1 ∨ ∀ p, WalkStep G blocks d p x → p ∈ st'.1

theorem Collected.refl {st : List β × Finset GvnFlag} : Collected G blocks S d c st st :=
  ⟨fun _ h => h, fun _ h => .inl h, Finset.Subset.refl _, fun _ h => .inl h, fun _ h => .inl h⟩

/-- The walk goes on from a predecessor that was not visited. -/
theorem Collected.visit {p : β} {st st₁ st₂ : List β × Finset GvnFlag} (h₁ : Collected G blocks S d c st st₁)
    (h₂ : Collected G blocks S d p (p :: st₁.1, st₁.2 ∪ S.block p) st₂)
    (hstep : WalkStep G blocks d p c) (hp : ∀ q, WalkStep G blocks d q p → q ∈ st₂.1) :
    Collected G blocks S d c st st₂ where
  visited := fun x hx => h₂.visited x (List.mem_cons_of_mem p (h₁.visited x hx))
  onWalk := by
    intro x hx
    rcases h₂.onWalk x hx with hx | hx
    · rcases List.mem_cons.1 hx with rfl | hx
      · exact .inr (.single hstep)
      · exact h₁.onWalk x hx
    · exact .inr (TransGen.tail hx hstep)
  effects := h₁.effects.trans (Finset.subset_union_left.trans h₂.effects)
  collected := by
    intro x hx
    rcases h₂.collected x hx with hx | hx
    · rcases List.mem_cons.1 hx with rfl | hx
      · exact .inr (Finset.subset_union_right.trans h₂.effects)
      · exact (h₁.collected x hx).imp_right fun hsub =>
          hsub.trans (Finset.subset_union_left.trans h₂.effects)
    · exact .inr hx
  closed := by
    intro x hx
    rcases h₂.closed x hx with hx | hx
    · rcases List.mem_cons.1 hx with rfl | hx
      · exact .inr hp
      · exact (h₁.closed x hx).imp_right fun hclos q hq =>
          h₂.visited q (List.mem_cons_of_mem p (hclos q hq))
    · exact .inr hx

/-- Every change in a loop that the walk passes is also made on the walk, or in the
loop of the dominated block. -/
def LoopsCovered (P : HProgram β ν ω) (loops blocks : List β) (T : DomTree β) : Prop :=
  ∀ d c, T.dominator c = some d → ∀ x, OnWalk P.toHGraph blocks d c x → IsLoop P.toHGraph loops x →
    ∀ b, P.InLoop loops x b → ∀ f ∈ blockChanges P b,
      (∃ y, OnWalk P.toHGraph blocks d c y ∧ f ∈ blockChanges P y) ∨
        IsLoop P.toHGraph loops c ∧ ∃ y, P.InLoop loops c y ∧ f ∈ blockChanges P y

/-- The blocks on the paths from `d` to `c`. -/
def Between (G : HGraph β) (loops blocks : List β) (d c b : β) : Prop :=
  StrictlyDominates G.Edge G.start d b ∧ (OnWalk G blocks d c b ∨
      ∃ x, (OnWalk G blocks d c x ∨ x = c) ∧ IsLoop G loops x ∧ G.InLoop loops x b)

theorem OnWalk.mem (N : Numbered G loops L blocks) (hc : c ∈ blocks)
    (hx : OnWalk G blocks d c x) : x ∈ blocks := by
  induction hx using TransGen.head_induction_on with
  | single hstep => exact N.predecessors _ hc _ hstep.1
  | head hstep _ ih => exact N.predecessors _ ih _ hstep.1

/-- The paths to `c` stay between `d` and `c`. -/
theorem Between.pred [Finite β] (N : Numbered G loops L blocks) (hc : c ∈ blocks)
    (hdom : StrictlyDominates G.Edge G.start d c) (hb : Between G loops blocks d c b ∨ b = c)
    (hedge : b ∈ G.successors a) : a = d ∨ Between G loops blocks d c a := by
  have hbdom : StrictlyDominates G.Edge G.start d b := by
    rcases hb with hb | rfl
    · exact hb.1
    · exact hdom
  rcases hbdom.pred hedge with had | had
  · exact .inl had.symm
  -- a predecessor of a block of the walk is on the walk or in its loop
  have hwalk : ∀ y, OnWalk G blocks d c y ∨ y = c → y ∈ G.successors a → Between G loops blocks d c a := by
    intro y hy hedge
    have hymem : y ∈ blocks := hy.elim (OnWalk.mem N hc) fun heq => heq ▸ hc
    have hpred : a ∈ G.predecessors y := N.edge_iff.1 hedge
    have hamem := N.predecessors y hymem a hpred
    have hlt := (N.blockId_lt_of_dominates had hamem).2
    refine ⟨had, ?_⟩
    by_cases hback : BackEdge G loops y a
    · exact .inr ⟨y, hy, hback.1, .latch hback⟩
    · have hstep : WalkStep G blocks d a y :=
        ⟨hpred, hlt, N.ordered.blockId_lt N.registered.built hamem ⟨hedge, hback⟩⟩
      rcases hy with hy | rfl
      · exact .inl (TransGen.head hstep hy)
      · exact .inl (.single hstep)
  rcases hb with ⟨-, hb | ⟨x, hx, hloop, hin⟩⟩ | rfl
  · exact .inr (hwalk b (.inl hb) hedge)
  · by_cases hbx : b = x
    · exact .inr (hwalk b (hbx ▸ hx) hedge)
    · exact .inr ⟨had, .inr ⟨x, hx, hloop, .pred hedge hbx hin⟩⟩
  · exact .inr (hwalk b (.inr rfl) hedge)

/-- What is changed between `d` and `c`. -/
theorem Between.changes (hcov : LoopsCovered P loops blocks T) (hd : T.dominator c = some d)
    (hb : Between P.toHGraph loops blocks d c b) {f : GvnFlag} (hf : f ∈ blockChanges P b) :
    (∃ y, OnWalk P.toHGraph blocks d c y ∧ f ∈ blockChanges P y) ∨
      IsLoop P.toHGraph loops c ∧ ∃ y, P.InLoop loops c y ∧ f ∈ blockChanges P y := by
  rcases hb.2 with hb | ⟨x, hx | rfl, hloop, hin⟩
  · exact .inl ⟨b, hb, hf⟩
  · exact hcov d c hd x hx hloop b hin f hf
  · exact .inr ⟨hloop, b, hin, hf⟩

/-- Available at the end of `d` and not changed on the walk: available in the
dominated block, unless its loop changes it. -/
theorem Available.dominated [Finite β] (N : Numbered P.toHGraph loops L blocks)
    (hT : Assigned P.toHGraph T blocks) (hS : Swept P L blocks S)
    (hcov : LoopsCovered P loops blocks T) (hd : T.dominator c = some d)
    (hi : Available P i (P.exit d))
    (hwalk : ∀ y, OnWalk P.toHGraph blocks d c y → Disjoint i.dependsOnFlags (blockChanges P y))
    (hloop : IsLoop P.toHGraph loops c → Disjoint i.dependsOnFlags (S.loop c)) :
    Available P i (c, 0) := by
  obtain ⟨hc, hdom⟩ := hT.dominates c d hd
  refine hi.region (Between P.toHGraph loops blocks d c) ?_ hdom.ne_start
    (fun a b hb hedge => Between.pred N hc hdom hb hedge) ?_
  · exact fun hstart => hstart.1.ne_start rfl
  · intro b hb j hj
    rw [Finset.disjoint_left]
    intro f hf hfi
    rcases hb.changes hcov hd (changes_subset_blockChanges hj hf) with
      ⟨y, hy, hfy⟩ | ⟨hc', y, hy, hfy⟩
    · exact Finset.disjoint_left.1 (hwalk y hy) hfi hfy
    · have hymem := (N.reachable y).2 (N.registered.built.reducible.entered hc' hy)
      exact Finset.disjoint_left.1 (hloop hc') hfi (hS.loop_effects N hymem hc' hy hfy)

variable [DecidableEq ν] [DecidableEq ω] {log log' : Replacements ν ω}
  {hashcode : ω → List ν → Nat} {p q : β × Nat} {k : Nat}

/-- The point is in a block with a smaller id or before `q` in the same block. -/
def Earlier (blocks : List β) (p q : β × Nat) : Prop :=
  blockId blocks p.1 < blockId blocks q.1 ∨ p.1 = q.1 ∧ p.2 < q.2

/-- The instruction `r.1` is replaced by the available instruction `r.2`, which was
not replaced itself. -/
structure Replaced (P : HProgram β ν ω) (log : Replacements ν ω)
    (r : HInstruction ν ω × HInstruction ν ω) : Prop where
  instruction : ∃ p, P.at p = some r.1 ∧ Available P r.2 p
  other : ∃ q, P.at q = some r.2
  useGvn : r.1.useGvn = true
  equals : log.equals r.2 r.1 = true
  ne : r.2.id ≠ r.1.id
  kept : ∀ r' ∈ log, r'.1.id ≠ r.2.id

/-- Each replacement is justified after those before it. -/
inductive Justified (P : HProgram β ν ω) : Replacements ν ω → Prop
  | nil : Justified P []
  | snoc {log : Replacements ν ω} {r : HInstruction ν ω × HInstruction ν ω} :
    Justified P log → Replaced P log r → Justified P (log ++ [r])

/-- The values of the map: instructions from before the point that were not
replaced. -/
structure Holds (P : HProgram β ν ω) (blocks : List β) (log : Replacements ν ω)
    (m : HValueMap ν ω) (p : β × Nat) : Prop where
  earlier : ∀ i ∈ m.array.flatten, ∃ q, P.at q = some i ∧ Earlier blocks q p
  kept : ∀ i ∈ m.array.flatten, ∀ r ∈ log, r.1.id ≠ i.id

/-- The replaced instructions are before the point `(b, k)` in `b` or not below `b`. -/
def Outside (P : HProgram β ν ω) (T : DomTree β) (b : β) (k : Nat) (log : Replacements ν ω) : Prop :=
  ∀ r ∈ log, ∃ q, P.at q = some r.1 ∧ (¬Below T b q.1 ∨ q.1 = b ∧ q.2 < k)

omit [DecidableEq ν] [DecidableEq ω] in
theorem Earlier.ne_id (hP : WellFormed P) (hp : P.at p = some i) (hq : P.at q = some j)
    (h : Earlier blocks p q) : i.id ≠ j.id := by
  intro heq
  have := hP.unique hp hq heq
  subst this
  rcases h with h | ⟨-, h⟩ <;> exact lt_irrefl _ h

/-- The state of the analysis at a point. -/
structure Analyzed (P : HProgram β ν ω) (blocks : List β) (T : DomTree β) (b : β) (k : Nat)
    (log : Replacements ν ω) (m : HValueMap ν ω) : Prop where
  justified : Justified P log
  available : ∀ i ∈ m.array.flatten, Available P i (b, k)
  holds : Holds P blocks log m (b, k)
  outside : Outside P T b k log

omit [DecidableEq β] [DecidableEq ν] [DecidableEq ω] in
theorem Outside.ne_id (hP : WellFormed P) (hlog : Outside P T b k log)
    (hj : P.at (b, k) = some j) {r : HInstruction ν ω × HInstruction ν ω} (hr : r ∈ log) :
    r.1.id ≠ j.id := by
  intro heq
  obtain ⟨q, hq, hplace⟩ := hlog r hr
  obtain rfl := hP.unique hq hj heq
  rcases hplace with hnot | ⟨-, hlt⟩
  · exact hnot .refl
  · exact lt_irrefl k hlt

/-- An instruction that changes nothing that the map depends on. -/
theorem Analyzed.skip {m' : HValueMap ν ω} (h : Analyzed P blocks T b k log m)
    (hj : P.at (b, k) = some j) (hm' : ∀ i ∈ m'.array.flatten, i ∈ m.array.flatten ∧
      Disjoint j.changesFlags i.dependsOnFlags) : Analyzed P blocks T b (k + 1) log m' where
  justified := h.justified
  available := by
    intro i hi
    obtain ⟨hmem, hdisj⟩ := hm' i hi
    refine (h.available i hmem).next ?_
    rintro ⟨j', hj', hkills⟩
    grind
  holds := by
    refine ⟨fun i hi => ?_, fun i hi => h.holds.kept i (hm' i hi).1⟩
    obtain ⟨q, hq, hlt⟩ := h.holds.earlier i (hm' i hi).1
    exact ⟨q, hq, hlt.imp_right fun h => ⟨h.1, Nat.lt_succ_of_lt h.2⟩⟩
  outside := by
    intro r hr
    obtain ⟨q, hq, hplace⟩ := h.outside r hr
    grind

/-- The instruction is replaced. -/
theorem Analyzed.replace {other : HInstruction ν ω} (hP : WellFormed P) (h : Analyzed P blocks T b k log m)
    (hj : P.at (b, k) = some j) (hgvn : j.useGvn = true) (hmem : other ∈ m.array.flatten)
    (hequals : log.equals other j = true) :
    Analyzed P blocks T b (k + 1) (log ++ [(j, other)]) m := by
  have hpure : j.changesFlags = ∅ := hP.pure hj hgvn
  have hnext := h.skip hj fun i hi => ⟨hi, by rw [hpure]; exact Finset.disjoint_empty_left _⟩
  obtain ⟨q, hq, hlt⟩ := h.holds.earlier other hmem
  refine ⟨h.justified.snoc ⟨⟨_, hj, h.available other hmem⟩, ⟨q, hq⟩, hgvn, hequals,
    hlt.ne_id hP hq hj, h.holds.kept other hmem⟩, hnext.available, ⟨hnext.holds.earlier, ?_⟩, ?_⟩
  · intro i hi r hr
    rcases List.mem_append.1 hr with hr | hr
    · exact h.holds.kept i hi r hr
    · rw [List.mem_singleton.1 hr]
      obtain ⟨q, hq, hlt⟩ := h.holds.earlier i hi
      exact (hlt.ne_id hP hq hj).symm
  · intro r hr
    rcases List.mem_append.1 hr with hr | hr
    · exact hnext.outside r hr
    grind

/-- The instruction is added to the map. -/
theorem Analyzed.add (hP : WellFormed P) (h : Analyzed P blocks T b k log m)
    (hj : P.at (b, k) = some j) (hgvn : j.useGvn = true) (hash : HInstruction ν ω → Nat) :
    Analyzed P blocks T b (k + 1) log (m.add hash j) := by
  have hpure : j.changesFlags = ∅ := hP.pure hj hgvn
  have hnext := h.skip hj fun i hi => ⟨hi, by rw [hpure]; exact Finset.disjoint_empty_left _⟩
  refine ⟨h.justified, fun i hi => ?_, ⟨fun i hi => ?_, fun i hi r hr => ?_⟩, hnext.outside⟩
  · rcases HValueMap.mem_insert hi with rfl | hi
    · exact available_of_at hj
    · exact hnext.available i hi
  · rcases HValueMap.mem_insert hi with rfl | hi
    · exact ⟨_, hj, .inr ⟨rfl, Nat.lt_succ_self k⟩⟩
    · exact hnext.holds.earlier i hi
  · rcases HValueMap.mem_insert hi with rfl | hi
    · exact h.outside.ne_id hP hj hr
    · exact h.holds.kept i hi r hr

/-- The state in which a block is entered. What the loop of a header changes is still
in the map. -/
structure Entered (P : HProgram β ν ω) (loops blocks : List β) (T : DomTree β)
    (S : SideEffects β) (b : β) (log : Replacements ν ω) (m : HValueMap ν ω) : Prop where
  justified : Justified P log
  available : ∀ i ∈ m.array.flatten,
    (IsLoop P.toHGraph loops b → Disjoint i.dependsOnFlags (S.loop b)) → Available P i (b, 0)
  holds : Holds P blocks log m (b, 0)
  outside : Outside P T b 0 log

/-- The replacements in the blocks below the children `cs`. -/
def InChildren (P : HProgram β ν ω) (T : DomTree β) (cs : List β) (log log' : Replacements ν ω) : Prop :=
  ∀ r ∈ log', r ∈ log ∨ ∃ c ∈ cs, ∃ q, P.at q = some r.1 ∧ Below T c q.1

/-- A child is entered after some of its siblings have been analyzed. -/
theorem Analyzed.child [Finite β] (hP : WellFormed P) (N : Numbered P.toHGraph loops L blocks)
    (hT : Assigned P.toHGraph T blocks) (hS : Swept P L blocks S)
    (hcov : LoopsCovered P loops blocks T) {cs : List β} {m' : HValueMap ν ω}
    (h : Analyzed P blocks T d (P.instructions d).length log m) (hd : T.dominator c = some d)
    (hcs : ∀ c' ∈ cs, T.dominator c' = some d ∧ c' ≠ c) (hlog' : Justified P log')
    (hchildren : InChildren P T cs log log')
    (hm' : ∀ i ∈ m'.array.flatten, i ∈ m.array.flatten ∧
      ∀ y, OnWalk P.toHGraph blocks d c y → Disjoint i.dependsOnFlags (blockChanges P y)) :
    Entered P loops blocks T S c log' m' := by
  have hlt := blockId_up N hT (.single hd)
  have hearlier : ∀ i ∈ m'.array.flatten, ∃ q, P.at q = some i ∧ blockId blocks q.1 ≤ blockId blocks d := by
    intro i hi
    obtain ⟨q, hq, hplace⟩ := h.holds.earlier i (hm' i hi).1
    refine ⟨q, hq, ?_⟩
    rcases hplace with hplace | ⟨heq, -⟩
    · exact hplace.le
    · exact (congrArg (blockId blocks) heq).le
  refine ⟨hlog', fun i hi hloop => ?_, ⟨fun i hi => ?_, fun i hi r hr => ?_⟩, fun r hr => ?_⟩
  · obtain ⟨hmem, hwalk⟩ := hm' i hi
    exact (h.available i hmem).dominated N hT hS hcov hd hwalk hloop
  · obtain ⟨q, hq, hle⟩ := hearlier i hi
    exact ⟨q, hq, .inl (lt_of_le_of_lt hle hlt)⟩
  · rcases hchildren r hr with hr | ⟨c', hc', q', hq', hbelow⟩
    · exact h.holds.kept i (hm' i hi).1 r hr
    · obtain ⟨q, hq, hle⟩ := hearlier i hi
      have hle' := hbelow.blockId_le N hT
      have hlt' := blockId_up N hT (.single (hcs c' hc').1)
      have hplace : Earlier blocks q q' := .inl (by omega)
      exact (hplace.ne_id hP hq hq').symm
  · rcases hchildren r hr with hr | ⟨c', hc', q, hq, hbelow⟩
    · obtain ⟨q, hq, hplace⟩ := h.outside r hr
      refine ⟨q, hq, .inl fun hbelow => ?_⟩
      rcases hplace with hnot | ⟨heq, -⟩
      · exact hnot (ReflTransGen.tail hbelow hd)
      · have hle := hbelow.blockId_le N hT
        rw [heq] at hle
        omega
    · refine ⟨q, hq, .inl fun hbelow' => (hcs c' hc').2 ?_⟩
      refine up_eq_of_parent_eq (fun x hx => ?_) hbelow hbelow' ((hcs c' hc').1.trans hd.symm)
      exact lt_irrefl _ (blockId_up N hT hx)

end W16.Hydrogen
