import W16.SideEffects

/-!
# Loop invariant code motion

`LoopInvariantCodeMotion` visits the loop headers from the last to the first, inner
loops before outer ones. An instruction of the loop that depends on nothing the loop
changes and whose operands are not defined after the pre-header is moved to the end of
the pre-header, where it may be found again as an instruction of an outer loop.
-/
namespace W16.Hydrogen

open Relation NaturalLoop Dominance List Function

set_option linter.dupNamespace false

variable {β ν ω : Type} [DecidableEq β]

/-- The values that are defined in a block. -/
def HProgram.defined (P : HProgram β ν ω) (b : β) : List ν :=
  (P.phis b).map HPhi.id ++ (P.instructions b).map HInstruction.id

section Model

variable [DecidableEq ν] [DecidableEq ω]

/-- `IsDefinedAfter`. -/
def isDefinedAfter (P : HProgram β ν ω) (blocks : List β) (x : ν) (other : β) : Bool :=
  blocks.any fun b => blockId blocks b > blockId blocks other ∧ x ∈ P.defined b

/-- `InsertBefore(pre_header->end())`. -/
def insertBeforeEnd (l : List (HInstruction ν ω)) (i : HInstruction ν ω) :
    List (HInstruction ν ω) := l.dropLast ++ i :: l.getLast?.toList

/-- `Unlink` and `InsertBefore`. -/
def HProgram.move (P : HProgram β ν ω) (block preHeader : β) (i : HInstruction ν ω) : HProgram β ν ω :=
  { P with
    instructions := Function.update
      (Function.update P.instructions block ((P.instructions block).erase i)) preHeader
      (insertBeforeEnd (P.instructions preHeader) i) }

/-- What decides whether `ProcessLoopBlock` moves an instruction; `allow` is
`AllowCodeMotion` and `deoptimizing` the mark of the blocks. -/
def shouldMove (allow : Bool) (deoptimizing : β → Bool) (blocks : List β) (preHeader : β)
    (loopKills : Finset GvnFlag) (block : β) (P : HProgram β ν ω) (i : HInstruction ν ω) : Bool :=
  i.useGvn ∧ i.dependsOnFlags ∩ loopKills = ∅ ∧
    (∀ x ∈ i.operands, ¬isDefinedAfter P blocks x preHeader) ∧ allow ∧ ¬deoptimizing block

def processLoopBlock (allow : Bool) (deoptimizing : β → Bool) (blocks : List β)
    (loopHeader : β) (loopKills : Finset GvnFlag) (P : HProgram β ν ω) (block : β) :
    HProgram β ν ω :=
  match (P.predecessors loopHeader).head? with
  | none => P
  | some preHeader => (P.instructions block).foldl (fun P i =>
      if shouldMove allow deoptimizing blocks preHeader loopKills block P i then
        P.move block preHeader i
      else P) P

/-- The blocks from a loop header to its last back edge. -/
def processLoop (allow : Bool) (deoptimizing : β → Bool) (L : Loops β) (blocks : List β)
    (S : SideEffects β) (P : HProgram β ν ω) (block : β) : HProgram β ν ω :=
  if L.isLoopHeader block then
    match getLastBackEdge L blocks block with
    | none => P
    | some last =>
      ((blocks.take (blockId blocks last + 1)).drop (blockId blocks block)).foldl
        (processLoopBlock allow deoptimizing blocks block (S.loop block)) P
  else P

def loopInvariantCodeMotion (allow : Bool) (deoptimizing : β → Bool) (L : Loops β)
    (blocks : List β) (S : SideEffects β) (P : HProgram β ν ω) : HProgram β ν ω :=
  blocks.reverse.foldl (processLoop allow deoptimizing L blocks S) P

end Model

/-- The value is defined in the block before the instructions after `front`, or in a
block that dominates it. -/
def Usable (P : HProgram β ν ω) (x : ν) (b : β) (front : List (HInstruction ν ω)) : Prop :=
  x ∈ (P.phis b).map HPhi.id ∨ x ∈ front.map HInstruction.id ∨
    ∃ d, StrictlyDominates P.Edge P.start d b ∧ x ∈ P.defined d

/-- What `HInstruction::Verify` and `HPhi::Verify` check, and what the constructors of
the instructions guarantee: a control instruction ends each block, has no side effects
and no uses. -/
structure Verified (P : HProgram β ν ω) : Prop where
  nodup : ∀ b, (P.defined b).Nodup
  unique : ∀ {b c x}, x ∈ P.defined b → x ∈ P.defined c → b = c
  operands : ∀ {b front} {i : HInstruction ν ω} {rest}, P.instructions b = front ++ i :: rest → ∀ x ∈ i.operands, Usable P x b front
  phiOperands : ∀ {s φ}, φ ∈ P.phis s → ∀ (n : Nat) p, (P.predecessors s)[n]? = some p →
    ∃ x, φ.operands[n]? = some x ∧ Usable P x p (P.instructions p)
  pure : ∀ {b i}, i ∈ P.instructions b → i.useGvn = true → i.changesFlags = ∅
  finished : ∀ b, ∃ front i, P.instructions b = front ++ [i]
  control : ∀ {b front} {i : HInstruction ν ω}, P.instructions b = front ++ [i] →
    i.useGvn = false ∧ i.changesFlags = ∅ ∧ ∀ c, ∀ j ∈ P.instructions c, i.id ∉ j.operands

/-- `P'` comes from `P` by moving `i` from `b` to the end of `p`. -/
structure Moves (P P' : HProgram β ν ω) (b p : β) (i : HInstruction ν ω)
    (front rest before : List (HInstruction ν ω)) (last : HInstruction ν ω) : Prop where
  graph : P'.toHGraph = P.toHGraph
  phis : P'.phis = P.phis
  ne : b ≠ p
  source : P.instructions b = front ++ i :: rest
  source' : P'.instructions b = front ++ rest
  target : P.instructions p = before ++ [last]
  target' : P'.instructions p = before ++ [i, last]
  others : ∀ c, c ≠ b → c ≠ p → P'.instructions c = P.instructions c

variable {P P' : HProgram β ν ω} {loops blocks : List β} {L : Loops β} {b c d h p : β} {x : ν}
  {i j : HInstruction ν ω} {front rest before : List (HInstruction ν ω)}
  {last : HInstruction ν ω}

omit [DecidableEq β] in
theorem mem_defined : x ∈ P.defined b ↔
    x ∈ (P.phis b).map HPhi.id ∨ x ∈ (P.instructions b).map HInstruction.id := mem_append

omit [DecidableEq β] in
theorem id_mem_defined (hi : i ∈ P.instructions b) : i.id ∈ P.defined b :=
  mem_defined.2 (.inr (mem_map_of_mem hi))

theorem move_moves [DecidableEq ν] [DecidableEq ω] (hP : Verified P) (hi : i ∈ P.instructions b) (hne : b ≠ p) :
    ∃ front rest before last, Moves P (P.move b p i) b p i front rest before last := by
  obtain ⟨front, rest, hsplit⟩ := append_of_mem hi
  obtain ⟨before, last, hlast⟩ := hP.finished p
  have hfront : i ∉ front := by
    intro hmem
    have hnodup := (nodup_append.1 (hP.nodup b)).2.1
    rw [hsplit, map_append, map_cons, nodup_append] at hnodup
    exact hnodup.2.2 i.id (mem_map_of_mem hmem) i.id mem_cons_self rfl
  refine ⟨front, rest, before, last, rfl, rfl, hne, hsplit, ?_, hlast, ?_, ?_⟩
  · simp only [HProgram.move, update_of_ne hne, update_self]
    grind
  · simp [HProgram.move, insertBeforeEnd, hlast]
  simp_all [HProgram.move]

/-- The conditions under which `i` is moved from the block `b` of the loop of `h` to
the pre-header `p`. -/
structure Movable (P : HProgram β ν ω) (loops blocks : List β) (h p b : β) (i : HInstruction ν ω) : Prop where
  loop : IsLoop P.toHGraph loops h
  preHeader : ∃ rest, P.predecessors h = p :: rest
  inLoop : P.InLoop loops h b
  useGvn : i.useGvn = true
  unchanged : ∀ c, P.InLoop loops h c → ∀ j ∈ P.instructions c, Disjoint j.changesFlags i.dependsOnFlags
  operands : ∀ x ∈ i.operands, ∀ c ∈ blocks, x ∈ P.defined c → blockId blocks c ≤ blockId blocks p

namespace Movable

variable (V : Movable P loops blocks h p b i) (N : Numbered P.toHGraph loops L blocks)

include V N

theorem dominates (hc : P.InLoop loops h c) : StrictlyDominates P.Edge P.start p c := by
  obtain ⟨rest, hpreds⟩ := V.preHeader
  exact N.preHeader_dominates V.loop hpreds hc

theorem mem_blocks (hc : P.InLoop loops h c) : c ∈ blocks :=
  (N.reachable c).2 (N.registered.built.reducible.entered V.loop hc)

theorem blockId_lt [Finite β] (hc : P.InLoop loops h c) : p ∈ blocks ∧ blockId blocks p < blockId blocks c :=
  N.blockId_lt_of_dominates (V.dominates N hc) (V.mem_blocks N hc)

theorem ne_preHeader [Finite β] (hc : P.InLoop loops h c) : c ≠ p := by
  rintro rfl
  exact lt_irrefl _ (V.blockId_lt N hc).2

/-- What dominates a block of the loop and is not after the pre-header dominates the
pre-header. -/
theorem dominates_preHeader [Finite β] (hc : P.InLoop loops h c)
    (hd : StrictlyDominates P.Edge P.start d c) (hle : blockId blocks d ≤ blockId blocks p) :
    Dominates P.Edge P.start d p := by
  have hout : ∀ {y}, P.InLoop loops h y → y ≠ d := by
    rintro y hy rfl
    have := (V.blockId_lt N hy).2
    omega
  have hhead : StrictlyDominates P.Edge P.start d h := by
    refine ⟨(hout .header).symm, fun hpath => hd.2 ?_⟩
    -- from the header on the path stays in the loop
    refine hpath.trans (ReflTransGen.mono (fun y z hstep => ?_) _ _
      (N.registered.built.reducible.inside V.loop hc))
    exact ⟨hstep.1, hout hstep.2.1⟩
  obtain ⟨rest, hpreds⟩ := V.preHeader
  exact hhead.pred (N.edge_iff.2 (by simp [hpreds]))

/-- The operands are defined at the end of the pre-header. -/
theorem operand_usable [Finite β] (hP : Verified P) (hM : Moves P P' b p i front rest before last)
    (hx : x ∈ i.operands) : Usable P x p before := by
  have hb := V.mem_blocks N V.inLoop
  have hlt := (V.blockId_lt N V.inLoop).2
  have hblock : x ∉ P.defined b := fun hmem => by
    have := V.operands x hx b hb hmem
    omega
  have hi : i ∈ P.instructions b := by simp [hM.source]
  rcases hP.operands hM.source x hx with hphi | hfront | ⟨d, hd, hmem⟩
  · exact absurd (mem_defined.2 (.inl hphi)) hblock
  · refine absurd (mem_defined.2 (.inr ?_)) hblock
    rw [hM.source, map_append]
    exact mem_append_left _ hfront
  · have hdb := (N.blockId_lt_of_dominates hd hb).1
    rcases V.dominates_preHeader N V.inLoop hd (V.operands x hx d hdb hmem) with rfl | hdp
    · rcases mem_defined.1 hmem with hphi | hmem
      · exact .inl hphi
      · rw [hM.target, map_append, mem_append] at hmem
        rcases hmem with hmem | hmem
        · exact .inr (.inl hmem)
        · rw [map_singleton, mem_singleton] at hmem
          exact absurd (hmem ▸ hx) ((hP.control hM.target).2.2 b i hi)
    · exact .inr (.inr ⟨d, hdp, hmem⟩)

end Movable

section Preserved

variable (hM : Moves P P' b p i front rest before last)

include hM

omit [DecidableEq β] in
theorem Moves.mem_source : i ∈ P.instructions b := by simp [hM.source]

omit [DecidableEq β] in
theorem Moves.mem_target : i ∈ P'.instructions p := by simp [hM.target']

/-- The moved instruction is in the pre-header, and all others stay in their blocks. -/
theorem Moves.mem_iff (hj : j ≠ i) : j ∈ P'.instructions c ↔ j ∈ P.instructions c := by
  by_cases hcb : c = b
  · subst hcb
    simp [hM.source, hM.source', hj]
  by_cases hcp : c = p
  · subst hcp
    simp [hM.target, hM.target', hj]
  · rw [hM.others c hcb hcp]

/-- So are the values, apart from the moved one. -/
theorem Moves.defined_iff (hx : x ≠ i.id) : x ∈ P'.defined c ↔ x ∈ P.defined c := by
  rw [mem_defined, mem_defined, hM.phis]
  by_cases hcb : c = b
  · subst hcb
    simp [hM.source, hM.source', hx]
  by_cases hcp : c = p
  · subst hcp
    simp [hM.target, hM.target', hx]
  · rw [hM.others c hcb hcp]

theorem Moves.defined_moved (hP : Verified P) : i.id ∈ P'.defined c ↔ c = p := by
  have hi := id_mem_defined hM.mem_source
  constructor
  · intro hmem
    by_contra hcp
    by_cases hcb : c = b
    · subst hcb
      rw [HProgram.defined, hM.phis, hM.source', map_append, ← append_assoc] at hmem
      have hnodup := hP.nodup c
      rw [HProgram.defined, hM.source, map_append, map_cons, ← append_assoc,
        nodup_middle, nodup_cons] at hnodup
      exact hnodup.1 hmem
    · rw [HProgram.defined, hM.phis, hM.others c hcb hcp] at hmem
      exact hcb (hP.unique hmem hi)
  · rintro rfl
    exact id_mem_defined hM.mem_target

/-- A use stays behind the definition. -/
theorem Moves.usable [Finite β] (hP : Verified P) (V : Movable P loops blocks h p b i)
    (N : Numbered P.toHGraph loops L blocks) {here here' : List (HInstruction ν ω)}
    (hx : Usable P x c here)
    (hhere : ∀ y ∈ here.map HInstruction.id, y ≠ i.id → y ∈ here'.map HInstruction.id)
    (hmoved : i.id ∈ here.map HInstruction.id → c = b) : Usable P' x c here' := by
  have hdom := V.dominates N V.inLoop
  rw [Usable, hM.phis, hM.graph]
  rcases hx with hphi | hmem | ⟨d, hd, hmem⟩
  · exact .inl hphi
  · by_cases hxi : x = i.id
    · subst hxi
      obtain rfl := hmoved hmem
      exact .inr (.inr ⟨p, hdom, (hM.defined_moved hP).2 rfl⟩)
    · exact .inr (.inl (hhere x hmem hxi))
  · by_cases hxi : x = i.id
    · subst hxi
      obtain rfl := hP.unique hmem (id_mem_defined hM.mem_source)
      refine .inr (.inr ⟨p, hdom.trans hd ?_, (hM.defined_moved hP).2 rfl⟩)
      rintro rfl
      have h₁ := V.blockId_lt N V.inLoop
      have h₂ := N.blockId_lt_of_dominates hd h₁.1
      omega
    · exact .inr (.inr ⟨d, hd, (hM.defined_iff hxi).2 hmem⟩)

theorem Moves.nodup (hP : Verified P) (c : β) : (P'.defined c).Nodup := by
  rw [HProgram.defined, hM.phis]
  have hnodup := hP.nodup c
  rw [HProgram.defined] at hnodup
  by_cases hcb : c = b
  · subst hcb
    rw [hM.source, map_append, map_cons, ← append_assoc, nodup_middle,
      nodup_cons] at hnodup
    rw [hM.source', map_append, ← append_assoc]
    exact hnodup.2
  by_cases hcp : c = p
  · subst hcp
    have hnot : i.id ∉ P.defined c := fun hmem =>
      hM.ne (hP.unique (id_mem_defined hM.mem_source) hmem)
    rw [HProgram.defined, hM.target, map_append, ← append_assoc] at hnot
    rw [hM.target, map_append, ← append_assoc] at hnodup
    rw [hM.target', map_append, map_cons, ← append_assoc, nodup_middle]
    exact nodup_cons.2 ⟨hnot, hnodup⟩
  · rw [hM.others c hcb hcp]
    exact hnodup

theorem Moves.unique (hP : Verified P) {c d : β} (hc : x ∈ P'.defined c) (hd : x ∈ P'.defined d) : c = d := by
  by_cases hxi : x = i.id
  · subst hxi
    rw [(hM.defined_moved hP).1 hc, (hM.defined_moved hP).1 hd]
  · exact hP.unique ((hM.defined_iff hxi).1 hc) ((hM.defined_iff hxi).1 hd)

/-- Where an instruction of the new graph was before, and what was before it. -/
theorem Moves.split {here there : List (HInstruction ν ω)} (hsplit : P'.instructions c = here ++ j :: there) :
    (c = p ∧ j = i ∧ here = before) ∨ ∃ here₀ there₀, P.instructions c = here₀ ++ j :: there₀ ∧
      ∀ y ∈ here₀.map HInstruction.id, y ≠ i.id → y ∈ here.map HInstruction.id := by
  by_cases hcb : c = b
  · subst hcb
    rw [hM.source'] at hsplit
    right
    rcases append_eq_append_iff.1 hsplit with ⟨t, hhere, hthere⟩ | ⟨t, hfront, hthere⟩
    · refine ⟨front ++ i :: t, there, ?_, ?_⟩
      · rw [hM.source, hthere]
        simp
      grind
    · cases t with
      | nil =>
        refine ⟨front ++ [i], there, ?_, ?_⟩
        · rw [hM.source]
          simpa using hthere.symm
        grind
      | cons j' t =>
        obtain ⟨rfl, hthere⟩ := List.cons.inj hthere
        refine ⟨here, t ++ i :: rest, ?_, fun _ hy _ => hy⟩
        rw [hM.source, hfront]
        simp
  by_cases hcp : c = p
  · subst hcp
    rw [hM.target'] at hsplit
    rcases append_eq_append_iff.1 hsplit with ⟨t, hhere, hthere⟩ | ⟨t, hbefore, hthere⟩
    · rcases t with _ | ⟨k, t⟩
      · grind
      · -- behind the moved instruction there is only the last one
        obtain ⟨rfl, hlast⟩ := List.cons.inj hthere
        obtain ⟨rfl, rfl, rfl⟩ : t = [] ∧ j = last ∧ there = [] := by
          rcases t with _ | ⟨k, t⟩
          · grind
          · have := (List.cons.inj hlast).2
            simp at this
        refine .inr ⟨before, [], hM.target, fun y hy _ => ?_⟩
        grind
    · rcases t with _ | ⟨k, t⟩
      · grind
      · obtain ⟨rfl, hthere⟩ := List.cons.inj hthere
        refine .inr ⟨here, t ++ [last], ?_, fun _ hy _ => hy⟩
        rw [hM.target, hbefore]
        simp
  · rw [hM.others c hcb hcp] at hsplit
    exact .inr ⟨here, there, hsplit, fun _ hy _ => hy⟩

/-- The last instruction of a block stays the last one. -/
theorem Moves.last_iff (hP : Verified P) (hgvn : i.useGvn = true) :
    (∃ here, P'.instructions c = here ++ [j]) ↔ ∃ here, P.instructions c = here ++ [j] := by
  by_cases hcb : c = b
  · subst hcb
    rcases eq_nil_or_concat rest with rfl | ⟨rest', k, rfl⟩
    · have := (hP.control hM.source).1
      rw [hgvn] at this
      cases this
    · rw [concat_eq_append] at hM
      rw [hM.source, hM.source']
      constructor
      · rintro ⟨here, heq⟩
        obtain ⟨-, hkj⟩ := append_inj' ((append_assoc _ _ _).trans heq) rfl
        grind
      · grind [append_inj']
  by_cases hcp : c = p
  · subst hcp
    rw [hM.target, hM.target']
    constructor
    · rintro ⟨here, heq⟩
      have heq' : (before ++ [i]) ++ [last] = here ++ [j] := by simpa using heq
      grind [append_inj']
    · rintro ⟨here, heq⟩
      obtain ⟨-, hkj⟩ := append_inj' heq rfl
      rw [singleton_inj.1 hkj]
      exact ⟨before ++ [i], by simp⟩
  · rw [hM.others c hcb hcp]

/-- The graph is still verified. -/
theorem Moves.verified [Finite β] (hP : Verified P) (V : Movable P loops blocks h p b i)
    (N : Numbered P.toHGraph loops L blocks) : Verified P' where
  nodup := hM.nodup hP
  unique := hM.unique hP
  operands := by
    intro c here j there hsplit x hx
    have hmoved : ∀ {l : List (HInstruction ν ω)}, l ⊆ P.instructions c →
        i.id ∈ l.map HInstruction.id → c = b := by
      intro l hl hmem
      obtain ⟨k, hk, hid⟩ := mem_map.1 hmem
      exact hP.unique (hid ▸ id_mem_defined (hl hk)) (id_mem_defined hM.mem_source)
    rcases hM.split hsplit with ⟨rfl, rfl, rfl⟩ | ⟨here₀, there₀, hsplit₀, hhere⟩
    · refine hM.usable hP V N (V.operand_usable N hP hM hx) (fun _ hy _ => hy) ?_
      exact hmoved (by simp [hM.target])
    · exact hM.usable hP V N (hP.operands hsplit₀ x hx) hhere (hmoved (by simp [hsplit₀]))
  phiOperands := by
    intro s φ hφ n q hq
    rw [hM.phis] at hφ
    rw [hM.graph] at hq
    obtain ⟨x, hx, huse⟩ := hP.phiOperands hφ n q hq
    refine ⟨x, hx, hM.usable hP V N huse (fun y hy hne => ?_) fun hmem => ?_⟩
    · obtain ⟨k, hk, rfl⟩ := mem_map.1 hy
      exact mem_map_of_mem ((hM.mem_iff (by rintro rfl; exact hne rfl)).2 hk)
    · exact hP.unique (mem_defined.2 (.inr hmem)) (id_mem_defined hM.mem_source)
  pure := by
    intro c j hj hgvn
    by_cases hji : j = i
    · subst hji
      exact hP.pure hM.mem_source hgvn
    · exact hP.pure ((hM.mem_iff hji).1 hj) hgvn
  finished := by
    intro c
    obtain ⟨here, j, hj⟩ := hP.finished c
    obtain ⟨here', hj'⟩ := (hM.last_iff hP V.useGvn).2 ⟨here, hj⟩
    exact ⟨here', j, hj'⟩
  control := by
    intro c here j hj
    obtain ⟨here₀, hj₀⟩ := (hM.last_iff hP V.useGvn).1 ⟨here, hj⟩
    obtain ⟨hgvn, hchanges, hunused⟩ := hP.control hj₀
    refine ⟨hgvn, hchanges, fun d k hk => ?_⟩
    by_cases hki : k = i
    · subst hki
      exact hunused b k hM.mem_source
    · exact hunused d k ((hM.mem_iff hki).1 hk)

end Preserved

end W16.Hydrogen
