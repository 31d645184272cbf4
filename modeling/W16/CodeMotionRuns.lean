import W16.CodeMotion
import W16.HydrogenFlow

/-!
# Code motion preserves runs

After an instruction was moved to the pre-header, its value is computed before the
loop is entered. Nothing in the loop changes its operands or what it depends on, so
inside of the loop the value is the one that the instruction would compute, and
wherever the instruction was usable the values are the same.
-/
namespace W16.Hydrogen

open Relation NaturalLoop Dominance List Option Function

set_option linter.dupNamespace false

variable {β ν ω τ κ : Type} [DecidableEq β] [DecidableEq ν] {M : Semantics ω τ κ}
  {P P' P'' : HProgram β ν ω} {loops blocks : List β} {L : Loops β} {b c h p s : β} {x : ν}
  {i j : HInstruction ν ω} {front rest before here : List (HInstruction ν ω)}
  {last : HInstruction ν ω} {e e' : Config ν τ κ}

omit [DecidableEq β] [DecidableEq ν] in
theorem Semantics.Respects.depends_of_mem (hM : M.Respects P) (hi : i ∈ P.instructions b)
    (hgvn : i.useGvn = true) (args : List τ) {σ σ' : GvnFlag → κ}
    (hσ : ∀ f ∈ i.dependsOnFlags, σ f = σ' f) : M.eval i.op args σ = M.eval i.op args σ' := by
  obtain ⟨k, hk⟩ := mem_iff_getElem?.1 hi
  exact hM.depends (p := (b, k)) hk hgvn args σ σ' hσ

omit [DecidableEq β] [DecidableEq ν] in
theorem Semantics.Respects.changes_of_mem (hM : M.Respects P) (hi : i ∈ P.instructions b)
    (args : List τ) (σ : GvnFlag → κ) {f : GvnFlag} (hf : f ∉ i.changesFlags) :
    M.effect i.op args σ f = σ f := by
  obtain ⟨k, hk⟩ := mem_iff_getElem?.1 hi
  exact hM.changes (p := (b, k)) hk args σ f hf

omit [DecidableEq β] [DecidableEq ν] in
theorem Verified.eq_of_id (hP : Verified P) (hi : i ∈ P.instructions b)
    (hj : j ∈ P.instructions c) (hid : i.id = j.id) : i = j := by
  obtain rfl := hP.unique (id_mem_defined hi) (hid ▸ id_mem_defined hj)
  exact inj_on_of_nodup_map (nodup_append.1 (hP.nodup b)).2.1 hi hj hid

/-- The values of the two graphs after the instructions `here` of the block `b`. -/
structure Hoisted (M : Semantics ω τ κ) (P : HProgram β ν ω) (loops : List β) (h : β)
    (i : HInstruction ν ω) (b : β) (here : List (HInstruction ν ω)) (e e' : Config ν τ κ) :
    Prop where
  state : e'.state = e.state
  others : ∀ v, v ≠ i.id → e'.values v = e.values v
  usable : Usable P i.id b here → e'.values i.id = e.values i.id
  active : P.InLoop loops h b → e'.values i.id = M.eval i.op (i.operands.map e.values) e.state

omit [DecidableEq β] [DecidableEq ν] in
theorem Hoisted.value (hH : Hoisted M P loops h i b here e e') (hx : Usable P x b here) :
    e'.values x = e.values x := by
  by_cases hxi : x = i.id
  · subst hxi
    exact hH.usable hx
  · exact hH.others x hxi

omit [DecidableEq β] [DecidableEq ν] in
theorem Usable.append (hx : Usable P x b here) : Usable P x b (here ++ rest) := by
  refine hx.imp_right fun hx => hx.imp_left fun hx => ?_
  grind

section Step

variable [Finite β] (hM : M.Respects P) (hP : Verified P) (V : Movable P loops blocks h p b i)
  (N : Numbered P.toHGraph loops L blocks) (hi : i ∈ P.instructions b)

include V N in
omit [DecidableEq ν] in
/-- The operands are not defined in the loop. -/
theorem Movable.operand_ne (hc : P.InLoop loops h c) {y : ν} (hy : y ∈ P.defined c)
    (hx : x ∈ i.operands) : x ≠ y := by
  rintro rfl
  have hle := V.operands x hx c (V.mem_blocks N hc) hy
  have hlt := (V.blockId_lt N hc).2
  omega

include hM hP V N hi

/-- Another instruction in both graphs. -/
theorem Hoisted.execute (hH : Hoisted M P loops h i c here e e')
    (hsplit : P.instructions c = here ++ j :: rest) (hji : j ≠ i) :
    Hoisted M P loops h i c (here ++ [j]) (M.execute e j) (M.execute e' j) := by
  have hj : j ∈ P.instructions c := by simp [hsplit]
  have hid : j.id ≠ i.id := fun hid => hji (hP.eq_of_id hj hi hid)
  have hargs := map_congr_left fun x hx => hH.value (hP.operands hsplit x hx)
  refine ⟨?_, fun v hv => ?_, fun huse => ?_, fun hin => ?_⟩
  · show M.effect j.op _ e'.state = M.effect j.op _ e.state
    rw [hargs, hH.state]
  · show Function.update e'.values j.id (M.eval j.op _ e'.state) v =
      Function.update e.values j.id (M.eval j.op _ e.state) v
    rw [hargs, hH.state]
    by_cases hvj : v = j.id
    · grind
    · rw [update_of_ne hvj, update_of_ne hvj]
      exact hH.others v hv
  · have hbefore : Usable P i.id c here := by
      refine huse.imp_right fun h => h.imp_left fun h => ?_
      grind
    show Function.update e'.values j.id _ i.id = Function.update e.values j.id _ i.id
    rw [update_of_ne hid.symm, update_of_ne hid.symm]
    exact hH.usable hbefore
  · have hargs' : i.operands.map (M.execute e j).values = i.operands.map e.values :=
      map_congr_left fun x hx => update_of_ne (V.operand_ne N hin (id_mem_defined hj) hx) _ _
    show Function.update e'.values j.id _ i.id = _
    rw [update_of_ne hid.symm, hargs', hH.active hin]
    refine hM.depends_of_mem hi V.useGvn _ fun f hf => (hM.changes_of_mem hj _ _ fun hfj => ?_).symm
    exact Finset.disjoint_left.1 (V.unchanged c hin j hj) hfj hf

/-- A part of a block that is the same in both graphs. -/
theorem Hoisted.executeAll (l : List (HInstruction ν ω)) (hl : i ∉ l)
    (hH : Hoisted M P loops h i c here e e') (hsplit : here ++ l <+: P.instructions c) :
    Hoisted M P loops h i c (here ++ l) (l.foldl M.execute e) (l.foldl M.execute e') := by
  induction l generalizing here e e' with
  | nil => simpa using hH
  | cons j l ih =>
    rw [mem_cons, not_or] at hl
    obtain ⟨rest, hrest⟩ := hsplit
    have hsplit : P.instructions c = here ++ j :: (l ++ rest) := by simp [← hrest]
    have hj := hH.execute hM hP V N hi hsplit (Ne.symm hl.1)
    have := ih hl.2 hj ⟨rest, by simp [← hrest]⟩
    simpa using this

/-- The moved instruction where it was. -/
theorem Hoisted.source (hH : Hoisted M P loops h i b here e e') :
    Hoisted M P loops h i b (here ++ [i]) (M.execute e i) e' := by
  have hstate : (M.execute e i).state = e.state := by
    funext f
    refine hM.changes_of_mem hi _ _ ?_
    rw [hP.pure hi V.useGvn]
    exact Finset.notMem_empty f
  have hvalue : (M.execute e i).values i.id = M.eval i.op (i.operands.map e.values) e.state :=
    update_self _ _ _
  refine ⟨hH.state.trans hstate.symm, fun v hv => ?_, fun _ => ?_, fun _ => ?_⟩
  · rw [hH.others v hv]
    exact (update_of_ne hv _ _).symm
  · rw [hvalue]
    exact hH.active V.inLoop
  · have hargs : i.operands.map (M.execute e i).values = i.operands.map e.values :=
      map_congr_left fun x hx => update_of_ne (V.operand_ne N V.inLoop (id_mem_defined hi) hx) _ _
    rw [hargs, hstate]
    exact hH.active V.inLoop

omit [Finite β] [DecidableEq ν] hM in
/-- The moved instruction is not usable in the pre-header of the old graph. -/
theorem Movable.not_usable [Finite β] (hhere : here ⊆ P.instructions p) : ¬Usable P i.id p here := by
  have hdef := id_mem_defined hi
  have hne := V.ne_preHeader N V.inLoop
  rintro (hphi | hmem | ⟨d, hd, hmem⟩)
  · exact hne (hP.unique hdef (mem_defined.2 (.inl hphi)))
  · obtain ⟨k, hk, hid⟩ := mem_map.1 hmem
    exact hne (hP.unique hdef (hid ▸ id_mem_defined (hhere hk)))
  · obtain rfl := hP.unique hmem hdef
    have h₁ := V.blockId_lt N V.inLoop
    have h₂ := N.blockId_lt_of_dominates hd h₁.1
    omega

/-- The moved instruction at the end of the pre-header, and the last instruction
after it. -/
theorem Hoisted.target (hH : Hoisted M P loops h i p before e e')
    (hsplit : P.instructions p = before ++ [last]) :
    Hoisted M P loops h i p (P.instructions p) (M.execute e last) (M.execute (M.execute e' i) last) ∧
      (M.execute (M.execute e' i) last).values i.id =
        M.eval i.op (i.operands.map (M.execute e last).values) (M.execute e last).state := by
  have hlast : last ∈ P.instructions p := by simp [hsplit]
  have hstate : (M.execute e' i).state = e'.state := by
    funext f
    refine hM.changes_of_mem hi _ _ ?_
    rw [hP.pure hi V.useGvn]
    exact Finset.notMem_empty f
  have hH' : Hoisted M P loops h i p before e (M.execute e' i) := by
    refine ⟨hstate.trans hH.state, fun v hv => ?_, fun huse => ?_, fun hin => ?_⟩
    · rw [← hH.others v hv]
      exact update_of_ne hv _ _
    · exact absurd huse (V.not_usable hP N hi (by simp [hsplit]))
    · exact absurd rfl (V.ne_preHeader N hin)
  obtain ⟨-, hpure, hunused⟩ := hP.control hsplit
  have hne : last.id ≠ i.id := by
    intro hid
    have := hP.unique (id_mem_defined hi) (hid ▸ id_mem_defined hlast)
    exact V.ne_preHeader N V.inLoop this
  have hlasti : last ≠ i := fun heq => hne (congrArg HInstruction.id heq)
  have hexecuted := hH'.execute hM hP V N hi hsplit hlasti
  rw [← hsplit] at hexecuted
  refine ⟨hexecuted, ?_⟩
  have hargs : i.operands.map (M.execute e last).values = i.operands.map e.values := by
    refine map_congr_left fun x hx => update_of_ne ?_ _ _
    rintro rfl
    exact hunused b i hi hx
  have hargs' : i.operands.map e'.values = i.operands.map e.values := by
    refine map_congr_left fun x hx => hH.others x ?_
    rintro rfl
    exact V.operand_ne N V.inLoop (id_mem_defined hi) hx rfl
  have hstate' : (M.execute e last).state = e.state := by
    funext f
    refine hM.changes_of_mem hlast _ _ ?_
    rw [hpure]
    exact Finset.notMem_empty f
  show Function.update (M.execute e' i).values last.id _ i.id = _
  rw [update_of_ne hne.symm, hargs, hstate']
  show Function.update e'.values i.id _ i.id = _
  rw [update_self, hargs', hH.state]

end Step

section Block

variable [Finite β] (hM : M.Respects P) (hP : Verified P) (V : Movable P loops blocks h p b i)
  (N : Numbered P.toHGraph loops L blocks) (hmove : Moves P P' b p i front rest before last)

include hM hP V N hmove

/-- A whole block; behind the pre-header the value is the one that the instruction would
compute. -/
theorem Hoisted.executeBlock (hH : Hoisted M P loops h i c [] e e') :
    Hoisted M P loops h i c (P.instructions c) (M.executeBlock P c e) (M.executeBlock P' c e') ∧
      (c = p → (M.executeBlock P' c e').values i.id = M.eval i.op (i.operands.map (M.executeBlock P c e).values)
          (M.executeBlock P c e).state) := by
  have hi := hmove.mem_source
  have hnodup : ∀ d, (P.instructions d).Nodup := fun d =>
    .of_map _ (nodup_append.1 (hP.nodup d)).2.1
  rw [Semantics.executeBlock, Semantics.executeBlock]
  by_cases hcb : c = b
  · subst hcb
    have hnot := hnodup c
    rw [hmove.source, nodup_middle, nodup_cons, mem_append, not_or] at hnot
    obtain ⟨⟨hfront, hrest⟩, -⟩ := hnot
    refine ⟨?_, fun hcp => absurd hcp hmove.ne⟩
    have h₁ := hH.executeAll hM hP V N hi front hfront (by simp [hmove.source])
    have h₂ := h₁.source hM hP V N hi
    have h₃ := h₂.executeAll hM hP V N hi rest hrest (by simp [hmove.source])
    rw [hmove.source, hmove.source', foldl_append, foldl_append, foldl_cons]
    simpa using h₃
  have hic : i ∉ P.instructions c := fun hmem =>
    hcb (hP.unique (id_mem_defined hmem) (id_mem_defined hi))
  by_cases hcp : c = p
  · subst hcp
    have hbefore : i ∉ before := fun hmem => hic (by simp [hmove.target, hmem])
    have h₁ := hH.executeAll hM hP V N hi before hbefore (by simp [hmove.target])
    obtain ⟨h₂, hvalue⟩ := Hoisted.target hM hP V N hi h₁ hmove.target
    rw [hmove.target] at h₂
    rw [hmove.target', hmove.target]
    grind
  · rw [hmove.others c hcb hcp]
    refine ⟨?_, fun heq => absurd heq hcp⟩
    have h₁ := hH.executeAll hM hP V N hi (P.instructions c) hic (by simp)
    simpa using h₁

omit hM N in
omit [Finite β] [DecidableEq ν] in
/-- The same successor is taken. -/
theorem Hoisted.next (hH : Hoisted M P loops h i c (P.instructions c) e e') :
    M.next P' c e' = M.next P c e := by
  obtain ⟨here, j, hj⟩ := hP.finished c
  obtain ⟨here', hj'⟩ := (hmove.last_iff hP V.useGvn).2 ⟨here, hj⟩
  have hargs : j.operands.map e'.values = j.operands.map e.values := by
    refine map_congr_left fun x hx => hH.value ?_
    rw [hj]
    exact (hP.operands hj x hx).append
  simp [Semantics.next, hj, hj', hargs, hH.state, hmove.graph]

omit hM in
/-- A block is entered. -/
theorem Hoisted.enter (hH : Hoisted M P loops h i c (P.instructions c) e e')
    (hpre : c = p → e'.values i.id = M.eval i.op (i.operands.map e.values) e.state)
    (hs : s ∈ P.successors c) :
    Hoisted M P loops h i s [] { e with values := assignPhis P c s e.values }
      { e' with values := assignPhis P' c s e'.values } := by
  have hi := id_mem_defined hmove.mem_source
  have hphis : assignPhis P' c s e'.values = assignPhis P c s e'.values := by
    funext v
    rw [assignPhis, assignPhis, hmove.phis, hmove.graph]
  have hmoved : ∀ φ ∈ P.phis s, φ.id ≠ i.id := by
    intro φ hφ hid
    have hmem : i.id ∈ (P.phis s).map HPhi.id := hid ▸ mem_map_of_mem hφ
    obtain rfl := hP.unique (mem_defined.2 (.inl hmem)) hi
    exact (nodup_append.1 (hP.nodup s)).2.2 _ hmem _ (mem_map_of_mem hmove.mem_source) rfl
  have hedge : P.Edge c s := hs
  refine ⟨hH.state, fun v hv => ?_, fun huse => ?_, fun hin => ?_⟩
  · show assignPhis P' c s e'.values v = assignPhis P c s e.values v
    rw [hphis, assignPhis, assignPhis]
    split
    · next φ hφ =>
      obtain ⟨x, hx, huse⟩ := hP.phiOperands (mem_of_find?_eq_some hφ)
        ((P.predecessors s).idxOf c) c (List.getElem?_idxOf (N.edge_iff.1 hedge))
      rw [getD_eq_getElem?_getD, hx, getD_some]
      exact hH.value huse
    · exact hH.others v hv
  · show assignPhis P' c s e'.values i.id = assignPhis P c s e.values i.id
    rw [hphis, assignPhis_of_not_phi hmoved, assignPhis_of_not_phi hmoved]
    refine hH.usable ?_
    rcases huse with hphi | hnil | ⟨d, hd, hmem⟩
    · grind
    · exact absurd hnil not_mem_nil
    · rcases hd.pred hedge with rfl | hd
      · obtain rfl := hP.unique hmem hi
        exact .inr (.inl (mem_map_of_mem hmove.mem_source))
      · exact .inr (.inr ⟨d, hd, hmem⟩)
  · have hargs : i.operands.map (assignPhis P c s e.values) = i.operands.map e.values := by
      refine map_congr_left fun x hx => assignPhis_of_not_phi fun φ hφ => ?_
      exact (V.operand_ne N hin (mem_defined.2 (.inl (mem_map_of_mem hφ))) hx).symm
    show assignPhis P' c s e'.values i.id = _
    rw [hphis, assignPhis_of_not_phi hmoved, hargs]
    -- the loop is entered from the pre-header, or it was not left
    by_cases hsh : s = h
    · subst hsh
      obtain ⟨preds, hpreds⟩ := V.preHeader
      have hc := N.edge_iff.1 hedge
      rw [hpreds, mem_cons] at hc
      rcases hc with rfl | hc
      · exact hpre rfl
      · exact hH.active (.latch ⟨V.loop, by simpa [hpreds] using hc⟩)
    · exact hH.active (.pred hedge hsh hin)

/-- After any number of blocks. -/
theorem run_hoisted (c₀ : Config ν τ κ) (n : Nat) : (M.run P c₀ n = none ∧ M.run P' c₀ n = none) ∨
      ∃ c e e', M.run P c₀ n = some (c, e) ∧ M.run P' c₀ n = some (c, e') ∧
        Hoisted M P loops h i c [] e e' := by
  induction n with
  | zero =>
    refine .inr ⟨P.start, c₀, c₀, rfl, by rw [Semantics.run, hmove.graph], rfl, fun _ _ => rfl,
      fun _ => rfl, fun hin => ?_⟩
    exact absurd hin (N.registered.built.reducible.outside V.loop)
  | succ n ih =>
    rw [Semantics.run, Semantics.run]
    rcases ih with ⟨hrun, hrun'⟩ | ⟨c, e, e', hrun, hrun', hH⟩
    · grind
    · obtain ⟨hblock, hpre⟩ := hH.executeBlock hM hP V N hmove
      have hnext := hblock.next hP V hmove
      rw [hrun, hrun', bind_some, bind_some, Semantics.step, Semantics.step]
      simp only [hnext]
      rcases hs : M.next P c (M.executeBlock P c e) with _ | s
      · exact .inl ⟨rfl, rfl⟩
      · refine .inr ⟨s, _, _, rfl, rfl, hblock.enter hP V N hmove hpre ?_⟩
        rw [Semantics.next, bind_eq_bind, bind_eq_some_iff] at hs
        grind

end Block

/-- The runs of a graph and of the graph after instructions were moved. After any number
of blocks both runs are in the same block, and at its start and at its end the state and
each value that is usable there are the same. -/
def SameRuns (M : Semantics ω τ κ) (P P' : HProgram β ν ω) : Prop :=
  ∀ (c₀ : Config ν τ κ) (n : Nat), (M.run P c₀ n = none ∧ M.run P' c₀ n = none) ∨
    ∃ b e e', M.run P c₀ n = some (b, e) ∧ M.run P' c₀ n = some (b, e') ∧
      e'.state = e.state ∧ (∀ v, Usable P v b [] → e'.values v = e.values v) ∧
      (M.executeBlock P' b e').state = (M.executeBlock P b e).state ∧
      ∀ v, Usable P v b (P.instructions b) → (M.executeBlock P' b e').values v = (M.executeBlock P b e).values v

/-- What is usable stays so. -/
def StaysUsable (P P' : HProgram β ν ω) : Prop :=
  ∀ v b, (Usable P v b [] → Usable P' v b []) ∧
    (Usable P v b (P.instructions b) → Usable P' v b (P'.instructions b))

theorem SameRuns.refl : SameRuns M P P := by
  intro c₀ n
  rcases hrun : M.run P c₀ n with _ | ⟨b, e⟩
  · exact .inl ⟨rfl, rfl⟩
  simp

theorem SameRuns.trans (h₁ : SameRuns M P P') (huse : StaysUsable P P')
    (h₂ : SameRuns M P' P'') : SameRuns M P P'' := by
  intro c₀ n
  rcases h₁ c₀ n with ⟨hrun, hrun'⟩ | ⟨b, e, e', hrun, hrun', hs, hv, hs', hv'⟩
  · rcases h₂ c₀ n with ⟨-, hrun''⟩ | ⟨_, _, _, hsome, -⟩
    · exact .inl ⟨hrun, hrun''⟩
    · rw [hrun'] at hsome
      cases hsome
  · rcases h₂ c₀ n with ⟨hnone, -⟩ | ⟨b', d, e'', hsome, hrun'', ht, hw, ht', hw'⟩
    · rw [hrun'] at hnone
      cases hnone
    · obtain ⟨rfl, rfl⟩ := Prod.ext_iff.1 (some.inj (hrun'.symm.trans hsome))
      refine .inr ⟨b, e, e'', hrun, hrun'', ht.trans hs, fun v hx => ?_, ht'.trans hs', fun v hx => ?_⟩
      · exact (hw v ((huse v b).1 hx)).trans (hv v hx)
      · exact (hw' v ((huse v b).2 hx)).trans (hv' v hx)

theorem Moves.sameRuns [Finite β] (hmove : Moves P P' b p i front rest before last)
    (hM : M.Respects P) (hP : Verified P) (V : Movable P loops blocks h p b i)
    (N : Numbered P.toHGraph loops L blocks) : SameRuns M P P' := by
  intro c₀ n
  rcases run_hoisted hM hP V N hmove c₀ n with hnone | ⟨c, e, e', hrun, hrun', hH⟩
  · exact .inl hnone
  · obtain ⟨hblock, -⟩ := hH.executeBlock hM hP V N hmove
    exact .inr ⟨c, e, e', hrun, hrun', hH.state, fun v hx => hH.value hx, hblock.state,
      fun v hx => hblock.value hx⟩

omit [DecidableEq ν] in
theorem Moves.staysUsable [Finite β] (hmove : Moves P P' b p i front rest before last)
    (hP : Verified P) (V : Movable P loops blocks h p b i)
    (N : Numbered P.toHGraph loops L blocks) : StaysUsable P P' := by
  intro v c
  refine ⟨fun hx => ?_, fun hx => ?_⟩
  · exact hmove.usable hP V N hx (fun _ hy _ => hy) fun hmem => absurd hmem not_mem_nil
  · refine hmove.usable hP V N hx (fun y hy hne => ?_) fun hmem => ?_
    · obtain ⟨k, hk, rfl⟩ := mem_map.1 hy
      exact mem_map_of_mem ((hmove.mem_iff (by rintro rfl; exact hne rfl)).2 hk)
    · exact hP.unique (mem_defined.2 (.inr hmem)) (id_mem_defined hmove.mem_source)

section Pass

variable {P₀ : HProgram β ν ω}

/-- The instruction of block `b` may stand in `p`: there is a loop around `b` with the
pre-header `p`, and no instruction of the loop changes what it depends on. -/
def HoistedTo (P₀ : HProgram β ν ω) (loops : List β) (i : HInstruction ν ω) (b p : β) : Prop :=
  i.useGvn = true ∧ ∃ h, IsLoop P₀.toHGraph loops h ∧ (P₀.predecessors h).head? = some p ∧
    P₀.InLoop loops h b ∧ ∀ c, P₀.InLoop loops h c → ∀ j ∈ P₀.instructions c,
      Disjoint j.changesFlags i.dependsOnFlags

omit [DecidableEq β] in
/-- The loop behind a pre-header in a loop is nested in it. -/
theorem Numbered.nested_of_preHeader [Finite β] {G : HGraph β} {h' x : β}
    (N : Numbered G loops L blocks) (hloop : IsLoop G loops h)
    (hpre : (G.predecessors h).head? = some p)
    (hloop' : IsLoop G loops h') (hp : G.InLoop loops h' p) (hx : G.InLoop loops h x) :
    G.InLoop loops h' x := by
  have R := N.registered.built.reducible
  obtain ⟨q, rest, hpreds, -, hout⟩ := N.exists_preHeader hloop
  obtain rfl : q = p := by simpa [hpreds] using hpre
  have hmany : 1 < (G.predecessors h).length := by
    have := hloop.2
    grind
  have hsucc := N.registered.built.edgeSplit q h (by simp [hpreds]) hmany
  have honly : ∀ {y}, G.Edge q y → y = h := by
    intro y hedge
    have hmem : y ∈ G.successors q := hedge
    simpa [hsucc] using hmem
  have hne : h ≠ h' := by
    rintro rfl
    exact hout hp
  refine R.nested hloop' hloop hne ?_ hx
  cases hp with
  | header =>
    -- the header of the outer loop is itself the pre-header
    obtain ⟨e, he⟩ := N.registered.built.exists_backEdge hloop'
    rcases (R.inside hloop' (.latch he)).cases_head with heq | ⟨y, hstep, -⟩
    · subst heq
      exact absurd (honly (R.edge_of_latch he)).symm hne
    · rw [← honly hstep.1]
      exact hstep.2.2
  | latch hlatch => exact absurd (honly (R.edge_of_latch hlatch)).symm hne
  | pred hedge _ hy =>
    rw [← honly hedge]
    exact hy

omit [DecidableEq β] [DecidableEq ν] in
/-- Where the instruction goes, seen from the block where it was at first. -/
theorem HoistedTo.of_invariant [Finite β] (N : Numbered P₀.toHGraph loops L blocks) {b₀ : β}
    (hloop : IsLoop P₀.toHGraph loops h) (hpre : (P₀.predecessors h).head? = some p)
    (hb : P₀.InLoop loops h b) (hgvn : i.useGvn = true)
    (hinv : ∀ c, P₀.InLoop loops h c → Disjoint (blockChanges P₀ c) i.dependsOnFlags)
    (hplace : b = b₀ ∨ HoistedTo P₀ loops i b₀ b) : HoistedTo P₀ loops i b₀ p := by
  refine ⟨hgvn, h, hloop, hpre, ?_, fun c hc j hj =>
    (hinv c hc).mono_left (changes_subset_blockChanges hj)⟩
  rcases hplace with rfl | ⟨-, h₁, hloop₁, hpre₁, hb₁, -⟩
  · exact hb
  · exact N.nested_of_preHeader hloop₁ hpre₁ hloop hb hb₁

/-- `P` comes from `P₀` by moving instructions to pre-headers. -/
structure MotionOf (P₀ : HProgram β ν ω) (loops : List β) (P : HProgram β ν ω) : Prop where
  graph : P.toHGraph = P₀.toHGraph
  phis : P.phis = P₀.phis
  verified : Verified P
  place : ∀ {b}, ∀ i ∈ P.instructions b, ∃ b₀, i ∈ P₀.instructions b₀ ∧ (b = b₀ ∨ HoistedTo P₀ loops i b₀ b)
  kept : ∀ {b}, ∀ i ∈ P₀.instructions b, ∃ c, i ∈ P.instructions c
  usable : StaysUsable P₀ P
  runs : ∀ (τ κ : Type) (M : Semantics ω τ κ), M.Respects P₀ → SameRuns M P₀ P

theorem MotionOf.refl (hP : Verified P₀) : MotionOf P₀ loops P₀ where
  graph := rfl
  phis := rfl
  verified := hP
  place := fun _ hi => ⟨_, hi, .inl rfl⟩
  kept := fun _ hi => ⟨_, hi⟩
  usable := fun _ _ => ⟨id, id⟩
  runs := fun _ _ _ _ => .refl

omit [DecidableEq β] [DecidableEq ν] in
theorem respects_iff : M.Respects P ↔
    (∀ b, ∀ i ∈ P.instructions b, i.useGvn = true → ∀ args (σ σ' : GvnFlag → κ),
      (∀ f ∈ i.dependsOnFlags, σ f = σ' f) → M.eval i.op args σ = M.eval i.op args σ') ∧
    ∀ b, ∀ i ∈ P.instructions b, ∀ args (σ : GvnFlag → κ), ∀ f ∉ i.changesFlags,
      M.effect i.op args σ f = σ f := by
  constructor
  · exact fun hM => ⟨fun b i hi hgvn args σ σ' hσ => hM.depends_of_mem hi hgvn args hσ,
      fun b i hi args σ f hf => hM.changes_of_mem hi args σ hf⟩
  · exact fun hM => ⟨fun hi => hM.1 _ _ (mem_of_at hi), fun hi => hM.2 _ _ (mem_of_at hi)⟩

namespace MotionOf

variable (hQ : MotionOf P₀ loops P)

include hQ

theorem respects (hM : M.Respects P₀) : M.Respects P := by
  rw [respects_iff] at hM ⊢
  refine ⟨fun b i hi => ?_, fun b i hi => ?_⟩
  · obtain ⟨b₀, hi₀, -⟩ := hQ.place i hi
    exact hM.1 b₀ i hi₀
  · obtain ⟨b₀, hi₀, -⟩ := hQ.place i hi
    exact hM.2 b₀ i hi₀

/-- An instruction with side effects is not moved. -/
theorem changes (hi : i ∈ P.instructions b) : i.changesFlags ⊆ blockChanges P₀ b := by
  obtain ⟨b₀, hi₀, rfl | hhoisted⟩ := hQ.place i hi
  · exact changes_subset_blockChanges hi₀
  · rw [hQ.verified.pure hi hhoisted.1]
    exact Finset.empty_subset _

/-- The movability of an instruction, judged on the graph as it is now, when nothing
in the loop of the first graph changes what it depends on. -/
theorem movable (hloop : IsLoop P₀.toHGraph loops h)
    (hpre : (P₀.predecessors h).head? = some p) (hb : P₀.InLoop loops h b)
    (hgvn : i.useGvn = true)
    (hinv : ∀ c, P₀.InLoop loops h c → Disjoint (blockChanges P₀ c) i.dependsOnFlags)
    (hops : ∀ x ∈ i.operands, ¬isDefinedAfter P blocks x p) : Movable P loops blocks h p b i := by
  refine ⟨?_, ?_, ?_, hgvn, ?_, ?_⟩
  · rw [hQ.graph]
    exact hloop
  · rw [hQ.graph]
    simp_all [List.head?_eq_some_iff]
  · rw [hQ.graph]
    exact hb
  · intro c hc j hj
    rw [hQ.graph] at hc
    exact (hinv c hc).mono_left (hQ.changes hj)
  grind [isDefinedAfter]

variable [DecidableEq ω] {S : SideEffects β} {allow : Bool} {deoptimizing : β → Bool}

/-- One move. -/
theorem move [Finite β] (N : Numbered P₀.toHGraph loops L blocks)
    (hloop : IsLoop P₀.toHGraph loops h) (hpre : (P₀.predecessors h).head? = some p)
    (hb : P₀.InLoop loops h b) (hgvn : i.useGvn = true)
    (hinv : ∀ c, P₀.InLoop loops h c → Disjoint (blockChanges P₀ c) i.dependsOnFlags)
    (hops : ∀ x ∈ i.operands, ¬isDefinedAfter P blocks x p) (hi : i ∈ P.instructions b) :
    MotionOf P₀ loops (P.move b p i) ∧
      ∀ j ≠ i, ∀ c, j ∈ (P.move b p i).instructions c ↔ j ∈ P.instructions c := by
  have V := hQ.movable hloop hpre hb hgvn hinv hops
  have N' : Numbered P.toHGraph loops L blocks := by
    rw [hQ.graph]
    exact N
  obtain ⟨front, rest, before, last, hmove⟩ :=
    move_moves hQ.verified hi (V.ne_preHeader N' V.inLoop)
  have huse := hmove.staysUsable hQ.verified V N'
  have hoth : ∀ j ≠ i, ∀ c, j ∈ (P.move b p i).instructions c ↔ j ∈ P.instructions c :=
    fun j hj c => hmove.mem_iff hj
  refine ⟨⟨?_, ?_, hmove.verified hQ.verified V N', ?_, ?_, ?_, ?_⟩, hoth⟩
  · exact hmove.graph.trans hQ.graph
  · exact hmove.phis.trans hQ.phis
  · intro c j hj
    by_cases hji : j = i
    · subst hji
      obtain rfl := (hmove.defined_moved hQ.verified).1 (id_mem_defined hj)
      obtain ⟨b₀, hb₀, hplace⟩ := hQ.place j hi
      grind -linarith [HoistedTo.of_invariant]
    · exact hQ.place j ((hoth j hji c).1 hj)
  · intro c j hj
    by_cases hji : j = i
    · subst hji
      exact ⟨p, hmove.mem_target⟩
    · obtain ⟨d, hd⟩ := hQ.kept j hj
      exact ⟨d, (hoth j hji d).2 hd⟩
  · intro v c
    exact ⟨fun hx => (huse v c).1 ((hQ.usable v c).1 hx), fun hx => (huse v c).2 ((hQ.usable v c).2 hx)⟩
  · intro τ κ M hM
    exact (hQ.runs τ κ M hM).trans hQ.usable (hmove.sameRuns (hQ.respects hM) hQ.verified V N')

/-- A block of a loop. -/
theorem processLoopBlock [Finite β] (N : Numbered P₀.toHGraph loops L blocks)
    (hS : Swept P₀ L blocks S) (hloop : IsLoop P₀.toHGraph loops h) (hb : P₀.InLoop loops h b) :
    MotionOf P₀ loops (processLoopBlock allow deoptimizing blocks h (S.loop h) P b) := by
  rw [Hydrogen.processLoopBlock, hQ.graph]
  split
  · exact hQ
  · next p hpre =>
    have hinv : ∀ (i : HInstruction ν ω), i.dependsOnFlags ∩ S.loop h = ∅ →
        ∀ c, P₀.InLoop loops h c → Disjoint (blockChanges P₀ c) i.dependsOnFlags := by
      intro i hkills c hc
      have hmem : c ∈ blocks :=
        (N.reachable c).2 (N.registered.built.reducible.entered hloop hc)
      exact (Finset.disjoint_iff_inter_eq_empty.2 hkills).symm.mono_left (hS.loop_effects N hmem hloop hc)
    -- the instructions that were not visited yet are still in the block
    suffices ∀ (l : List (HInstruction ν ω)) (Q : HProgram β ν ω), MotionOf P₀ loops Q →
        l.Nodup → l ⊆ Q.instructions b → MotionOf P₀ loops (l.foldl (fun Q i =>
          if shouldMove allow deoptimizing blocks p (S.loop h) b Q i then Q.move b p i
          else Q) Q) by
      exact this _ P hQ (.of_map _ (nodup_append.1 (hQ.verified.nodup b)).2.1) (Subset.refl _)
    intro l
    induction l with
    | nil => exact fun Q hQ _ _ => hQ
    | cons i l ih =>
      intro Q hQ hnodup hsub
      rw [nodup_cons] at hnodup
      obtain ⟨hi, hsub⟩ := cons_subset.1 hsub
      rw [foldl_cons]
      split
      · next hshould =>
        simp only [shouldMove, decide_eq_true_eq] at hshould
        obtain ⟨hgvn, hkills, hops, -, -⟩ := hshould
        obtain ⟨hQ', hoth⟩ := hQ.move N hloop hpre hb hgvn (hinv i hkills) hops hi
        refine ih _ hQ' hnodup.2 fun j hj => ?_
        grind
      · exact ih Q hQ hnodup.2 hsub

theorem processLoop [Fintype β] (N : Numbered P₀.toHGraph loops L blocks)
    (hS : Swept P₀ L blocks S) (hh : h ∈ blocks) :
    MotionOf P₀ loops (processLoop allow deoptimizing L blocks S P h) := by
  rw [Hydrogen.processLoop]
  split
  · next hhead =>
    have hloop := (N.registered.headers h).1 hhead
    obtain ⟨e, he, hint⟩ := N.ordered.last_backEdge N.registered hh hloop
    rw [he]
    have hsub : ∀ b ∈ (blocks.take (blockId blocks e + 1)).drop (blockId blocks h), P₀.InLoop loops h b := by
      intro b hb
      obtain ⟨n, hn⟩ := mem_iff_getElem?.1 hb
      rw [List.getElem?_drop, List.getElem?_take] at hn
      split at hn
      · next hlt =>
        have hmem := mem_of_getElem? hn
        have hid : blockId blocks b = blockId blocks h + n := by
          obtain ⟨hbound, rfl⟩ := List.getElem?_eq_some_iff.1 hn
          exact N.ordered.nodup.idxOf_getElem _ hbound
        grind
      · cases hn
    dsimp only
    generalize (blocks.take (blockId blocks e + 1)).drop (blockId blocks h) = l at hsub
    induction l generalizing P with
    | nil => exact hQ
    | cons b l ih =>
      exact ih (hQ.processLoopBlock N hS hloop (hsub b (by simp)))
        fun c hc => hsub c (mem_cons_of_mem b hc)
  · exact hQ

end MotionOf

end Pass

theorem loopInvariantCodeMotion_motion [Fintype β] [DecidableEq ω] (allow : Bool) (deoptimizing : β → Bool)
    (N : Numbered P.toHGraph loops L blocks) (hP : Verified P) :
    MotionOf P loops (loopInvariantCodeMotion allow deoptimizing L blocks
      (computeBlockSideEffects P L blocks) P) := by
  have hS := computeBlockSideEffects_swept N
  suffices ∀ (l : List β) (Q : HProgram β ν ω), MotionOf P loops Q → l ⊆ blocks →
      MotionOf P loops (l.foldl (processLoop allow deoptimizing L blocks
        (computeBlockSideEffects P L blocks)) Q) from
    this _ P (.refl hP) (by simp)
  intro l
  induction l with
  | nil => exact fun Q hQ _ => hQ
  | cons h l ih =>
    intro Q hQ hsub
    obtain ⟨hh, hsub⟩ := cons_subset.1 hsub
    exact ih _ (hQ.processLoop N hS hh) hsub

/-- Code motion of a graph in the order of `OrderBlocks`. An instruction stays in its
block or goes to the pre-header of a loop around it in which nothing changes what it
depends on, it stands behind the definitions of its operands, and in every run each
value is the same wherever it was usable. -/
theorem loopInvariantCodeMotion_preserves [Fintype β] [DecidableEq ω] (allow : Bool)
    (deoptimizing : β → Bool) (hB : Built P.toHGraph loops) (hP : Verified P)
    (hreach : ∀ b, ReflTransGen P.Edge P.start b → ∀ p ∈ P.predecessors b, ReflTransGen P.Edge P.start p) :
    ∃ L blocks P', Returns (registerLoops P.toHGraph loops) L ∧ Returns (orderBlocks P.toHGraph L) blocks ∧
      loopInvariantCodeMotion allow deoptimizing L blocks (computeBlockSideEffects P L blocks) P = P' ∧
      (∀ b, ∀ i ∈ P.instructions b, ∃ c, i ∈ P'.instructions c ∧ (c = b ∨ HoistedTo P loops i b c)) ∧
      (∀ b front (i : HInstruction ν ω) rest, P'.instructions b = front ++ i :: rest →
        ∀ x ∈ i.operands, Usable P' x b front) ∧
      ∀ (τ κ : Type) (M : Semantics ω τ κ), M.Respects P → SameRuns M P P' := by
  obtain ⟨L, hL, hforest, hheaders⟩ := registerLoops_forest hB
  have R : Registered P.toHGraph loops L := ⟨hB, hforest, hheaders⟩
  obtain ⟨blocks, hblocks, O⟩ := orderBlocks_ordered R
  have N : Numbered P.toHGraph loops L blocks :=
    ⟨R, O, fun b hb p hp => (O.reachable p).2 (hreach b ((O.reachable b).1 hb) p hp)⟩
  have hmotion := loopInvariantCodeMotion_motion allow deoptimizing N hP
  refine ⟨L, blocks, _, hL, hblocks, rfl, fun b i hi => ?_, ?_, hmotion.runs⟩
  · obtain ⟨c, hc⟩ := hmotion.kept i hi
    obtain ⟨b₀, hb₀, hplace⟩ := hmotion.place i hc
    obtain rfl := hP.unique (id_mem_defined hi) (id_mem_defined hb₀)
    exact ⟨c, hc, hplace⟩
  · exact fun b front i rest hsplit x hx => hmotion.verified.operands hsplit x hx

/-- A loop that loads the field. -/
def loadInLoop : HProgram (Fin 4) Nat FieldOp :=
  fieldProgram whileGraph ![[.goto], [.branch], [.load, .goto], [.goto]]

theorem loadInLoop_verified : Verified loadInLoop where
  nodup := by decide
  unique := fun {b c x} hb hc => (by decide : ∀ b c, ∀ x ∈ loadInLoop.defined b,
    x ∈ loadInLoop.defined c → b = c) b c x hb hc
  operands := by
    intro b front i rest hsplit x hx
    have hnone : i.operands = [] := (by decide : ∀ b, ∀ i ∈ loadInLoop.instructions b,
      i.operands = []) b i (by simp [hsplit])
    grind
  phiOperands := fun hφ => absurd hφ not_mem_nil
  pure := fun {b i} hi hgvn => (by decide : ∀ b, ∀ i ∈ loadInLoop.instructions b,
    i.useGvn = true → i.changesFlags = ∅) b i hi hgvn
  finished := by
    intro b
    have hne := (by decide : ∀ b, loadInLoop.instructions b ≠ []) b
    exact ⟨_, _, (dropLast_append_getLast hne).symm⟩
  control := by
    intro b front i hsplit
    have hlast : i ∈ (loadInLoop.instructions b).getLast? := by
      rw [hsplit, getLast?_concat]
      rfl
    obtain ⟨hgvn, hchanges⟩ := (by decide : ∀ b, ∀ i ∈ (loadInLoop.instructions b).getLast?,
      i.useGvn = false ∧ i.changesFlags = ∅) b i hlast
    refine ⟨hgvn, hchanges, fun c j hj => ?_⟩
    rw [(by decide : ∀ c, ∀ j ∈ loadInLoop.instructions c, j.operands = []) c j hj]
    exact not_mem_nil

/-- The load is moved to block 0. -/
example : (do
    let L ← registerLoops loadInLoop.toHGraph [1] 20
    let blocks ← orderBlocks loadInLoop.toHGraph L 20
    let P := loopInvariantCodeMotion true (fun _ => false) L blocks
      (computeBlockSideEffects loadInLoop L blocks) loadInLoop
    some ((P.instructions 0).map HInstruction.op)) = some [.load, .goto] := by decide +kernel

theorem loopInvariantCodeMotion_preserves_load : ∃ L blocks P',
    Returns (registerLoops loadInLoop.toHGraph [1]) L ∧
    Returns (orderBlocks loadInLoop.toHGraph L) blocks ∧
    loopInvariantCodeMotion true (fun _ => false) L blocks
      (computeBlockSideEffects loadInLoop L blocks) loadInLoop = P' ∧
    ∀ (τ κ : Type) (M : Semantics FieldOp τ κ), M.Respects loadInLoop → SameRuns M loadInLoop P' := by
  have hreach : ∀ b : Fin 4, ReflTransGen loadInLoop.Edge loadInLoop.start b := by
    have h₁ : loadInLoop.Edge 0 1 := (by decide : (1 : Fin 4) ∈ loadInLoop.successors 0)
    have h₂ : loadInLoop.Edge 1 2 := (by decide : (2 : Fin 4) ∈ loadInLoop.successors 1)
    have h₃ : loadInLoop.Edge 1 3 := (by decide : (3 : Fin 4) ∈ loadInLoop.successors 1)
    intro b
    fin_cases b
    · exact .refl
    · exact .single h₁
    · exact (ReflTransGen.single h₁).tail h₂
    · exact (ReflTransGen.single h₁).tail h₃
  obtain ⟨L, blocks, P', hL, hblocks, hP', -, -, hruns⟩ := loopInvariantCodeMotion_preserves true
    (fun _ => false) whileGraph_built loadInLoop_verified fun _ _ p _ => hreach p
  grind

end W16.Hydrogen
