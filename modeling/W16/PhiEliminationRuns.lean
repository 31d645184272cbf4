import Mathlib.Data.Fin.VecNotation
import Mathlib.Tactic.FinCases
import W16.HydrogenFlow
import W16.PhiElimination

/-!
# A redundant phi has the value of its replacement

On a run an instruction gives its value anything, and an edge gives the phis of the next block
the values of their operands, all at once. An operand that is left in the end has on every run
the value of the operand that was there in the beginning.
-/
namespace W16.PhiElimination

open Dominance Hydrogen Relation UseLists List

set_option linter.dupNamespace false

variable {β ν ω V : Type}

/-- A value is defined in one place and used in its scope. -/
structure SingleAssignment (P : HProgram β ν ω) : Prop where
  unique : ∀ {p q i j}, P.at p = some i → P.at q = some j → i.id = j.id → p = q
  phiUnique : ∀ {b c φ ψ}, φ ∈ P.phis b → ψ ∈ P.phis c → φ.id = ψ.id → b = c ∧ φ = ψ
  phiNotInstruction : ∀ {b p φ i}, φ ∈ P.phis b → P.at p = some i → φ.id ≠ i.id
  edges : ∀ {b s}, s ∈ P.successors b ↔ b ∈ P.predecessors s
  operands : ∀ {p i}, P.at p = some i → ∀ x ∈ i.operands, InScope P x p
  phiOperands : ∀ {s φ}, φ ∈ P.phis s → ∀ (n : Nat) p, (P.predecessors s)[n]? = some p →
    ∃ x, φ.operands[n]? = some x ∧ InScope P x (P.exit p)

/-- The values at a point of a run. -/
inductive Trace (P : HProgram β ν ω) : β × Nat → (ν → V) → Prop
  | start (values : ν → V) : Trace P P.entry values
  | next {b : β} {k : Nat} {i : HInstruction ν ω} {values values' : ν → V} :
      Trace P (b, k) values → P.at (b, k) = some i →
      (∀ v, v ≠ i.id → values' v = values v) → Trace P (b, k + 1) values'
  | edge {b s : β} {n : Nat} {values values' : ν → V} :
      Trace P (P.exit b) values → (P.predecessors s)[n]? = some b →
      (∀ φ ∈ P.phis s, ∀ x, φ.operands[n]? = some x → values' φ.id = values x) →
      (∀ v, (∀ φ ∈ P.phis s, φ.id ≠ v) → values' v = values v) → Trace P (s, 0) values'

/-- The operand `k` of `u` is `x`, and it is read at the point: that of a phi at the end of the
predecessor. -/
inductive UseAt (P : HProgram β ν ω) : ν → Nat → ν → β × Nat → Prop
  | instruction {p : β × Nat} {i : HInstruction ν ω} {k : Nat} {x : ν} :
      P.at p = some i → i.operands[k]? = some x → UseAt P i.id k x p
  | phi {b s : β} {φ : HPhi ν} {n : Nat} {x : ν} :
      φ ∈ P.phis s → (P.predecessors s)[n]? = some b → φ.operands[n]? = some x →
      UseAt P φ.id n x (P.exit b)

/-- The graph is that of the program. -/
structure Represents (P : HProgram β ν ω) (s : Phis β ν) : Prop where
  phis : ∀ b, s.phis b = (P.phis b).map HPhi.id
  phiOperands : ∀ b, ∀ φ ∈ P.phis b, s.values.operands φ.id = φ.operands.map some
  instructionOperands : ∀ p i, P.at p = some i → s.values.operands i.id = i.operands.map some

/-- A phi of the program that is no longer in its block. -/
def Removed (P : HProgram β ν ω) (s : Phis β ν) (v : ν) : Prop :=
  ∃ b, (∃ φ ∈ P.phis b, φ.id = v) ∧ v ∉ s.phis b

/-- What is read in place of an operand is in scope and has its value. -/
structure Sound (P : HProgram β ν ω) (V : Type) (s : Phis β ν) : Prop where
  phis : ∀ b, ∀ v ∈ s.phis b, ∃ φ ∈ P.phis b, φ.id = v
  use : ∀ {u k x p}, UseAt P u k x p → ¬Removed P s u →
    ∃ y, (s.values.operands u)[k]? = some (some y) ∧ InScope P y p ∧
      ∀ values : ν → V, Trace P p values → values x = values y

section Program

variable {P : HProgram β ν ω} {b c : β} {k n : Nat} {p q : β × Nat} {u v x : ν} {φ : HPhi ν}
  {s : Phis β ν} {values : ν → V}

theorem Trace.reach (hP : SingleAssignment P) (h : Trace P p values) : ReflTransGen (Flow P) P.entry p := by
  induction h with
  | start => exact .refl
  | next _ hi _ ih => exact ih.tail (.of_at hi)
  | edge _ hpred _ _ ih =>
    exact ih.tail (.edge (hP.edges.2 (mem_of_getElem? hpred)))

theorem UseAt.inScope (hP : SingleAssignment P) (h : UseAt P u k x p) : InScope P x p := by
  cases h with
  | instruction hi hx => exact hP.operands hi x (mem_of_getElem? hx)
  | phi hφ hpred hx =>
    obtain ⟨y, hy, hscope⟩ := hP.phiOperands hφ _ _ hpred
    cases hx.symm.trans hy
    exact hscope

/-- A phi is defined on the edges to its block. -/
theorem edge_of_defines (hP : SingleAssignment P) (hφ : φ ∈ P.phis c) (hflow : Flow P p q)
    (hdef : Defines P φ.id p q) :
    ∃ (b : β) (n : Nat), p = P.exit b ∧ q = (c, 0) ∧ (P.predecessors c)[n]? = some b := by
  rcases hdef with ⟨i, hi, hid⟩ | ⟨hnone, ψ, hψ, hid⟩
  · exact absurd hid.symm (hP.phiNotInstruction hφ hi)
  · obtain ⟨hblock, -⟩ := hP.phiUnique hφ hψ hid.symm
    cases hflow with
    | next hlt =>
      obtain ⟨i, hi⟩ := exists_at_of_lt hlt
      exact absurd (hnone.symm.trans hi) nofun
    | @edge b s hs =>
      subst hblock
      obtain ⟨n, hn⟩ := getElem?_of_mem (hP.edges.1 hs)
      exact ⟨b, n, rfl, rfl, hn⟩

/-- An instruction is defined at its own point. -/
theorem eq_of_defines (hP : SingleAssignment P) {i : HInstruction ν ω} (hi : P.at p = some i)
    {a a' : β × Nat} (hdef : Defines P i.id a a') : a = p := by
  rcases hdef with ⟨j, hj, hid⟩ | ⟨-, φ, hφ, hid⟩
  · exact hP.unique hj hi hid
  · exact absurd hid (hP.phiNotInstruction hφ hi)

theorem Represents.sound (hP : SingleAssignment P) (h : Represents P s) : Sound P V s where
  phis b v hv := by
    rw [h.phis, mem_map] at hv
    exact hv
  use := by
    intro u k x p huse _
    refine ⟨x, ?_, huse.inScope hP, fun _ _ => rfl⟩
    cases huse with
    | instruction hi hx => rw [h.instructionOperands _ _ hi, getElem?_map, hx, Option.map_some]
    | phi hφ _ hx => rw [h.phiOperands _ _ hφ, getElem?_map, hx, Option.map_some]

end Program

section Step

variable [DecidableEq β] [DecidableEq ν] {K : Kinds ν} {P : HProgram β ν ω} {s t : Phis β ν}
  {phi replacement u v x : ν} {b c : β} {k n : Nat} {p q : β × Nat} {values : ν → V}
  {blocks : List β} {φ : HPhi ν}

omit [DecidableEq β] [DecidableEq ν] in
theorem Sound.not_removed (hP : SingleAssignment P) (h : Sound P V s) (hmem : v ∈ s.phis b) :
    ¬Removed P s v := by
  rintro ⟨b', ⟨ψ, hψ, hid⟩, hnot⟩
  obtain ⟨φ, hφ, hid'⟩ := h.phis b v hmem
  obtain ⟨rfl, -⟩ := hP.phiUnique hψ hφ (hid.trans hid'.symm)
  exact hnot hmem

/-- On an edge to its block a redundant phi has itself or the replacement as operand. -/
theorem Sound.operand_at_edge (hP : SingleAssignment P) (h : Sound P V s)
    (hstep : Replaced K s t φ.id replacement c) (hφ : φ ∈ P.phis c) (hmem : φ.id ∈ s.phis c)
    (hpred : (P.predecessors c)[n]? = some b) :
    ∃ x y, φ.operands[n]? = some x ∧ InScope P y (P.exit b) ∧ (y = φ.id ∨ y = replacement) ∧
      ∀ values : ν → V, Trace P (P.exit b) values → values x = values y := by
  obtain ⟨x, hx, -⟩ := hP.phiOperands hφ n b hpred
  obtain ⟨y, hy, hscope, hvals⟩ := h.use (.phi hφ hpred hx) (h.not_removed hP hmem)
  refine ⟨x, y, hx, hscope, ?_, hvals⟩
  rcases (redundant_some hstep.redundant).2.2 _ (mem_of_getElem? hy) with heq | heq | heq
  · exact .inl (Option.some.inj heq)
  · exact .inr (Option.some.inj heq)
  · cases heq

/-- The replacement is in scope before the phi is defined. -/
theorem Sound.replacement_inScope (hP : SingleAssignment P) (h : Sound P V s)
    (hstep : Replaced K s t φ.id replacement c) (hφ : φ ∈ P.phis c) (hmem : φ.id ∈ s.phis c)
    (hflow : Flow P p q) (hdef : Defines P φ.id p q) : InScope P replacement p := by
  refine Inevitable.of_again (fun a a' hflow hdef => ?_) hflow hdef
  obtain ⟨b, n, rfl, -, hpred⟩ := edge_of_defines hP hφ hflow hdef
  obtain ⟨x, y, -, hscope, rfl | rfl, -⟩ := h.operand_at_edge hP hstep hφ hmem hpred
  · exact .inl hscope
  · exact .inr hscope

/-- The replacement is not a phi of a block that is entered while the phi is in scope. -/
theorem Sound.not_phi (hP : SingleAssignment P) (h : Sound P V s)
    (hstep : Replaced K s t φ.id replacement c) (hφ : φ ∈ P.phis c) (hmem : φ.id ∈ s.phis c)
    {d : β} (hscope : InScope P φ.id (d, 0)) (hpred : (P.predecessors d)[n]? = some b)
    (hreach : ReflTransGen (Flow P) P.entry (P.exit b)) :
    ∀ ψ ∈ P.phis d, ψ.id ≠ replacement := by
  intro ψ hψ hid
  have hedge : Flow P (P.exit b) (d, 0) := .edge (hP.edges.2 (mem_of_getElem? hpred))
  have hdef : Defines P replacement (P.exit b) (d, 0) := defines_of_exit.2 ⟨ψ, hψ, hid⟩
  have hbefore := fun a a' => h.replacement_inScope (p := a) (q := a') hP hstep hφ hmem
  by_cases hd : d = c
  · -- both are defined on the same edges
    subst hd
    refine no_mutual_steps (D := Defines P replacement) ?_ ?_ hreach hedge hdef
    all_goals
      intro a a' hflow hdef'
      rw [← hid] at hdef'
      obtain ⟨b', n', rfl, rfl, -⟩ := edge_of_defines hP hψ hflow hdef'
      exact hbefore _ _ hflow (defines_of_exit.2 ⟨φ, hφ, rfl⟩)
  · refine no_mutual_steps (D := Defines P φ.id) ?_ hbefore hreach hedge hdef
    intro a a' hflow hdef'
    rw [← hid] at hdef'
    obtain ⟨b', n', rfl, rfl, -⟩ := edge_of_defines hP hψ hflow hdef'
    refine hscope.pred hflow fun hdef => hd ?_
    obtain ⟨-, -, -, heq, -⟩ := edge_of_defines hP hφ hflow hdef
    exact (Prod.ext_iff.1 heq).1

/-- Where a redundant phi is in scope, it has the value of its replacement. -/
theorem Sound.value_eq (hP : SingleAssignment P) (h : Sound P V s)
    (hstep : Replaced K s t φ.id replacement c) (hφ : φ ∈ P.phis c) (hmem : φ.id ∈ s.phis c)
    (htrace : Trace P p values) (hscope : InScope P φ.id p) :
    values φ.id = values replacement := by
  induction htrace with
  | start => exact absurd hscope not_inevitable_start
  | @next b k i values values' htrace hi hkept ih =>
    have hflow : Flow P (b, k) (b, k + 1) := .of_at hi
    have hne : φ.id ≠ i.id := hP.phiNotInstruction hφ hi
    have hscope' : InScope P φ.id (b, k) :=
      hscope.pred hflow fun hdef => hne ((defines_of_at hi).1 hdef).symm
    have hother : replacement ≠ i.id := by
      intro heq
      refine no_mutual_steps (C := Defines P i.id) (D := Defines P φ.id) ?_ ?_
        (htrace.reach hP) hflow ((defines_of_at hi).2 rfl)
      · intro a a' _ hdef
        rw [eq_of_defines hP hi hdef]
        exact hscope'
      · rw [← heq]
        exact fun a a' => h.replacement_inScope hP hstep hφ hmem
    rw [hkept _ hne, hkept _ hother]
    exact ih hscope'
  | @edge b d n values values' htrace hpred hphis hkept ih =>
    have hflow : Flow P (P.exit b) (d, 0) := .edge (hP.edges.2 (mem_of_getElem? hpred))
    rw [hkept replacement (h.not_phi hP hstep hφ hmem hscope hpred (htrace.reach hP))]
    by_cases hd : d = c
    · subst hd
      obtain ⟨x, y, hx, hscope', hy, hvals⟩ := h.operand_at_edge hP hstep hφ hmem hpred
      grind
    · have hnot : ∀ ψ ∈ P.phis d, ψ.id ≠ φ.id := fun ψ hψ hid => hd (hP.phiUnique hψ hφ hid).1
      rw [hkept φ.id hnot]
      refine ih (hscope.pred hflow fun hdef => ?_)
      obtain ⟨ψ, hψ, hid⟩ := defines_of_exit.1 hdef
      exact hnot ψ hψ hid

/-- Replacing a phi keeps the values of the operands. -/
theorem Sound.replace (hP : SingleAssignment P) (h : Sound P V s) (hinv : Inv K blocks s)
    (hstep : Replaced K s t phi replacement b) : Sound P V t := by
  have hmem : phi ∈ s.phis b := (hinv.mem_phis phi b).2 ⟨hstep.isPhi, hstep.block⟩
  obtain ⟨φ, hφ, rfl⟩ := h.phis b phi hmem
  refine ⟨fun c v hv => h.phis c v ((hstep.mem_phis hinv c).1 hv).1, ?_⟩
  intro u k x p huse hrem
  have hu : u ≠ φ.id := by
    rintro rfl
    exact hrem ⟨b, ⟨φ, hφ, rfl⟩, fun hmem' => ((hstep.mem_phis hinv b).1 hmem').2 rfl⟩
  have hleft : ¬Removed P s u := by
    rintro ⟨c, hc, hnot⟩
    exact hrem ⟨c, hc, fun hmem' => hnot ((hstep.mem_phis hinv c).1 hmem').1⟩
  obtain ⟨y, hy, hscope, hvals⟩ := h.use huse hleft
  have hy' : (t.values.operands u)[k]? = some (redirect φ.id replacement (some y)) := by
    rw [hstep.operands u hu, getElem?_map, hy, Option.map_some]
  by_cases hphi : y = φ.id
  · subst hphi
    rw [redirect, if_pos rfl] at hy'
    refine ⟨replacement, hy', ?_, ?_⟩
    · exact Inevitable.trans hscope fun a a' => h.replacement_inScope hP hstep hφ hmem
    · intro values htrace
      rw [hvals values htrace]
      exact h.value_eq hP hstep hφ hmem htrace hscope
  · rw [redirect, if_neg fun heq => hphi (Option.some.inj heq)] at hy'
    exact ⟨y, hy', hscope, hvals⟩

theorem Sound.eliminated (hP : SingleAssignment P) (h : Sound P V s)
    (hsteps : Eliminated K blocks s t) : Sound P V t := by
  induction hsteps with
  | refl => exact h
  | tail _ hstep ih =>
    obtain ⟨hinv, phi, replacement, b, hstep⟩ := hstep
    exact ih.replace hP hinv hstep

/-- The phase ends with consistent use lists and without redundant phis, and on every run of the
program what is read in place of an operand has its value. -/
theorem redundant_phis_eliminated (hinv : Inv K blocks s) :
    ∃ n t uses, (∀ fuel ≥ n, eliminateRedundantPhis K blocks fuel s = some t) ∧ Consistent t.values uses ∧
      (∀ b, ∀ phi ∈ t.phis b, ∀ c, c ≠ phi → some c ∈ t.values.operands phi →
        ¬∀ x ∈ t.values.operands phi, x = some phi ∨ x = some c) ∧
      (∀ b, ∀ phi ∈ s.phis b, phi ∉ t.phis b → t.values.useList phi = none) ∧
      ∀ P : HProgram β ν ω, SingleAssignment P → Represents P s → ∀ u k x p, UseAt P u k x p → ¬Removed P t u →
          ∃ y, (t.values.operands u)[k]? = some (some y) ∧
            ∀ values : ν → V, Trace P p values → values x = values y := by
  have hphis : ∀ v ∈ (blocks.flatMap s.phis).reverse, K.isPhi v = true := by
    intro v hv
    rw [mem_reverse, mem_flatMap] at hv
    obtain ⟨b, -, hv⟩ := hv
    exact ((hinv.mem_phis v b).1 hv).1
  have hpending : Pending K s (blocks.flatMap s.phis).reverse := by
    intro v hv hblock _
    obtain ⟨b, hb⟩ := Option.ne_none_iff_exists'.1 hblock
    have hmem := (hinv.mem_phis v b).2 ⟨hv, hb⟩
    rw [mem_reverse, mem_flatMap]
    exact ⟨b, hinv.mem_blocks b v hmem, hmem⟩
  obtain ⟨n, t, ht, hinv', hpending', hsteps⟩ := eliminate_spec hinv hpending hphis
  obtain ⟨uses, hcons⟩ := hinv'.uses
  refine ⟨n, t, uses, ht, hcons, ?_, ?_, ?_⟩
  · intro b phi hphi c hne hc hall
    obtain ⟨hisPhi, hblock⟩ := (hinv'.mem_phis phi b).1 hphi
    have hattached : t.block phi ≠ none := by
      rw [hblock]
      exact Option.some_ne_none b
    refine not_mem_nil (hpending' phi hisPhi hattached ?_)
    rw [redundant_isSome hc hne hall]
    exact Option.some_ne_none _
  · intro b phi hphi hremoved
    have hisPhi := ((hinv.mem_phis phi b).1 hphi).1
    exact hinv'.unused hisPhi ((hsteps.block hphi).resolve_left hremoved)
  · intro P hP hrepresents u k x p huse hleft
    obtain ⟨y, hy, -, hvalues⟩ := ((hrepresents.sound hP).eliminated hP hsteps).use huse hleft
    exact ⟨y, hy, hvalues⟩

end Step

local instance instNeZeroFour : NeZero 4 := ⟨by decide⟩

/-- A value, and a loop with a phi of it and a phi of both. The second phi is used. -/
def loopProgram : HProgram Bool (Fin 4) Unit where
  start := false
  successors := fun _ => [true]
  predecessors
    | false => []
    | true => [false, true]
  phis
    | false => []
    | true => [⟨2, [0, 2]⟩, ⟨3, [0, 2]⟩]
  instructions
    | false => [⟨0, (), [], false, ∅, ∅⟩]
    | true => [⟨1, (), [3], false, ∅, ∅⟩]

/-- The use lists as `AddInput` builds them. -/
def loopPhis : Phis Bool (Fin 4) where
  values :=
    { nodes := [⟨none, 2, 0⟩, ⟨none, 2, 1⟩, ⟨some 0, 3, 0⟩, ⟨some 1, 3, 1⟩, ⟨none, 1, 0⟩]
      useList := ![some 2, none, some 3, some 4]
      operands := ![[], [some 3], [some 0, some 2], [some 0, some 2]] }
  block := ![some false, some true, some true, some true]
  phis
    | false => []
    | true => [2, 3]

def loopKinds : Kinds (Fin 4) := ⟨![false, false, true, true], fun _ => true⟩

/-- Both phis are replaced by the value. -/
example : ((eliminateRedundantPhis loopKinds [false, true] 6 loopPhis).map fun t =>
    (t.phis true, t.values.operands 1, t.values.useList 0)) = some ([], [some 0], some 4) := by
  decide

theorem loopPhis_consistent : Consistent loopPhis.values
    ![[(2, 3, 0), (0, 2, 0)], [], [(3, 3, 1), (1, 2, 1)], [(4, 1, 0)]] where
  linked := by
    intro v
    fin_cases v
    all_goals simp [loopPhis, IndexedLists.Linked]
  node := by decide
  apart := by decide
  nodup := by decide
  use_iff := by
    intro v value index
    match index with
    | 0 => revert v value; decide
    | 1 => revert v value; decide
    | k + 2 => revert v value; simp [loopPhis, Fin.forall_fin_succ]
  once := by decide

theorem loopPhis_inv : Inv loopKinds [false, true] loopPhis where
  uses := ⟨_, loopPhis_consistent⟩
  mem_phis := by decide
  nodup := by decide
  mem_blocks := by decide
  attached := by
    intro u k v h
    clear h
    revert u v
    decide
  removed := by
    have hattached : ∀ u, loopKinds.isPhi u = true → loopPhis.block u ≠ none := by decide
    grind -linarith
  complete := by decide

theorem loopProgram_at {p : Bool × Nat} {i : HInstruction (Fin 4) Unit} (h : loopProgram.at p = some i) :
    p = (false, 0) ∧ i = ⟨0, (), [], false, ∅, ∅⟩ ∨ p = (true, 0) ∧ i = ⟨1, (), [3], false, ∅, ∅⟩ := by
  obtain ⟨b, k⟩ := p
  have hlt := lt_length_of_at h
  cases b with
  | false =>
    obtain rfl : k = 0 := Nat.lt_one_iff.1 hlt
    cases h
    exact .inl ⟨rfl, rfl⟩
  | true =>
    obtain rfl : k = 0 := Nat.lt_one_iff.1 hlt
    cases h
    exact .inr ⟨rfl, rfl⟩

theorem loopProgram_phis {b : Bool} {φ : HPhi (Fin 4)} (h : φ ∈ loopProgram.phis b) :
    b = true ∧ (φ = ⟨2, [0, 2]⟩ ∨ φ = ⟨3, [0, 2]⟩) := by
  grind [loopProgram]

/-- The phis are in scope in the loop. -/
theorem loopProgram_inScope {φ : HPhi (Fin 4)} (h : φ ∈ loopProgram.phis true) :
    InScope loopProgram φ.id (true, 0) := by
  refine Inevitable.of_preds (by decide) fun p hflow => .inl ?_
  obtain ⟨b, rfl, -⟩ := hflow.pred_start
  exact defines_of_exit.2 ⟨φ, h, rfl⟩

theorem loopProgram_singleAssignment : SingleAssignment loopProgram where
  unique := by
    intro p q i j hi hj hid
    rcases loopProgram_at hi with ⟨rfl, rfl⟩ | ⟨rfl, rfl⟩ <;>
      rcases loopProgram_at hj with ⟨rfl, rfl⟩ | ⟨rfl, rfl⟩
    · rfl
    · exact absurd hid (by decide)
    · exact absurd hid (by decide)
    · rfl
  phiUnique := by
    grind [loopProgram_phis]
  phiNotInstruction := by
    grind [loopProgram_phis, loopProgram_at]
  edges := by
    intro b s
    revert b s
    decide
  operands := by
    intro p i hi x hx
    rcases loopProgram_at hi with ⟨rfl, rfl⟩ | ⟨rfl, rfl⟩
    · exact absurd hx not_mem_nil
    · rw [mem_singleton] at hx
      subst hx
      exact loopProgram_inScope (φ := ⟨3, [0, 2]⟩) (by simp [loopProgram])
  phiOperands := by
    intro s φ hφ n p hpred
    obtain ⟨rfl, hφ'⟩ := loopProgram_phis hφ
    have hops : φ.operands = [0, 2] := by rcases hφ' with rfl | rfl <;> rfl
    rw [hops]
    match n with
    | 0 =>
      cases hpred
      have hi : loopProgram.at (false, 0) = some ⟨0, (), [], false, ∅, ∅⟩ := rfl
      exact ⟨0, rfl, (available_of_at hi).inScope⟩
    | 1 =>
      cases hpred
      exact ⟨2, rfl, (loopProgram_inScope (φ := ⟨2, [0, 2]⟩) (by simp [loopProgram])).next⟩
    | n + 2 => exact nomatch hpred

theorem loopPhis_represents : Represents loopProgram loopPhis where
  phis b := by cases b <;> rfl
  phiOperands b φ hφ := by
    obtain ⟨-, rfl | rfl⟩ := loopProgram_phis hφ <;> rfl
  instructionOperands p i hi := by
    rcases loopProgram_at hi with ⟨-, rfl⟩ | ⟨-, rfl⟩ <;> rfl

/-- The use in the loop is that of a value with the value of the second phi. -/
theorem redundant_phis_eliminated_loop :
    ∃ n t, (∀ fuel ≥ n, eliminateRedundantPhis loopKinds [false, true] fuel loopPhis = some t) ∧
      ∃ y, (t.values.operands 1)[0]? = some (some y) ∧
        ∀ values : Fin 4 → Int, Trace loopProgram (true, 0) values → values 3 = values y := by
  obtain ⟨n, t, _, ht, -, -, -, hvalues⟩ :=
    redundant_phis_eliminated (ω := Unit) (V := Int) loopPhis_inv
  refine ⟨n, t, ht, ?_⟩
  refine hvalues loopProgram loopProgram_singleAssignment loopPhis_represents 1 0 3 (true, 0)
    (.instruction (p := (true, 0)) (i := ⟨1, (), [3], false, ∅, ∅⟩) rfl rfl) ?_
  rintro ⟨b, ⟨φ, hφ, hid⟩, -⟩
  obtain ⟨-, rfl | rfl⟩ := loopProgram_phis hφ
  · exact absurd hid (by decide)
  · exact absurd hid (by decide)

end W16.PhiElimination
