import W16.Dominance
import W16.LoopRegistration
import Mathlib.Data.Finset.Lattice.Basic

/-!
# Instructions and their flow

A block has phis and a list of instructions. A point is a block with the number of
instructions that were executed in it; control goes from point to point. A value is
in scope at a point when every path to the point defines it, and an instruction is
available when it is in scope and nothing it depends on was changed since.
-/
namespace W16.Hydrogen

open Relation Dominance List

/-- `GVN_FLAG_LIST`: the parts of the state that instructions change and depend on. -/
inductive GvnFlag where
  | calls
  | inobjectFields
  | backingStoreFields
  | arrayElements
  | doubleArrayElements
  | specializedArrayElements
  | globalVars
  | maps
  | arrayLengths
  | contextSlots
  | osrEntries
  deriving DecidableEq, Repr

/-- An `HInstruction`. Here `op` is what `Equals` compares other than the operands
and the flags. The flags `kChangesX` and `kDependsOnX` are two sets. -/
structure HInstruction (ν ω : Type) where
  id : ν
  op : ω
  operands : List ν
  useGvn : Bool
  changesFlags : Finset GvnFlag
  dependsOnFlags : Finset GvnFlag
  deriving DecidableEq

/-- A phi has one operand for each predecessor of its block. -/
structure HPhi (ν : Type) where
  id : ν
  operands : List ν

/-- The graph with its phis and instructions. -/
structure HProgram (β ν ω : Type) extends HGraph β where
  phis : β → List (HPhi ν)
  instructions : β → List (HInstruction ν ω)

variable {β ν ω : Type}

/-- The instruction that is executed next. -/
def HProgram.at (P : HProgram β ν ω) (p : β × Nat) : Option (HInstruction ν ω) :=
  (P.instructions p.1)[p.2]?

def HProgram.entry (P : HProgram β ν ω) : β × Nat := (P.start, 0)

/-- The point after the last instruction of a block. -/
def HProgram.exit (P : HProgram β ν ω) (b : β) : β × Nat := (b, (P.instructions b).length)

/-- Control goes through a block and along its edges. -/
inductive Flow (P : HProgram β ν ω) : β × Nat → β × Nat → Prop
  | next {b : β} {k : Nat} : k < (P.instructions b).length → Flow P (b, k) (b, k + 1)
  | edge {b s : β} : s ∈ P.successors b → Flow P (P.exit b) (s, 0)

/-- The step executes the instruction `v`, or enters the block of the phi `v`. -/
def Defines (P : HProgram β ν ω) (v : ν) (p q : β × Nat) : Prop :=
  (∃ i, P.at p = some i ∧ i.id = v) ∨ P.at p = none ∧ ∃ φ ∈ P.phis q.1, φ.id = v

/-- Every path to the point defines the value. -/
def InScope (P : HProgram β ν ω) (v : ν) (p : β × Nat) : Prop :=
  Inevitable (Flow P) P.entry (Defines P v) p

/-- The next instruction changes what `i` depends on. -/
def Kills (P : HProgram β ν ω) (i : HInstruction ν ω) (p : β × Nat) : Prop :=
  ∃ j, P.at p = some j ∧ ¬Disjoint j.changesFlags i.dependsOnFlags

/-- Every path to the point executes `i`, and no instruction after the last time
changes what `i` depends on. -/
structure Available (P : HProgram β ν ω) (i : HInstruction ν ω) (p : β × Nat) : Prop where
  inScope : InScope P i.id p
  unchanged : ∀ {q q' a a'}, Flow P q q' → Defines P i.id q q' →
    ReflTransGen (Avoiding (Flow P) (Defines P i.id)) q' a →
    Avoiding (Flow P) (Defines P i.id) a a' →
    ReflTransGen (Avoiding (Flow P) (Defines P i.id)) a' p → ¬Kills P i a

/-- Static single assignment: a value is defined in one place and used in its scope.
An instruction that takes part in value numbering has no side effects and does not
end a block. -/
structure WellFormed (P : HProgram β ν ω) : Prop where
  unique : ∀ {p q i j}, P.at p = some i → P.at q = some j → i.id = j.id → p = q
  phiUnique : ∀ {b c φ ψ}, φ ∈ P.phis b → ψ ∈ P.phis c → φ.id = ψ.id → b = c ∧ φ = ψ
  phiNotInstruction : ∀ {b p φ i}, φ ∈ P.phis b → P.at p = some i → φ.id ≠ i.id
  operands : ∀ {p i}, P.at p = some i → ∀ x ∈ i.operands, InScope P x p
  phiOperands : ∀ {s φ}, φ ∈ P.phis s → ∀ (n : Nat) p, (P.predecessors s)[n]? = some p →
    ∃ x, φ.operands[n]? = some x ∧ InScope P x (P.exit p)
  pure : ∀ {p i}, P.at p = some i → i.useGvn = true → i.changesFlags = ∅
  control : ∀ {b i}, (P.instructions b).getLast? = some i → i.useGvn = false

variable {P : HProgram β ν ω} {i j : HInstruction ν ω} {b c d s : β} {k : Nat} {p q : β × Nat} {v x : ν}

theorem at_exit : P.at (P.exit b) = none := by
  simp [HProgram.at, HProgram.exit]

theorem lt_length_of_at (h : P.at (b, k) = some i) : k < (P.instructions b).length :=
  (List.getElem?_eq_some_iff.1 h).1

theorem exists_at_of_lt (h : k < (P.instructions b).length) : ∃ i, P.at (b, k) = some i :=
  ⟨_, List.getElem?_eq_getElem h⟩

theorem mem_of_at (h : P.at (b, k) = some i) : i ∈ P.instructions b :=
  mem_of_getElem? h

theorem Flow.of_at (h : P.at (b, k) = some i) : Flow P (b, k) (b, k + 1) :=
  .next (lt_length_of_at h)

/-- A point inside of a block is reached from the point before it. -/
theorem Flow.pred_next (h : Flow P p (b, k + 1)) : p = (b, k) := by
  cases h
  rfl

theorem Flow.pred_start (h : Flow P p (s, 0)) : ∃ b, p = P.exit b ∧ s ∈ P.successors b := by
  cases h with
  | @edge b _ hs => exact ⟨b, rfl, hs⟩

/-- An instruction has one point after it. -/
theorem Flow.of_some (h : Flow P p q) (hp : P.at p = some i) : q = (p.1, p.2 + 1) := by
  cases h with
  | next _ => rfl
  | edge _ =>
    rw [at_exit] at hp
    cases hp

theorem defines_of_at (h : P.at p = some i) : Defines P v p q ↔ i.id = v := by
  simp [Defines, h]

theorem defines_of_exit : Defines P v (P.exit b) (s, k) ↔ ∃ φ ∈ P.phis s, φ.id = v := by
  simp [Defines, at_exit]

theorem not_defines_of_edge (hP : WellFormed P) (hi : P.at q = some i) : ¬Defines P i.id (P.exit b) (s, k) := by
  rw [defines_of_exit]
  rintro ⟨φ, hφ, heq⟩
  exact hP.phiNotInstruction hφ hi heq

/-- An instruction is defined at its own point. -/
theorem Defines.eq_at {q' : β × Nat} (hP : WellFormed P) (hi : P.at q = some i)
    (h : Defines P i.id p q') : p = q := by
  rcases h with ⟨j, hj, hid⟩ | ⟨-, φ, hφ, hid⟩
  · exact hP.unique hj hi hid
  · exact absurd hid (hP.phiNotInstruction hφ hi)

theorem InScope.next (h : InScope P v (b, k)) : InScope P v (b, k + 1) := by
  refine .of_preds (by simp [HProgram.entry]) fun p hflow => .inr ?_
  rw [hflow.pred_next]
  exact h

/-- An instruction that changes nothing else keeps it available. -/
theorem Available.next (h : Available P i (b, k)) (hkill : ¬Kills P i (b, k)) : Available P i (b, k + 1) where
  inScope := h.inScope.next
  unchanged := by
    intro q q' a a' hflow hdef hqa hstep hpath
    rcases hpath.cases_tail with heq | ⟨c, hpath, hlast⟩
    · rw [← heq] at hstep
      rw [hstep.1.pred_next]
      exact hkill
    · rw [hlast.1.pred_next] at hpath
      exact h.unchanged hflow hdef hqa hstep hpath

/-- An instruction that was just executed is available. -/
theorem available_of_at (hi : P.at (b, k) = some i) : Available P i (b, k + 1) where
  inScope := by
    refine .of_preds (by simp [HProgram.entry]) fun p hflow => .inl ?_
    rw [hflow.pred_next]
    exact (defines_of_at hi).2 rfl
  unchanged := by
    have hlast : ∀ {c}, ¬Avoiding (Flow P) (Defines P i.id) c (b, k + 1) := by
      intro c hstep
      apply hstep.2
      rw [hstep.1.pred_next]
      exact (defines_of_at hi).2 rfl
    grind

/-- Backwards from the start of `c` the flow stays in the region until it comes from
the end of `d`. -/
theorem region_or_exit {F : β × Nat → β × Nat → Prop} (hF : ∀ p q, F p q → Flow P p q) {region : β → Prop}
    (hregion : ∀ a b, region b ∨ b = c → b ∈ P.successors a → a = d ∨ region a)
    (hpath : ReflTransGen F p (c, 0)) :
    p = (c, 0) ∨ region p.1 ∨ ReflTransGen F p (P.exit d) := by
  induction hpath using ReflTransGen.head_induction_on with
  | refl => exact .inl rfl
  | @head p q hstep _ ih =>
    have hflow := hF p q hstep
    rcases ih with rfl | ih | ih
    · obtain ⟨a, rfl, ha⟩ := hflow.pred_start
      rcases hregion a c (.inr rfl) ha with rfl | ha
      · exact .inr (.inr .refl)
      · exact .inr (.inl ha)
    · cases hflow with
      | next _ => exact .inr (.inl ih)
      | @edge a s hs =>
        rcases hregion a s (.inl ih) hs with rfl | ha
        · exact .inr (.inr .refl)
        · exact .inr (.inl ha)
    · exact .inr (.inr (ih.head hstep))

/-- From the end of `d` to the start of `c`, when nothing in the region between them
changes what `i` depends on. -/
theorem Available.region (h : Available P i (P.exit d)) (region : β → Prop)
    (hstart : ¬region P.start) (hc : c ≠ P.start)
    (hregion : ∀ a b, region b ∨ b = c → b ∈ P.successors a → a = d ∨ region a)
    (hkill : ∀ b, region b → ∀ j ∈ P.instructions b, Disjoint j.changesFlags i.dependsOnFlags) :
    Available P i (c, 0) where
  inScope := by
    intro hpath
    rcases region_or_exit (fun _ _ h => h.1) hregion hpath with heq | hin | hexit
    · exact hc (Prod.ext_iff.1 heq).1.symm
    · exact hstart hin
    · exact h.inScope hexit
  unchanged := by
    intro q q' a a' hflow hdef hqa hstep hpath
    rintro ⟨j, hj, hkills⟩
    have hnext : a' = (a.1, a.2 + 1) := hstep.1.of_some hj
    rcases region_or_exit (fun _ _ h => h.1) hregion hpath with heq | hin | hexit
    · rw [hnext] at heq
      cases heq
    · rw [hnext] at hin
      exact hkills (hkill a.1 hin j (mem_of_at hj))
    · exact h.unchanged hflow hdef hqa hstep hexit ⟨j, hj, hkills⟩

/-- Instructions for the examples: a load and a store of a field, a branch on the
field and a goto. -/
inductive FieldOp where
  | load
  | store
  | branch
  | goto
  deriving DecidableEq

def FieldOp.instruction (id : Nat) : FieldOp → HInstruction Nat FieldOp
  | .load => ⟨id, .load, [], true, ∅, {.maps, .inobjectFields}⟩
  | .store => ⟨id, .store, [], false, {.inobjectFields}, ∅⟩
  | op => ⟨id, op, [], false, ∅, ∅⟩

/-- Blocks of at most ten instructions without operands and phis, numbered by their
places. -/
def fieldProgram {n : Nat} (G : HGraph (Fin n)) (code : Fin n → List FieldOp) : HProgram (Fin n) Nat FieldOp :=
  { G with
    phis := fun _ => []
    instructions := fun b => (code b).mapIdx fun k op => op.instruction (10 * b.val + k) }

end W16.Hydrogen

/-!
## Runs of a Hydrogen graph

A semantics gives every instruction a value, an effect on the state and, for the
last instruction of a block, the successor. A run goes from block to block: the
phis are assigned together when a block is entered, then the instructions are
executed in their order.
-/
namespace W16.Hydrogen

open Relation Dominance

variable {β ν ω τ κ : Type} [DecidableEq β] [DecidableEq ν]

/-- The meaning of the instructions; the state has a part for every flag. -/
structure Semantics (ω τ κ : Type) where
  eval : ω → List τ → (GvnFlag → κ) → τ
  effect : ω → List τ → (GvnFlag → κ) → GvnFlag → κ
  branch : ω → List τ → (GvnFlag → κ) → Nat

/-- The flags are right: an instruction that takes part in value numbering depends on
nothing else, and an instruction changes nothing else. -/
structure Semantics.Respects (M : Semantics ω τ κ) (P : HProgram β ν ω) : Prop where
  depends : ∀ {p i}, P.at p = some i → i.useGvn = true → ∀ args (σ σ' : GvnFlag → κ),
    (∀ f ∈ i.dependsOnFlags, σ f = σ' f) → M.eval i.op args σ = M.eval i.op args σ'
  changes : ∀ {p i}, P.at p = some i → ∀ args (σ : GvnFlag → κ), ∀ f ∉ i.changesFlags,
    M.effect i.op args σ f = σ f

/-- The values and the state. -/
structure Config (ν τ κ : Type) where
  values : ν → τ
  state : GvnFlag → κ

/-- One instruction. -/
def Semantics.execute (M : Semantics ω τ κ) (c : Config ν τ κ) (i : HInstruction ν ω) : Config ν τ κ where
  values := Function.update c.values i.id (M.eval i.op (i.operands.map c.values) c.state)
  state := M.effect i.op (i.operands.map c.values) c.state

def Semantics.executeBlock (M : Semantics ω τ κ) (P : HProgram β ν ω) (b : β)
    (c : Config ν τ κ) : Config ν τ κ := (P.instructions b).foldl M.execute c

/-- The values after the phis of `s` have been assigned, coming from `b`. -/
def assignPhis (P : HProgram β ν ω) (b s : β) (values : ν → τ) (v : ν) : τ :=
  match (P.phis s).find? fun φ => φ.id = v with
  | some φ => values (φ.operands.getD ((P.predecessors s).idxOf b) φ.id)
  | none => values v

/-- The successor that the last instruction of the block takes. -/
def Semantics.next (M : Semantics ω τ κ) (P : HProgram β ν ω) (b : β) (c : Config ν τ κ) : Option β := do
  let i ← (P.instructions b).getLast?
  (P.successors b)[M.branch i.op (i.operands.map c.values) c.state]?

/-- A block is executed and the next one entered. -/
def Semantics.step (M : Semantics ω τ κ) (P : HProgram β ν ω) (st : β × Config ν τ κ) :
    Option (β × Config ν τ κ) := do
  let c := M.executeBlock P st.1 st.2
  let s ← M.next P st.1 c
  some (s, { c with values := assignPhis P st.1 s c.values })

/-- The block that is entered after `n` steps, if there is one, and the values there. -/
def Semantics.run (M : Semantics ω τ κ) (P : HProgram β ν ω) (c : Config ν τ κ) :
    Nat → Option (β × Config ν τ κ)
  | 0 => some (P.start, c)
  | n + 1 => (M.run P c n).bind (M.step P)

variable {M : Semantics ω τ κ} {P : HProgram β ν ω} {b s : β} {p q : β × Nat} {v x : ν}
  {i j : HInstruction ν ω} {k : Nat}

omit [DecidableEq β] [DecidableEq ν] in
/-- A value is not in scope where it is defined. -/
theorem not_inScope_at (hP : WellFormed P) (hi : P.at p = some i)
    (hreach : ReflTransGen (Flow P) P.entry p) : ¬InScope P i.id p := by
  intro hscope
  have hstep : ∀ a a', Flow P a a' → Defines P i.id a a' → Inevitable (Flow P) P.entry (Defines P i.id) a := by
    intro a a' _ hdef
    rw [hdef.eq_at hP hi]
    exact hscope
  exact no_mutual_steps hstep hstep hreach (Flow.of_at hi) ((defines_of_at hi).2 rfl)

omit [DecidableEq β] [DecidableEq ν] in
/-- What is in scope at an instruction in scope is in scope. -/
theorem InScope.trans (hP : WellFormed P) (hi : P.at q = some i) (hv : InScope P v q)
    (hscope : InScope P i.id p) : InScope P v p := by
  refine Inevitable.trans hscope fun a a' _ hdef => ?_
  rw [hdef.eq_at hP hi]
  exact hv

omit [DecidableEq β] [DecidableEq ν] in
/-- While an instruction stays in scope, what was in scope at it is not defined
again. -/
theorem not_defines_of_inScope (hP : WellFormed P) {p' : β × Nat} (hi : P.at q = some i)
    (hx : InScope P x q) (hreach : ReflTransGen (Flow P) P.entry p) (hflow : Flow P p p')
    (hscope : InScope P i.id p') (hnot : ¬Defines P i.id p p') : ¬Defines P x p p' := by
  intro hdef
  refine no_mutual_steps (C := Defines P x) (D := Defines P i.id) ?_ ?_ hreach hflow hdef
  · -- all places that define `x` are like this one
    intro a a' hflow' hdef'
    rcases hdef with ⟨j, hj, rfl⟩ | ⟨hnone, φ, hφ, rfl⟩
    · rw [hdef'.eq_at hP hj]
      exact hscope.pred hflow hnot
    · rcases hdef' with ⟨j, hj, hid⟩ | ⟨hnone', ψ, hψ, hid⟩
      · exact absurd hid.symm (hP.phiNotInstruction hφ hj)
      · obtain ⟨hblock, -⟩ := hP.phiUnique hψ hφ hid
        cases hflow with
        | next hlt =>
          obtain ⟨j, hj⟩ := exists_at_of_lt hlt
          rw [hnone] at hj
          cases hj
        | edge _ =>
          cases hflow' with
          | next hlt =>
            obtain ⟨j, hj⟩ := exists_at_of_lt hlt
            rw [hnone'] at hj
            cases hj
          | edge hs =>
            cases hblock
            exact hscope.pred (.edge hs) (not_defines_of_edge hP hi)
  · intro a a' _ hdef'
    rw [hdef'.eq_at hP hi]
    exact hx

omit [DecidableEq β] [DecidableEq ν] in
/-- Available after a step that is not its own: available before, and not changed. -/
theorem Available.prev {p' : β × Nat} (h : Available P i p') (hflow : Flow P p p') (hnot : ¬Defines P i.id p p')
    (hreach : ReflTransGen (Flow P) P.entry p) : Available P i p ∧ ¬Kills P i p := by
  have hstep : Avoiding (Flow P) (Defines P i.id) p p' := ⟨hflow, hnot⟩
  refine ⟨⟨h.inScope.pred hflow hnot, ?_⟩, ?_⟩
  · intro q q' a a' hq hdef hqa haa' hpath
    exact h.unchanged hq hdef hqa haa' (hpath.tail hstep)
  · -- the instruction was executed on the way
    have hscope := h.inScope.pred hflow hnot
    suffices ∀ {a}, ReflTransGen (Flow P) P.entry a → InScope P i.id a →
        ∃ q q', Flow P q q' ∧ Defines P i.id q q' ∧ ReflTransGen (Avoiding (Flow P) (Defines P i.id)) q' a by
      obtain ⟨q, q', hq, hdef, hpath⟩ := this hreach hscope
      exact h.unchanged hq hdef hpath hstep .refl
    intro a ha
    induction ha with
    | refl => exact fun hscope => absurd hscope not_inevitable_start
    | @tail a a' _ hflow ih =>
      intro hscope
      by_cases hdef : Defines P i.id a a'
      · exact ⟨a, a', hflow, hdef, .refl⟩
      · obtain ⟨q, q', hq, hdef', hpath⟩ := ih (hscope.pred hflow hdef)
        exact ⟨q, q', hq, hdef', hpath.tail ⟨hflow, hdef⟩⟩

theorem assignPhis_of_not_phi {values : ν → τ} (h : ∀ φ ∈ P.phis s, φ.id ≠ v) :
    assignPhis P b s values v = values v := by
  grind [assignPhis]

omit [DecidableEq β] in
theorem find?_phi {φ : HPhi ν} (hP : WellFormed P) (hφ : φ ∈ P.phis s) :
    (P.phis s).find? (fun ψ => ψ.id = φ.id) = some φ := by
  obtain ⟨ψ, hψ⟩ : ∃ ψ, (P.phis s).find? (fun ψ => ψ.id = φ.id) = some ψ := by
    rw [← Option.isSome_iff_exists, List.find?_isSome]
    exact ⟨φ, hφ, by simp⟩
  have hid : ψ.id = φ.id := by simpa using List.find?_some hψ
  rw [hψ, (hP.phiUnique (List.mem_of_find?_eq_some hψ) hφ hid).2]

omit [DecidableEq ν] in
/-- The operand of a phi for a predecessor. -/
theorem exists_phi_operand {φ : HPhi ν} (hP : WellFormed P) (hφ : φ ∈ P.phis s)
    (hb : b ∈ P.predecessors s) : ∃ x, InScope P x (P.exit b) ∧
      φ.operands[(P.predecessors s).idxOf b]? = some x := by
  have hindex : (P.predecessors s)[(P.predecessors s).idxOf b]? = some b := by
    grind
  obtain ⟨x, hx, hscope⟩ := hP.phiOperands hφ _ b hindex
  exact ⟨x, hscope, hx⟩

end W16.Hydrogen
