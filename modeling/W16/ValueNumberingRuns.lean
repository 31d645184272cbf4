import W16.HydrogenFlow
import W16.ValueNumbering

/-!
# Value numbering preserves runs

In a run of the original graph an available instruction would have the same value
again, so a replaced instruction has the value of the one that replaces it as long
as it is in scope. The graph without the replaced instructions therefore takes the
same steps with the same values.
-/
namespace W16.Hydrogen

open Relation Dominance List Option Function

set_option linter.dupNamespace false

variable {β ν ω τ κ : Type} [DecidableEq ν] [DecidableEq ω]

/-- The graph after the pass: the replaced instructions are deleted and all uses
renamed. -/
def HProgram.replace (P : HProgram β ν ω) (log : Replacements ν ω) : HProgram β ν ω :=
  { P with
    phis := fun b => (P.phis b).map fun φ => { φ with operands := φ.operands.map log.use }
    instructions := fun b => ((P.instructions b).filter fun i => ∀ r ∈ log, r.1.id ≠ i.id).map
      fun i => { i with operands := i.operands.map log.use } }

variable {M : Semantics ω τ κ} {P : HProgram β ν ω} {log : Replacements ν ω} {b s : β}
  {p q : β × Nat} {v x : ν} {i j : HInstruction ν ω} {k : Nat} {c c' : Config ν τ κ}

/-- The values of a run at a point. -/
structure Tracked (M : Semantics ω τ κ) (P : HProgram β ν ω) (log : Replacements ν ω)
    (p : β × Nat) (c : Config ν τ κ) : Prop where
  reached : ReflTransGen (Flow P) P.entry p
  replaced : ∀ r ∈ log, InScope P r.1.id p → c.values r.1.id = c.values r.2.id
  available : ∀ {i q}, P.at q = some i → i.useGvn = true → Available P i p →
    c.values i.id = M.eval i.op (i.operands.map c.values) c.state

omit [DecidableEq ω] in
theorem use_append {r : HInstruction ν ω × HInstruction ν ω} :
    Replacements.use (log ++ [r]) v = if log.use v = r.1.id then r.2.id else log.use v := by
  rw [Replacements.use, foldl_append]
  rfl

/-- A use in scope stays in scope and has the same value. -/
theorem Justified.use_value (hP : WellFormed P) (hlog : Justified P log)
    (hvals : ∀ r ∈ log, InScope P r.1.id p → c.values r.1.id = c.values r.2.id)
    (hv : InScope P v p) : InScope P (log.use v) p ∧ c.values (log.use v) = c.values v := by
  induction hlog with
  | nil => exact ⟨hv, rfl⟩
  | @snoc log r hlog hr ih =>
    obtain ⟨hscope, hvalue⟩ := ih fun r hr => hvals r (mem_append_left _ hr)
    rw [use_append]
    split
    · next heq =>
      rw [heq] at hscope hvalue
      obtain ⟨p', hp', havail⟩ := hr.instruction
      refine ⟨havail.inScope.trans hP hp' hscope, ?_⟩
      grind
    · exact ⟨hscope, hvalue⟩

/-- A use is never of a replaced instruction. -/
theorem Justified.use_kept (hlog : Justified P log) : ∀ r ∈ log, r.1.id ≠ log.use v := by
  induction hlog with
  | nil => simp
  | @snoc log r hlog hr ih =>
    intro r' hr'
    rw [use_append]
    rcases mem_append.1 hr' with hr' | hr'
    · split
      · exact hr.kept r' hr'
      · exact ih r' hr'
    · rw [mem_singleton.1 hr']
      split
      · exact hr.ne.symm
      · next hne => exact fun heq => hne heq.symm

/-- The replacements before one of them. -/
theorem Justified.exists_replaced (hlog : Justified P log)
    {r : HInstruction ν ω × HInstruction ν ω} (hr : r ∈ log) :
    ∃ log', Justified P log' ∧ Replaced P log' r ∧ ∀ r' ∈ log', r' ∈ log := by
  induction hlog with
  | nil => exact absurd hr not_mem_nil
  | @snoc log r' hlog hr' ih =>
    grind

/-- Operands that are the same after the replacements have the same values. -/
theorem Tracked.operands_eq (hP : WellFormed P) (h : Tracked M P log p c) {log' : Replacements ν ω}
    (hlog' : Justified P log') (hsub : ∀ r ∈ log', r ∈ log) {xs ys : List ν}
    (hxs : ∀ x ∈ xs, InScope P x p) (hys : ∀ y ∈ ys, InScope P y p)
    (heq : xs.map log'.use = ys.map log'.use) : xs.map c.values = ys.map c.values := by
  have huse : ∀ {zs : List ν}, (∀ z ∈ zs, InScope P z p) →
      zs.map c.values = (zs.map log'.use).map c.values := by
    intro zs hzs
    rw [List.map_map]
    refine map_congr_left fun z hz => ?_
    exact (hlog'.use_value hP (fun r hr => h.replaced r (hsub r hr)) (hzs z hz)).2.symm
  rw [huse hxs, huse hys, heq]

/-- An instruction that is executed. -/
theorem Tracked.execute (hM : M.Respects P) (hP : WellFormed P) (hlog : Justified P log)
    (h : Tracked M P log (b, k) c) (hj : P.at (b, k) = some j) :
    Tracked M P log (b, k + 1) (M.execute c j) := by
  have hflow : Flow P (b, k) (b, k + 1) := .of_at hj
  have hdefines : ∀ {v}, v ≠ j.id → ¬Defines P v (b, k) (b, k + 1) := by
    intro v hne hdef
    exact hne ((defines_of_at hj).1 hdef).symm
  -- the operands of an instruction in scope keep their values
  have hkeep : ∀ {i q x}, P.at q = some i → InScope P x q → i.id ≠ j.id →
      InScope P i.id (b, k + 1) → (M.execute c j).values x = c.values x := by
    intro i q x hi hx hne hscope
    refine update_of_ne ?_ _ _
    rintro rfl
    exact not_defines_of_inScope hP hi hx h.reached hflow hscope (hdefines hne) ((defines_of_at hj).2 rfl)
  have hother : ∀ {v}, v ≠ j.id → (M.execute c j).values v = c.values v :=
    fun hne => update_of_ne hne _ _
  refine ⟨h.reached.tail hflow, ?_, ?_⟩
  · intro r hr hscope
    obtain ⟨log', hlog', hrepl, hsub⟩ := hlog.exists_replaced hr
    obtain ⟨p', hp', havail⟩ := hrepl.instruction
    by_cases hrj : r.1.id = j.id
    · -- the replaced instruction would compute the value again
      obtain rfl : p' = (b, k) := hP.unique hp' hj hrj
      obtain rfl : r.1 = j := some.inj (hp'.symm.trans hj)
      obtain ⟨q, hq⟩ := hrepl.other
      have hequals := hrepl.equals
      simp only [Replacements.equals, decide_eq_true_eq] at hequals
      obtain ⟨hop, hgvn, -, -, hops⟩ := hequals
      rw [hother hrepl.ne, h.available hq (hgvn.trans hrepl.useGvn) havail, hop]
      show Function.update c.values r.1.id _ r.1.id = _
      rw [update_self]
      congr 1
      refine h.operands_eq hP hlog' hsub (hP.operands hj) (fun y hy => ?_) hops.symm
      exact (hP.operands hq y hy).trans hP hq havail.inScope
    · rw [hother hrj, hkeep hp' havail.inScope hrj hscope]
      exact h.replaced r hr (hscope.pred hflow (hdefines hrj))
  · intro i q hi hgvn havail
    by_cases hij : i.id = j.id
    · obtain rfl : q = (b, k) := hP.unique hi hj hij
      obtain rfl : i = j := some.inj (hi.symm.trans hj)
      have hpure := hP.pure hj hgvn
      have hstate : (M.execute c i).state = c.state := by
        funext f
        exact hM.changes hj _ _ f (by rw [hpure]; exact Finset.notMem_empty f)
      have hargs : i.operands.map (M.execute c i).values = i.operands.map c.values := by
        refine map_congr_left fun x hx => hother ?_
        rintro rfl
        exact not_inScope_at hP hj h.reached (hP.operands hj _ hx)
      rw [hstate, hargs]
      exact update_self _ _ _
    · obtain ⟨hbefore, hkills⟩ := havail.prev hflow (hdefines hij) h.reached
      have hargs := map_congr_left fun x hx => hkeep hi (hP.operands hi x hx) hij havail.inScope
      rw [hother hij, hargs, h.available hi hgvn hbefore]
      refine hM.depends hi hgvn _ _ _ fun f hf => (hM.changes hj _ _ f fun hfj => hkills ?_).symm
      exact ⟨j, hj, fun hdisj => Finset.disjoint_left.1 hdisj hfj hf⟩

/-- The same state, and the same values in scope that are not replaced. -/
structure SameValues (P : HProgram β ν ω) (log : Replacements ν ω) (p : β × Nat)
    (c c' : Config ν τ κ) : Prop where
  state : c'.state = c.state
  values : ∀ v, InScope P v p → (∀ r ∈ log, r.1.id ≠ v) → c'.values v = c.values v

/-- The values of the operands are the same after renaming. -/
theorem SameValues.use (hP : WellFormed P) (hlog : Justified P log) (h : Tracked M P log p c)
    (hsame : SameValues P log p c c') (hv : InScope P v p) :
    c'.values (log.use v) = c.values v := by
  obtain ⟨hscope, hvalue⟩ := hlog.use_value hP h.replaced hv
  rw [hsame.values _ hscope hlog.use_kept, hvalue]

theorem SameValues.operands (hP : WellFormed P) (hlog : Justified P log)
    (h : Tracked M P log p c) (hsame : SameValues P log p c c') {xs : List ν}
    (hxs : ∀ x ∈ xs, InScope P x p) : (xs.map log.use).map c'.values = xs.map c.values := by
  rw [List.map_map]
  exact map_congr_left fun x hx => hsame.use hP hlog h (hxs x hx)

/-- What the new graph has for the instructions of a part of a block. -/
def Replacements.rewrite (log : Replacements ν ω) (l : List (HInstruction ν ω)) : List (HInstruction ν ω) :=
  (l.filter fun i => ∀ r ∈ log, r.1.id ≠ i.id).map fun i => { i with operands := i.operands.map log.use }

/-- One instruction and what is left of it. -/
theorem SameValues.execute (hP : WellFormed P) (hM : M.Respects P) (hlog : Justified P log)
    (h : Tracked M P log (b, k) c) (hsame : SameValues P log (b, k) c c')
    (hj : P.at (b, k) = some j) :
    SameValues P log (b, k + 1) (M.execute c j) ((log.rewrite [j]).foldl M.execute c') := by
  have hscope : ∀ {v}, InScope P v (b, k + 1) → v ≠ j.id → InScope P v (b, k) := by
    intro v hv hne
    exact hv.pred (.of_at hj) fun hdef => hne ((defines_of_at hj).1 hdef).symm
  by_cases hkept : ∀ r ∈ log, r.1.id ≠ j.id
  · have hrewrite : log.rewrite [j] = [{ j with operands := j.operands.map log.use }] := by
      rw [Replacements.rewrite, filter_cons_of_pos (by simpa using hkept)]
      rfl
    rw [hrewrite]
    have hargs := hsame.operands hP hlog h (hP.operands hj)
    refine ⟨?_, fun v hv hnot => ?_⟩
    · show M.effect j.op _ c'.state = M.effect j.op _ c.state
      rw [hargs, hsame.state]
    · show Function.update c'.values j.id (M.eval j.op _ c'.state) v =
        Function.update c.values j.id (M.eval j.op _ c.state) v
      rw [hargs, hsame.state]
      by_cases hvj : v = j.id
      · grind
      · rw [update_of_ne hvj, update_of_ne hvj]
        exact hsame.values v (hscope hv hvj) hnot
  · have hrewrite : log.rewrite [j] = [] := by
      simp only [Replacements.rewrite, filter_cons, filter_nil, hkept, decide_false]
      rfl
    rw [hrewrite]
    push Not at hkept
    obtain ⟨r, hr, hid⟩ := hkept
    obtain ⟨_, -, hrepl, -⟩ := hlog.exists_replaced hr
    obtain ⟨p', hp', -⟩ := hrepl.instruction
    have hgvn : j.useGvn = true := by
      obtain rfl := hP.unique hp' hj hid
      rw [← some.inj (hp'.symm.trans hj)]
      exact hrepl.useGvn
    refine ⟨?_, fun v hv hnot => ?_⟩
    · funext f
      rw [foldl_nil, hsame.state]
      refine (hM.changes hj _ _ f ?_).symm
      rw [hP.pure hj hgvn]
      exact Finset.notMem_empty f
    · have hvj : v ≠ j.id := fun heq => hnot r hr (hid.trans heq.symm)
      rw [foldl_nil, hsame.values v (hscope hv hvj) hnot]
      exact (update_of_ne hvj _ _).symm

variable [DecidableEq β]

/-- A block that is entered. -/
theorem Tracked.enter (hP : WellFormed P) (hlog : Justified P log)
    (h : Tracked M P log (P.exit b) c) (hs : s ∈ P.successors b) :
    Tracked M P log (s, 0) { c with values := assignPhis P b s c.values } := by
  have hflow : Flow P (P.exit b) (s, 0) := .edge hs
  have hinstr : ∀ {i q}, P.at q = some i → assignPhis P b s c.values i.id = c.values i.id :=
    fun hi => assignPhis_of_not_phi fun φ hφ => hP.phiNotInstruction hφ hi
  have hkeep : ∀ {i q x}, P.at q = some i → InScope P x q → InScope P i.id (s, 0) →
      assignPhis P b s c.values x = c.values x := by
    intro i q x hi hx hscope
    refine assignPhis_of_not_phi fun φ hφ hid => ?_
    exact not_defines_of_inScope hP hi hx h.reached hflow hscope (not_defines_of_edge hP hi)
      (defines_of_exit.2 ⟨φ, hφ, hid⟩)
  refine ⟨h.reached.tail hflow, ?_, ?_⟩
  · intro r hr hscope
    obtain ⟨log', hlog', hrepl, hsub⟩ := hlog.exists_replaced hr
    obtain ⟨p', hp', -⟩ := hrepl.instruction
    obtain ⟨q, hq⟩ := hrepl.other
    show assignPhis P b s c.values r.1.id = assignPhis P b s c.values r.2.id
    rw [hinstr hp', hinstr hq]
    exact h.replaced r hr (hscope.pred hflow (not_defines_of_edge hP hp'))
  · intro i q hi hgvn havail
    have hargs := map_congr_left fun x hx => hkeep hi (hP.operands hi x hx) havail.inScope
    show assignPhis P b s c.values i.id = M.eval i.op (i.operands.map _) c.state
    rw [hinstr hi, hargs]
    exact h.available hi hgvn (havail.prev hflow (not_defines_of_edge hP hi) h.reached).1

theorem SameValues.enter (hP : WellFormed P) (hlog : Justified P log)
    (h : Tracked M P log (P.exit b) c) (hsame : SameValues P log (P.exit b) c c')
    (hs : s ∈ P.successors b) (hb : b ∈ P.predecessors s) :
    SameValues P log (s, 0) { c with values := assignPhis P b s c.values }
      { c' with values := assignPhis (P.replace log) b s c'.values } := by
  have hids : ∀ {v}, (∀ φ ∈ P.phis s, φ.id ≠ v) → ∀ φ ∈ (P.replace log).phis s, φ.id ≠ v := by
    intro v hv φ hφ
    obtain ⟨ψ, hψ, rfl⟩ := mem_map.1 hφ
    exact hv ψ hψ
  refine ⟨hsame.state, fun v hv hnot => ?_⟩
  show assignPhis (P.replace log) b s c'.values v = assignPhis P b s c.values v
  by_cases hphi : ∃ φ ∈ P.phis s, φ.id = v
  · obtain ⟨φ, hφ, rfl⟩ := hphi
    obtain ⟨x, hx, hop⟩ := exists_phi_operand hP hφ hb
    have hfind : ((P.replace log).phis s).find? (fun ψ => ψ.id = φ.id) =
        some { φ with operands := φ.operands.map log.use } := by
      show ((P.phis s).map _).find? _ = _
      rw [find?_map]
      exact congrArg (Option.map _) (find?_phi hP hφ)
    have hop' : (φ.operands.map log.use)[(P.predecessors s).idxOf b]? = some (log.use x) := by
      rw [List.getElem?_map, hop]
      rfl
    rw [assignPhis, assignPhis, hfind, find?_phi hP hφ]
    show c'.values ((φ.operands.map log.use).getD ((P.predecessors s).idxOf b) φ.id) = _
    simp only [getD_eq_getElem?_getD, hop, hop', getD_some]
    exact hsame.use hP hlog h hx
  · push Not at hphi
    rw [assignPhis_of_not_phi (hids hphi), assignPhis_of_not_phi hphi]
    refine hsame.values v (hv.pred (.edge hs) fun hdef => ?_) hnot
    obtain ⟨φ, hφ, hid⟩ := defines_of_exit.1 hdef
    exact hphi φ hφ hid

end W16.Hydrogen
