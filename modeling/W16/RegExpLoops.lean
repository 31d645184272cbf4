import W16.RegExpImplements

/-!
# Nodes of a quantifier

The three shapes of a quantifier, and that each of them repeats the body as `RepeatMatcher` does.
-/
namespace W16.RegExps

open List Option

set_option linter.dupNamespace false

/-! ## Parts of a loop -/

section Parts

variable {c c' : RegExpCompiler} {nodes : List Node}

theorem grows_allocateRegisterIf {needed : Bool} {reg : Nat}
    (h : c.allocateRegisterIf needed = some (c', reg)) :
    Grows c c' ∧ (needed = true → reg = c.nextRegister ∧ c'.nextRegister = reg + 1) := by
  cases needed with
  | false =>
    cases h
    exact ⟨.refl c, fun hneed => nomatch hneed⟩
  | true =>
    obtain ⟨hgrows, hreg, hnext⟩ := grows_allocateRegister h
    exact ⟨hgrows, fun _ => ⟨hreg, hnext⟩⟩

theorem grows_newNodeIf (c : RegExpCompiler) (needed : Bool) (node : Node) (n : Nat) :
    Grows c (c.newNodeIf needed node n).1 := by
  cases needed
  · exact .refl c
  · exact grows_newNode c node

theorem Covers.newNodeIf {needed : Bool} {node : Node} {n : Nat}
    (h : Covers nodes c (c.newNodeIf needed node n).1) :
    if needed then nodes[(c.newNodeIf needed node n).2]? = some node
    else (c.newNodeIf needed node n).2 = n := by
  cases needed
  · rfl
  · exact h.newNode

/-- What comes after a node that is needed or not. -/
theorem Covers.nodeIf {needed : Bool} {node : Node} {n : Nat} (h : Covers nodes c c')
    (hc' : Grows (c.newNodeIf needed node n).1 c') :
    if needed then nodes[(c.newNodeIf needed node n).2]? = some node
    else (c.newNodeIf needed node n).2 = n :=
  (h.left hc').newNodeIf

/-- A node made earlier is changed, and others are added. -/
theorem grows_setNode {c c' : RegExpCompiler} {n : Nat} (node : Node) (h : Grows c c')
    (hn : c.nodes.length ≤ n) : Grows c (c'.setNode n node) := by
  refine ⟨?_, fun i hi => ?_, h.registers⟩
  · rw [RegExpCompiler.setNode, length_set]
    exact h.length
  · rw [RegExpCompiler.setNode, getElem?_set_ne (by omega)]
    exact h.old i hi

theorem Covers.setNode {c₁ : RegExpCompiler} {n : Nat} {node : Node}
    (h : Covers nodes c (c₁.setNode n node)) (hlo : c.nodes.length ≤ n)
    (hhi : n < c₁.nodes.length) : nodes[n]? = some node := by
  have hlen : (c₁.setNode n node).nodes.length = c₁.nodes.length := length_set ..
  rw [h n hlo (by rw [hlen]; exact hhi), RegExpCompiler.setNode, getElem?_set_self hhi]

/-- The nodes after the one that is changed. -/
theorem Covers.after_setNode {c₁ : RegExpCompiler} {n : Nat} {node : Node}
    (h : Covers nodes c (c₁.setNode n node)) (hlo : n < c.nodes.length) : Covers nodes c c₁ := by
  intro i hi hi'
  have hlen : (c₁.setNode n node).nodes.length = c₁.nodes.length := length_set ..
  rw [h i hi (by rw [hlen]; exact hi'), RegExpCompiler.setNode, getElem?_set_ne (by omega)]

end Parts

/-- The nodes and registers of a loop. -/
structure Loop where
  bodyStartReg : Nat
  regCtr : Nat
  center : Nat
  increment : Nat
  loopReturn : Nat
  bodyNode : Nat
  store : Nat
  clear : Nat

namespace Loop

/-- The nodes around the body of a loop, with registers from `lo` to `hi`. -/
structure In (nodes : List Node) (min max : Nat) (isGreedy bodyCanBeEmpty needsCounter : Bool)
    (captureRegisters : Interval) (onSuccess n lo hi : Nat) (l : Loop) : Prop where
  center : ∃ kind notAtStart, nodes[l.center]? = some (.choice kind (if isGreedy then
      [⟨l.clear, if (max < kInfinity : Bool) then [⟨l.regCtr, .lt, max⟩] else []⟩,
        ⟨onSuccess, if (min > 0 : Bool) then [⟨l.regCtr, .geq, min⟩] else []⟩]
    else
      [⟨onSuccess, if (min > 0 : Bool) then [⟨l.regCtr, .geq, min⟩] else []⟩,
        ⟨l.clear, if (max < kInfinity : Bool) then [⟨l.regCtr, .lt, max⟩] else []⟩]) notAtStart)
  increment : if needsCounter then
    nodes[l.increment]? = some (.action (.incrementRegister l.regCtr) l.center)
    else l.increment = l.center
  loopReturn : if bodyCanBeEmpty then
    nodes[l.loopReturn]? = some (.action (.emptyMatchCheck l.bodyStartReg
      (if needsCounter then some l.regCtr else none) min) l.increment)
    else l.loopReturn = l.increment
  store : if bodyCanBeEmpty then
    nodes[l.store]? = some (.action (.storePosition l.bodyStartReg false) l.bodyNode)
    else l.store = l.bodyNode
  clear : if captureRegisters.isSome then
    nodes[l.clear]? = some (.action (.clearCaptures (captureRegisters.getD (0, 0)).1
      (captureRegisters.getD (0, 0)).2) l.store)
    else l.clear = l.store
  begin : if needsCounter then nodes[n]? = some (.action (.setRegister l.regCtr 0) l.center)
    else n = l.center
  bodyStartReg : bodyCanBeEmpty = true → lo ≤ l.bodyStartReg ∧ l.bodyStartReg < hi
  regCtr : needsCounter = true → lo ≤ l.regCtr ∧ l.regCtr < hi
  distinct : bodyCanBeEmpty = true → needsCounter = true → l.bodyStartReg < l.regCtr

end Loop

theorem loopToNode_nodes {env : Env} {b min max : Nat} {isGreedy : Bool} {body : ToNode}
    {bodyMinMatch : Int} {captureRegisters : Interval} {notAtStart : Bool} {onSuccess n : Nat}
    {c c' : RegExpCompiler} {m : State → List State} (hbuild : ToNode.Implements env b body m)
    (hc : b ≤ c.nextRegister)
    (h : loopToNode min max isGreedy body bodyMinMatch captureRegisters notAtStart onSuccess c =
      some (c', n)) :
    Grows c c' ∧ ∀ nodes, Covers nodes c c' → ∃ (l : Loop) (lo : Nat), c.nextRegister ≤ lo ∧
      lo ≤ c'.nextRegister ∧ l.In nodes min max isGreedy (bodyMinMatch == 0)
        (min > 0 || max < kInfinity) captureRegisters onSuccess n c.nextRegister lo ∧
      Leads nodes env lo c'.nextRegister l.loopReturn (.node l.bodyNode) m := by
  obtain ⟨⟨c₁, bodyStartReg⟩, hstart, h⟩ := bind_eq_some_iff.1 h
  obtain ⟨⟨c₂, regCtr⟩, hctr, h⟩ := bind_eq_some_iff.1 h
  dsimp -zeta only at h
  extract_lets center increment loopReturn restAlt at h
  obtain ⟨⟨c₃, bodyNode⟩, hbody, h⟩ := bind_eq_some_iff.1 h
  extract_lets store clear bodyAlt alternatives c₄ at h
  obtain ⟨hgrows₁, hstartReg⟩ := grows_allocateRegisterIf hstart
  obtain ⟨hgrows₂, hregCtr⟩ := grows_allocateRegisterIf hctr
  have hcenter : Grows c₂ center.1 := grows_newNode _ _
  have hincrement : Grows center.1 increment.1 := grows_newNodeIf _ _ _ _
  have hloopReturn : Grows increment.1 loopReturn.1 := grows_newNodeIf _ _ _ _
  have hhead := hincrement.trans hloopReturn
  have hc₂ := Nat.le_trans hc
    (hgrows₁.trans (hgrows₂.trans (hcenter.trans hhead))).registers
  obtain ⟨hgrows₃, hleads⟩ := hbuild _ _ c₃ bodyNode hc₂ hbody
  have hstore : Grows c₃ store.1 := grows_newNodeIf _ _ _ _
  have hclear : Grows store.1 clear.1 := grows_newNodeIf _ _ _ _
  have htail : Grows center.1 clear.1 := hhead.trans (hgrows₃.trans (hstore.trans hclear))
  have hset : Grows c₂ c₄ := grows_setNode _ (hcenter.trans htail) (Nat.le_refl _)
  have hlen : center.1.nodes.length = center.2 + 1 := by simp [center, RegExpCompiler.newNode]
  have hmade := some.inj h
  have hend : Grows c₄ c' := by
    have hnew := grows_newNodeIf c₄ (min > 0 || max < kInfinity)
      (.action (.setRegister regCtr 0) center.2) center.2
    rw [hmade] at hnew
    exact hnew
  refine ⟨hgrows₁.trans (hgrows₂.trans (hset.trans hend)), fun nodes hnodes =>
    ⟨⟨bodyStartReg, regCtr, center.2, increment.2, loopReturn.2, bodyNode, store.2, clear.2⟩,
      c₂.nextRegister, (hgrows₁.trans hgrows₂).registers, (hset.trans hend).registers, ?_, ?_⟩⟩
  · have hall := hnodes.right (hgrows₁.trans hgrows₂)
    have hset' := hall.left hend
    have hafter : Covers nodes center.1 clear.1 :=
      (hset'.right hcenter).after_setNode (by omega)
    have hrest := hafter.right (hhead.trans hgrows₃)
    refine {
      center := ⟨_, _, hset'.setNode (Nat.le_refl _) (by have := htail.length; omega)⟩
      increment := hafter.nodeIf (hloopReturn.trans (hgrows₃.trans (hstore.trans hclear)))
      loopReturn := (hafter.right hincrement).nodeIf (hgrows₃.trans (hstore.trans hclear))
      store := hrest.nodeIf hclear
      clear := (hrest.right hstore).newNodeIf
      begin := ?_
      bodyStartReg := fun hneed => ?_
      regCtr := fun hneed => ?_
      distinct := fun hneed hneed' => ?_ }
    · have hbegin := hall.right hset
      have hn : n = _ := (congrArg Prod.snd hmade).symm
      rw [hn]
      rw [show c' = _ from (congrArg Prod.fst hmade).symm] at hbegin
      exact hbegin.newNodeIf
    · obtain ⟨hreg, hnext⟩ := hstartReg hneed
      have hle := hgrows₂.registers
      grind
    · obtain ⟨hreg, hnext⟩ := hregCtr hneed
      have hle := hgrows₁.registers
      grind
    grind
  · have hall := hnodes.right (hgrows₁.trans hgrows₂)
    have hafter : Covers nodes center.1 clear.1 :=
      ((hall.left hend).right hcenter).after_setNode (by omega)
    have hbefore := (hcenter.trans hhead).registers
    have hregs := (hstore.trans hclear).registers
    have hbody' := hleads nodes ((hafter.right hhead).left (hstore.trans hclear))
    exact hbody'.mono hbefore (Nat.le_trans hregs hend.registers)

/-! ## Runs of a loop -/

/-- The interval has the registers of these captures. -/
def Clears (captureRegisters : Interval) (captures : List Nat) : Prop :=
  ∀ r, (∃ i, captureRegisters = some i ∧ i.1 ≤ r ∧ r ≤ i.2) ↔ r / 2 ∈ captures

theorem perform_clearCaptures {captures : List Nat} {from_ to_ : Nat}
    (h : Clears (some (from_, to_)) captures) (s : State) :
    (ActionType.clearCaptures from_ to_).perform s = some (clearCaptures captures s) := by
  have hreg (r : Nat) : from_ ≤ r ∧ r ≤ to_ ↔ r / 2 ∈ captures := by
    rw [← h r]
    simp
  simp only [ActionType.perform, clearCaptures, hreg]

theorem clearCaptures_none {captures : List Nat} (h : Clears none captures) (s : State) :
    clearCaptures captures s = s := by
  have hreg (r : Nat) : r / 2 ∉ captures := by
    intro hr
    obtain ⟨i, hi, _⟩ := (h r).2 hr
    cases hi
  simp only [clearCaptures, hreg, if_false]

namespace Loop.In

variable {nodes : List Node} {env : Env} {b min max : Nat} {isGreedy bodyCanBeEmpty needsCounter : Bool}
  {captureRegisters : Interval} {captures : List Nat} {onSuccess n lo lo₁ hi : Nat} {l : Loop}
  {m : State → List State}

/-- The state in which the body begins. -/
def bodyState (bodyCanBeEmpty : Bool) (captures : List Nat) (l : Loop) (s : State) : State :=
  if bodyCanBeEmpty then (clearCaptures captures s).write l.bodyStartReg s.position
  else clearCaptures captures s

theorem run_clear
    (h : l.In nodes min max isGreedy bodyCanBeEmpty needsCounter captureRegisters onSuccess n lo lo₁)
    (hclears : Clears captureRegisters captures) {s : State} {r : Result}
    (hrun : Run nodes env (.node l.bodyNode) (bodyState bodyCanBeEmpty captures l s) r) :
    Run nodes env (.node l.clear) s r := by
  have hstore : Run nodes env (.node l.store) (clearCaptures captures s) r := by
    have hnode := h.store
    cases bodyCanBeEmpty with
    | false => exact hnode ▸ hrun
    | true => exact .action hnode rfl hrun
  have hnode := h.clear
  cases captureRegisters with
  | none =>
    rw [clearCaptures_none hclears] at hstore
    exact hnode ▸ hstore
  | some i => exact .action hnode (perform_clearCaptures hclears s) hstore

/-- An iteration of the body, in which the registers of the loop stay. -/
theorem body (h : l.In nodes min max isGreedy bodyCanBeEmpty needsCounter captureRegisters onSuccess n lo lo₁)
    (hleads : Leads nodes env lo₁ hi l.loopReturn (.node l.bodyNode) m)
    (hclears : Clears captureRegisters captures) (hcaps : ∀ index ∈ captures, endRegister index < b)
    (hm : Tame env.subject.length b m) (hb : b ≤ lo) (hlo : lo ≤ lo₁) (hhi : lo₁ ≤ hi) (s : State) :
    ∃ ys, Forall₂ (Agree lo hi) (m (clearCaptures captures s)) ys ∧
      Yields nodes env lo hi l.loopReturn (.node l.clear) s ys ∧
      ∀ y ∈ ys, (bodyCanBeEmpty = true → y.registers l.bodyStartReg = s.position) ∧
        (needsCounter = true → y.registers l.regCtr = s.registers l.regCtr) := by
  obtain ⟨ys, hys, hyields⟩ := hleads (bodyState bodyCanBeEmpty captures l s)
  have hagree : Agree lo hi (clearCaptures captures s) (bodyState bodyCanBeEmpty captures l s) := by
    cases hempty : bodyCanBeEmpty with
    | false => exact .refl lo hi _
    | true =>
      obtain ⟨hreg, hreg'⟩ := h.bodyStartReg hempty
      exact agree_write _ _ hreg (Nat.lt_of_lt_of_le hreg' hhi)
  have hkept (y : State) (hy : y ∈ ys) (r : Nat) (hr : lo ≤ r) (hr' : r < lo₁) :
      y.registers r = (bodyState bodyCanBeEmpty captures l s).registers r := by
    obtain ⟨x, hx, hxy⟩ := agree_mem hys hy
    rw [hxy.registers r (.inl hr'), hm.frame _ x hx r (Nat.le_trans hb hr)]
  refine ⟨ys, agree_trans (hm.insensitive lo hi _ _ hb hagree)
    (hys.imp fun _ _ hy => hy.mono hlo (Nat.le_refl _)),
    (hyields.mono hlo (Nat.le_refl _)).step fun r hrun => h.run_clear hclears hrun,
    fun y hy => ⟨fun hempty => ?_, fun hneed => ?_⟩⟩
  · obtain ⟨hreg, hreg'⟩ := h.bodyStartReg hempty
    rw [hkept y hy _ hreg hreg', bodyState, if_pos hempty]
    exact write_same _ _ _
  · obtain ⟨hreg, hreg'⟩ := h.regCtr hneed
    rw [hkept y hy _ hreg hreg']
    have hclear : (clearCaptures captures s).registers l.regCtr = s.registers l.regCtr := by
      refine if_neg fun hin => ?_
      grind [endRegister]
    cases hempty : bodyCanBeEmpty with
    | false => exact hclear
    | true =>
      have hne := h.distinct hempty hneed
      exact (write_other _ _ (by omega)).trans hclear

/-- An empty iteration after the minimum. -/
theorem run_empty (h : l.In nodes min max isGreedy true needsCounter captureRegisters onSuccess n lo lo₁)
    {y : State} {j : Nat} (hpos : y.registers l.bodyStartReg = y.position)
    (hctr : needsCounter = true → y.registers l.regCtr = j) (hj : min ≤ j) :
    Run nodes env (.node l.loopReturn) y .fail := by
  refine .actionFails h.loopReturn rfl ?_
  refine if_pos ⟨hpos, fun reg hreg => ?_⟩
  grind -linarith

/-- After another iteration the loop goes on. -/
theorem run_again
    (h : l.In nodes min max isGreedy bodyCanBeEmpty needsCounter captureRegisters onSuccess n lo lo₁)
    (hhi : lo₁ ≤ hi) {y : State} {j : Nat} (hctr : needsCounter = true → y.registers l.regCtr = j)
    (hcheck : bodyCanBeEmpty = true → y.registers l.bodyStartReg = y.position → needsCounter = true ∧ j < min) :
    ∃ y', Agree lo hi y y' ∧ (needsCounter = true → y'.registers l.regCtr = (j + 1 : Nat)) ∧
      ∀ r, Run nodes env (.node l.center) y' r → Run nodes env (.node l.loopReturn) y r := by
  have hreturn (r : Result) (hrun : Run nodes env (.node l.increment) y r) :
      Run nodes env (.node l.loopReturn) y r := by
    have hnode := h.loopReturn
    cases hempty : bodyCanBeEmpty with
    | false =>
      rw [hempty] at hnode
      exact hnode ▸ hrun
    | true =>
      rw [hempty] at hnode
      refine .action hnode ?_ hrun
      rw [ActionType.perform, if_neg]
      grind -linarith
  have hnode := h.increment
  cases hneed : needsCounter with
  | false =>
    rw [hneed] at hnode
    exact ⟨y, .refl lo hi y, fun hfalse => (nomatch hfalse), fun r hrun => hreturn r (hnode ▸ hrun)⟩
  | true =>
    rw [hneed] at hnode
    obtain ⟨hreg, hreg'⟩ := h.regCtr hneed
    refine ⟨y.write l.regCtr (y.registers l.regCtr + 1),
      agree_write _ _ hreg (Nat.lt_of_lt_of_le hreg' hhi), fun _ => ?_,
      fun r hrun => hreturn r (.action hnode rfl hrun)⟩
    rw [hctr hneed]
    exact write_same _ _ _

/-- The guards of the body. -/
theorem bodyGuard_eq (hneed : needsCounter = (min > 0 || max < kInfinity : Bool)) {s : State} {j : Nat}
    (hctr : needsCounter = true → s.registers l.regCtr = j) (hj : ∀ M, maxOf max = some M → j ≤ M) :
    ((if (max < kInfinity : Bool) then [⟨l.regCtr, .lt, max⟩] else [] : List Guard).all
      (·.holds s)) = (maxOf max != some j) := by
  by_cases hmax : max < kInfinity
  · have hreg := hctr (by simp [hneed, hmax])
    have hle := hj max (if_pos hmax)
    rw [if_pos (decide_eq_true hmax), maxOf, if_pos hmax, Bool.eq_iff_iff]
    simp [Guard.holds, hreg]
    omega
  simp [maxOf, hmax]

/-- The guards of the node after the loop. -/
theorem restGuard_eq (hneed : needsCounter = (min > 0 || max < kInfinity : Bool)) {s : State} {j : Nat}
    (hctr : needsCounter = true → s.registers l.regCtr = j) :
    ((if (min > 0 : Bool) then [⟨l.regCtr, .geq, min⟩] else [] : List Guard).all
      (·.holds s)) = decide (min ≤ j) := by
  by_cases hmin : min > 0
  · simp [Guard.holds, hctr, hneed, hmin]
  grind -linarith

/-- What the loop yields after `j` iterations. The induction is on the iterations that the minimum
and the rest of the input leave. -/
theorem yields_center
    (h : l.In nodes min max isGreedy bodyCanBeEmpty needsCounter captureRegisters onSuccess n lo lo₁)
    (hleads : Leads nodes env lo₁ hi l.loopReturn (.node l.bodyNode) m)
    (hclears : Clears captureRegisters captures) (hcaps : ∀ index ∈ captures, endRegister index < b)
    (hm : Tame env.subject.length b m) (hb : b ≤ lo) (hlo : lo ≤ lo₁) (hhi : lo₁ ≤ hi)
    (hneed : needsCounter = (min > 0 || max < kInfinity : Bool))
    (hmax : ∀ M, maxOf max = some M → min ≤ M)
    (hempty : bodyCanBeEmpty = true ∨ maxOf max = some min ∨ ∀ s, ∀ y ∈ m s, y.position ≠ s.position)
    (fuel : Nat) : ∀ (s : State) (j : Nat), (needsCounter = true → s.registers l.regCtr = (j : Int)) →
      (∀ M, maxOf max = some M → j ≤ M) → (min - j) + (env.subject.length - s.position) < fuel →
      ∃ ys, Forall₂ (Agree lo hi) (repeatMatcher env.subject.length m (clearCaptures captures)
        (min - j) ((maxOf max).map (· - j)) isGreedy s) ys ∧
        Yields nodes env lo hi onSuccess (.node l.center) s ys := by
  induction fuel with
  | zero => omega
  | succ fuel ih =>
    intro s j hctr hj hfuel
    have hmc := tame_clear hcaps hm
    obtain ⟨ys, hys, hyields, hregs⟩ := h.body hleads hclears hcaps hm hb hlo hhi s
    have hiter : maxOf max ≠ some j → ∃ zs, Forall₂ (Agree lo hi)
        ((m (clearCaptures captures s)).flatMap fun y =>
          if min - j = 0 ∧ y.position = s.position then []
          else repeatMatcher env.subject.length m (clearCaptures captures) (min - j - 1)
            (((maxOf max).map (· - j)).map (· - 1)) isGreedy y) zs ∧
        Yields nodes env lo hi onSuccess (.node l.clear) s zs := by
      intro hne
      refine yields_flatMap hys (fun x hx y hy hxy => ?_) hyields
      obtain ⟨hstart, hcount⟩ := hregs y hy
      have hcount (hn : needsCounter = true) : y.registers l.regCtr = j := (hcount hn).trans (hctr hn)
      have hpos := hxy.position
      by_cases hstop : min - j = 0 ∧ x.position = s.position
      · have hcan : bodyCanBeEmpty = true := by
          rcases hempty with hcan | hmin | hnever
          · exact hcan
          · have hle := hj min hmin
            exact absurd (hmin.trans (by rw [show min = j by omega])) hne
          · exact absurd hstop.2 (hnever (clearCaptures captures s) x hx)
        subst hcan
        rw [if_pos hstop]
        refine ⟨[], .nil, yields_fail (h.run_empty ?_ hcount (by omega))⟩
        rw [hstart rfl, hpos, hstop.2]
      · rw [if_neg hstop]
        obtain ⟨y', hyy', hctr', hrun⟩ := h.run_again hhi hcount fun hcan hsame => by
          have heq := hsame.symm.trans (hstart hcan)
          have hlt : j < min := by omega
          exact ⟨by simp [hneed, Nat.zero_lt_of_lt hlt], hlt⟩
        have hfwd := hmc.forward s x hx
        have hpos' := hyy'.position
        obtain ⟨zs, hzs, hyields'⟩ := ih y' (j + 1) hctr' (fun M hM => by
          grind -linarith) (by omega)
        have hmore : ((maxOf max).map (· - j)).map (· - 1) = (maxOf max).map (· - (j + 1)) := by
          rw [Option.map_map]
          rfl
        rw [hmore, Nat.sub_sub]
        exact ⟨zs, agree_trans ((tame_repeatMatcher hmc _ _).insensitive lo hi x y' hb
          (hxy.trans hyy')) hzs, hyields'.step hrun⟩
    obtain ⟨kind, notAtStart, hcenter⟩ := h.center
    have hbody := bodyGuard_eq hneed hctr hj
    have hrest := restGuard_eq hneed hctr
    have hchoice (zs : List State) (hzs : (maxOf max != some j) = true →
        Yields nodes env lo hi onSuccess (.node l.clear) s zs) :
        Yields nodes env lo hi onSuccess (.node l.center) s (if isGreedy then
          (if maxOf max != some j then zs else []) ++ (if decide (min ≤ j) then [s] else [])
        else (if decide (min ≤ j) then [s] else []) ++ if maxOf max != some j then zs else []) := by
      refine Yields.step ?_ fun _ hrun => .choice hcenter hrun
      cases isGreedy with
      | true => exact yields_two hbody hrest hzs fun _ => yields_self
      | false => exact yields_two hrest hbody (fun _ => yields_self) hzs
    rw [repeatMatcher_eq hmc]
    by_cases hlast : maxOf max = some j
    · rw [if_pos (by rw [hlast, map_some, Nat.sub_self])]
      have hle := hmax j hlast
      have hyields' := hchoice [] fun hne => by simp [hlast] at hne
      simp only [hlast, bne_self_eq_false, hle, decide_true, if_true, Bool.false_eq_true,
        nil_append, append_nil, ite_self] at hyields'
      exact ⟨[s], .cons (.refl lo hi s) .nil, hyields'⟩
    · have hne := bne_iff_ne.2 hlast
      rw [if_neg (by
        intro hzero
        obtain ⟨M, hM, hsub⟩ := map_eq_some_iff.1 hzero
        have hle := hj M hM
        exact hlast (by rw [hM, show M = j by omega]))]
      obtain ⟨zs, hzs, hclear⟩ := hiter hlast
      have hyields' := hchoice zs fun _ => hclear
      rw [if_pos hne] at hyields'
      by_cases hle : min ≤ j
      · rw [if_pos (decide_eq_true hle)] at hyields'
        rw [if_neg (by omega)]
        cases isGreedy with
        | true => exact ⟨_, rel_append hzs (.cons (.refl lo hi s) .nil), hyields'⟩
        | false => exact ⟨_, .cons (.refl lo hi s) hzs, hyields'⟩
      · simp only [hle, decide_false, Bool.false_eq_true, if_false, append_nil, nil_append,
          ite_self] at hyields'
        rw [if_pos (by omega)]
        exact ⟨zs, hzs, hyields'⟩

/-- The whole loop, which sets its counter first. -/
theorem leads (h : l.In nodes min max isGreedy bodyCanBeEmpty needsCounter captureRegisters onSuccess n lo lo₁)
    (hleads : Leads nodes env lo₁ hi l.loopReturn (.node l.bodyNode) m)
    (hclears : Clears captureRegisters captures) (hcaps : ∀ index ∈ captures, endRegister index < b)
    (hm : Tame env.subject.length b m) (hb : b ≤ lo) (hlo : lo ≤ lo₁) (hhi : lo₁ ≤ hi)
    (hneed : needsCounter = (min > 0 || max < kInfinity : Bool))
    (hmax : ∀ M, maxOf max = some M → min ≤ M)
    (hempty : bodyCanBeEmpty = true ∨ maxOf max = some min ∨ ∀ s, ∀ y ∈ m s, y.position ≠ s.position) :
    Leads nodes env lo hi onSuccess (.node n)
      (repeatMatcher env.subject.length m (clearCaptures captures) min (maxOf max) isGreedy) := by
  intro s
  have hyields (s' : State) (hctr : needsCounter = true → s'.registers l.regCtr = ((0 : Nat) : Int)) :=
    h.yields_center hleads hclears hcaps hm hb hlo hhi hneed hmax hempty _ s' 0 hctr
      (fun _ _ => Nat.zero_le _) (Nat.lt_succ_self _)
  simp only [Nat.sub_zero, Option.map_id_fun', id_eq] at hyields
  have hnode := h.begin
  cases hcounter : needsCounter with
  | false =>
    simp_all
  | true =>
    rw [hcounter] at hnode
    obtain ⟨hreg, hreg'⟩ := h.regCtr hcounter
    obtain ⟨ys, hys, hrun⟩ := hyields (s.write l.regCtr 0) fun _ => write_same _ _ _
    have htame := @tame_repeatMatcher _ _ _ _ isGreedy (tame_clear hcaps hm) min (maxOf max)
    have hsame := htame.insensitive lo hi s _ hb (agree_write s (0 : Int) hreg (Nat.lt_of_lt_of_le hreg' hhi))
    exact ⟨ys, agree_trans hsame hys, hrun.step fun _ hr => .action hnode rfl hr⟩

end Loop.In

section Implements

variable {env : Env} {b : Nat} {body : ToNode} {m : State → List State} {bodyMinMatch : Int}

theorem implements_loop {min max : Nat} {isGreedy notAtStart : Bool} {captureRegisters : Interval}
    {captures : List Nat} (hbuild : ToNode.Implements env b body m)
    (hclears : Clears captureRegisters captures) (hcaps : ∀ index ∈ captures, endRegister index < b)
    (hm : Tame env.subject.length b m) (hmax : min ≤ max)
    (hempty : bodyMinMatch = 0 ∨ maxOf max = some min ∨ ∀ s, ∀ y ∈ m s, y.position ≠ s.position) :
    ToNode.Implements env b (loopToNode min max isGreedy body bodyMinMatch captureRegisters notAtStart)
      (repeatMatcher env.subject.length m (clearCaptures captures) min (maxOf max) isGreedy) := by
  intro k c c' n hc h
  obtain ⟨hgrows, hnodes⟩ := loopToNode_nodes hbuild hc h
  refine ⟨hgrows, fun nodes hcov => ?_⟩
  obtain ⟨l, lo, hlo, hhi, hin, hleads⟩ := hnodes nodes hcov
  refine hin.leads hleads hclears hcaps hm hc hlo hhi rfl (fun M hM => ?_) ?_
  · rw [maxOf] at hM
    grind
  grind

/-! ## Unrolled bodies -/

/-- A body without captures in front of a repetition is one more iteration. -/
theorem flatMap_repeatMatcher (hm : Tame env.subject.length b m) (isGreedy : Bool) (min : Nat)
    (max : Option Nat) (s : State) :
    (m s).flatMap (repeatMatcher env.subject.length m (clearCaptures []) min max isGreedy) =
      repeatMatcher env.subject.length m (clearCaptures []) (min + 1) (max.map (· + 1)) isGreedy s := by
  have hclear (s : State) : clearCaptures [] s = s := by simp [clearCaptures]
  have hmc : Tame env.subject.length b fun s => m (clearCaptures [] s) := hm.congr fun s => by rw [hclear]
  have hmore : (max.map (· + 1)).map (· - 1) = max := by cases max <;> rfl
  have hne : max.map (· + 1) ≠ some 0 := by cases max <;> simp
  rw [repeatMatcher_eq hmc (min + 1), if_neg hne, if_pos (Nat.succ_ne_zero _), hmore, hclear]
  simp

/-- The forced matches in front of what implements the rest. -/
theorem implements_unrollMin (hbuild : ToNode.Implements env b body m)
    (hm : Tame env.subject.length b m) {isGreedy : Bool} (count : Nat) :
    ∀ (build : ToNode) (min : Nat) (max : Option Nat), ToNode.Implements env b build
        (repeatMatcher env.subject.length m (clearCaptures []) min max isGreedy) →
      ToNode.Implements env b (fun k c => (build k c).bind fun (c, answer) => unrollMin body count answer c)
        (repeatMatcher env.subject.length m (clearCaptures []) (min + count) (max.map (· + count))
          isGreedy) := by
  induction count with
  | zero =>
    intro build min max h
    rw [show max.map (· + 0) = max from map_id']
    refine h.of_eq fun k c => ?_
    cases build k c <;> rfl
  | succ count ih =>
    intro build min max h
    have hbody := (hbuild.trans h (tame_repeatMatcher (tame_clear (by simp) hm) _ _)).congr
      fun s => (flatMap_repeatMatcher hm isGreedy min max s).symm
    have hrest := ih _ _ _ hbody
    have hmore : (max.map (· + 1)).map (· + count) = max.map (· + (count + 1)) := by
      cases max
      · rfl
      grind
    rw [hmore, Nat.add_assoc, Nat.add_comm 1] at hrest
    refine hrest.of_eq fun k c => ?_
    rw [bind_assoc]
    rfl


/-- An optional match of a body that is never empty. -/
theorem repeatMatcher_optional (hm : Tame env.subject.length b m)
    (hnever : ∀ s, ∀ y ∈ m s, y.position ≠ s.position) (isGreedy : Bool) (j : Nat) (s : State) :
    repeatMatcher env.subject.length m (clearCaptures []) 0 (some (j + 1)) isGreedy s = if isGreedy then
        (m s).flatMap (repeatMatcher env.subject.length m (clearCaptures []) 0 (some j) isGreedy) ++ [s]
      else
        s :: (m s).flatMap (repeatMatcher env.subject.length m (clearCaptures []) 0 (some j) isGreedy) := by
  have hclear (s : State) : clearCaptures [] s = s := by simp [clearCaptures]
  have hmc : Tame env.subject.length b fun s => m (clearCaptures [] s) := hm.congr fun s => by rw [hclear]
  have hiter : ((m s).flatMap fun y => if 0 = 0 ∧ y.position = s.position then []
      else repeatMatcher env.subject.length m (clearCaptures []) (0 - 1) ((some (j + 1)).map (· - 1))
        isGreedy y) =
      (m s).flatMap (repeatMatcher env.subject.length m (clearCaptures []) 0 (some j) isGreedy) := by
    simp_all [flatMap_congr]
  rw [repeatMatcher_eq hmc, if_neg (by simp), if_neg (by simp), hclear, ← hiter]

/-- The optional matches in front of what comes after the quantifier. -/
theorem leads_unrollMax (hbuild : ToNode.Implements env b body m) (hm : Tame env.subject.length b m)
    (hnever : ∀ s, ∀ y ∈ m s, y.position ≠ s.position) {isGreedy notAtStart : Bool}
    {onSuccess n : Nat} {c' : RegExpCompiler} (count : Nat) :
    ∀ (answer : Nat) (c : RegExpCompiler) (j : Nat), b ≤ c.nextRegister →
      unrollMax body isGreedy notAtStart onSuccess count answer c = some (c', n) →
      Grows c c' ∧ ∀ nodes lo hi, b ≤ lo → lo ≤ c.nextRegister → c'.nextRegister ≤ hi →
        Covers nodes c c' → Leads nodes env lo hi onSuccess (.node answer)
          (repeatMatcher env.subject.length m (clearCaptures []) 0 (some j) isGreedy) →
        Leads nodes env lo hi onSuccess (.node n)
          (repeatMatcher env.subject.length m (clearCaptures []) 0 (some (j + count)) isGreedy) := by
  induction count with
  | zero =>
    intro answer c j _ h
    cases h
    exact ⟨.refl _, fun _ _ _ _ _ _ _ hanswer => hanswer⟩
  | succ count ih =>
    intro answer c j hc h
    obtain ⟨⟨c₁, bodyNode⟩, hbody, h⟩ := bind_eq_some_iff.1 h
    obtain ⟨hgrows₁, hleads⟩ := hbuild _ _ _ _ hc hbody
    have hnew := grows_newNode c₁ (.choice .choice (if isGreedy then
      [⟨bodyNode, []⟩, ⟨onSuccess, []⟩] else [⟨onSuccess, []⟩, ⟨bodyNode, []⟩]) notAtStart)
    obtain ⟨hgrows₂, hrest⟩ := ih _ _ (j + 1) (Nat.le_trans hc (hgrows₁.trans hnew).registers) h
    refine ⟨hgrows₁.trans (hnew.trans hgrows₂), fun nodes lo hi hb hlo hhi hnodes hanswer => ?_⟩
    have hregs := hgrows₁.registers
    have hregs' := hgrows₂.registers
    have hafter := hnodes.right hgrows₁
    have hbodyLeads := (hleads nodes (hnodes.left (hnew.trans hgrows₂))).mono hlo (Nat.le_trans hregs' hhi)
    have hmatch := hbodyLeads.trans hanswer (tame_repeatMatcher (tame_clear (by simp) hm) 0 (some j)) hb
    have hchoice := Leads.choice (hafter.node hgrows₂) (m := repeatMatcher env.subject.length m
      (clearCaptures []) 0 (some (j + 1)) isGreedy) (by
        cases isGreedy with
        | true =>
          exact (hmatch.tries (leads_self.tries leads_none)).congr fun s =>
            repeatMatcher_optional hm hnever true j s
        | false =>
          refine (leads_self.tries (hmatch.tries leads_none)).congr fun s => ?_
          rw [append_nil]
          exact repeatMatcher_optional hm hnever false j s)
    rw [show j + (count + 1) = j + 1 + count by omega]
    exact hrest nodes lo hi hb (Nat.le_trans hlo hregs) hhi (hafter.right hnew) hchoice

/-! ## Quantifiers -/

theorem Clears.eq_nil {captures : List Nat} (h : Clears none captures) : captures = [] := by
  refine eq_nil_iff_forall_not_mem.2 fun index hindex => ?_
  obtain ⟨i, hi, _⟩ := (h (index * 2)).2 (by rwa [Nat.mul_div_cancel _ (by omega)])
  cases hi

theorem repeatMatcher_zero (hm : Tame env.subject.length b m) (isGreedy : Bool) (s : State) :
    repeatMatcher env.subject.length m (clearCaptures []) 0 (some 0) isGreedy s = [s] := by
  rw [repeatMatcher_eq (tame_clear (by simp) hm), if_pos rfl]

theorem maxOf_sub {max min : Nat} (h : min ≤ max) (hmax : max ≤ kInfinity) :
    (maxOf (if max = kInfinity then max else max - min)).map (· + min) = maxOf max := by
  by_cases hlt : max < kInfinity
  · rw [if_neg (Nat.ne_of_lt hlt), maxOf, if_pos (by omega), maxOf, if_pos hlt, map_some,
      Nat.sub_add_cancel h]
  · rw [if_pos (by omega), maxOf, if_neg hlt]
    rfl

theorem maxOf_eq_some {max min : Nat} : maxOf max = some min ↔ max = min ∧ max < kInfinity := by
  rw [maxOf]
  grind

/-- The part of a quantifier after the forced matches that have been unrolled. -/
theorem implements_rest {min max : Nat} {isGreedy notAtStart : Bool} {captureRegisters : Interval}
    {captures : List Nat} (hbuild : ToNode.Implements env b body m)
    (hclears : Clears captureRegisters captures) (hcaps : ∀ index ∈ captures, endRegister index < b)
    (hm : Tame env.subject.length b m) (hmax : min ≤ max) (hpos : max ≠ 0)
    (hempty : bodyMinMatch = 0 ∨ maxOf max = some min ∨ ∀ s, ∀ y ∈ m s, y.position ≠ s.position) :
    ToNode.Implements env b (restToNode min max isGreedy body bodyMinMatch captureRegisters notAtStart)
      (repeatMatcher env.subject.length m (clearCaptures captures) min (maxOf max) isGreedy) := by
  intro k c c' n hc h
  rw [restToNode] at h
  split at h
  · next hunroll =>
    obtain ⟨hne, _, hnone, hle, hmin, _⟩ := hunroll
    rw [hnone] at hclears
    obtain rfl := hclears.eq_nil
    subst hmin
    have hfinite : maxOf max = some max := if_pos (by rw [kMaxUnrolledMaxMatches] at hle; rw [kInfinity]; omega)
    have hnever : ∀ s, ∀ y ∈ m s, y.position ≠ s.position := by
      grind
    obtain ⟨⟨c₁, n₁⟩, hmade, heq⟩ := map_eq_some_iff.1 h
    cases heq
    obtain ⟨hgrows, hleads⟩ := leads_unrollMax hbuild hm hnever max k
      { c with currentExpansionFactor := (c.limiter max).2 } 0 hc hmade
    refine ⟨⟨hgrows.length, hgrows.old, hgrows.registers⟩, fun nodes hnodes => ?_⟩
    have hself := (@leads_self nodes env c.nextRegister c₁.nextRegister k).congr
      (repeatMatcher_zero hm isGreedy)
    have hall := hleads nodes _ _ hc (Nat.le_refl _) (Nat.le_refl _) hnodes hself
    rwa [Nat.zero_add, ← hfinite] at hall
  · exact implements_loop hbuild hclears hcaps hm hmax hempty k c c' n hc h

/-- What the forced matches are put in front of. -/
theorem implements_afterUnrolled (bodyMinMatch : Int) (newMax : Nat) (isGreedy : Bool)
    (hbuild : ToNode.Implements env b body m) (hclears : Clears none [])
    (hm : Tame env.subject.length b m)
    (hnever : newMax ≠ 0 → ∀ s, ∀ y ∈ m s, y.position ≠ s.position) :
    ToNode.Implements env b (fun k c => if newMax = 0 then some (c, k)
        else restToNode 0 newMax isGreedy body bodyMinMatch none true k c)
      (repeatMatcher env.subject.length m (clearCaptures []) 0 (maxOf newMax) isGreedy) := by
  by_cases hnewMax : newMax = 0
  · have hself := (@implements_self env b).congr (repeatMatcher_zero hm isGreedy)
    rw [hnewMax]
    exact hself
  simp_all [implements_rest]

theorem implements_quantifier {min max : Nat} {isGreedy : Bool} {captureRegisters : Interval}
    {captures : List Nat} (hbuild : ToNode.Implements env b body m)
    (hclears : Clears captureRegisters captures) (hcaps : ∀ index ∈ captures, endRegister index < b)
    (hm : Tame env.subject.length b m) (hmax : min ≤ max) (hinfinity : max ≤ kInfinity)
    (hempty : bodyMinMatch = 0 ∨ maxOf max = some min ∨ ∀ s, ∀ y ∈ m s, y.position ≠ s.position) :
    ToNode.Implements env b (quantifierToNode min max isGreedy body bodyMinMatch captureRegisters)
      (repeatMatcher env.subject.length m (clearCaptures captures) min (maxOf max) isGreedy) := by
  intro k c c' n hc h
  rw [quantifierToNode] at h
  by_cases hzero : max = 0
  · rw [if_pos hzero] at h
    cases h
    have hlast : maxOf max = some 0 := by rw [hzero]; rfl
    exact ⟨.refl c, fun nodes _ => leads_self.congr fun s => by
      rw [repeatMatcher_eq (tame_clear hcaps hm), if_pos hlast]⟩
  · rw [if_neg hzero] at h
    generalize c.limiter _ = limited at h
    dsimp only at h
    split at h
    · next hunroll =>
      obtain ⟨hne, _, hnone, hmin, _, _⟩ := hunroll
      rw [hnone] at hclears h
      obtain rfl := hclears.eq_nil
      obtain ⟨⟨c₁, n₁⟩, hmade, heq⟩ := map_eq_some_iff.1 h
      cases heq
      have hall := implements_unrollMin hbuild hm min _ 0 _
        (implements_afterUnrolled bodyMinMatch (if max = kInfinity then max else max - min)
          isGreedy hbuild hclears hm fun hnewMax => by
          grind [maxOf_eq_some])
      rw [maxOf_sub hmax hinfinity, Nat.zero_add] at hall
      obtain ⟨hgrows, hleads⟩ := hall k { c with currentExpansionFactor := limited.2 } c₁ n₁ hc hmade
      exact ⟨⟨hgrows.length, hgrows.old, hgrows.registers⟩, hleads⟩
    · exact implements_rest hbuild hclears hcaps hm hmax hzero hempty k c c' n hc h

end Implements

end W16.RegExps
