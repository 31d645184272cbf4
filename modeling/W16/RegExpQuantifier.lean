import W16.RegExpLoops

/-!
# Quantifiers implement RepeatMatcher

The nodes of a quantifier lead to the node after it as `RepeatMatcher` says, if the quantifiers
notice the bodies that can be empty.
-/
namespace W16.RegExps

open List Option

set_option linter.dupNamespace false

/-! ## Captures in a tree -/

mutual

/-- Captures that are numbered from left to right form an interval. -/
theorem RegExpTree.captureRegisters_eq : ∀ (t : RegExpTree) {first n : Nat}, t.captures = range' first n →
      t.captureRegisters = if n = 0 then none else some (first * 2, (first + n) * 2 - 1)
  | .empty, first, n, h | .text _, first, n, h | .assertion _, first, n, h
  | .backReference _, first, n, h => by
    have hn : n = 0 := (range'_eq_nil_iff.1 h.symm)
    rw [if_pos hn, RegExpTree.captureRegisters]
    all_goals intros; contradiction
  | .capture body index, first, n, h => by
    cases n with
    | zero => cases h
    | succ n =>
      rw [RegExpTree.captures, range'_succ, List.cons.injEq] at h
      obtain ⟨rfl, hbody⟩ := h
      rw [RegExpTree.captureRegisters, body.captureRegisters_eq hbody, if_neg (Nat.succ_ne_zero n)]
      by_cases hn : n = 0
      · rw [if_pos hn, Interval.union, startRegister, endRegister, hn]
        simp
        omega
      · rw [if_neg hn, Interval.union, startRegister, endRegister]
        simp
        omega
  | .lookahead body _ _ _, _, _, h => body.captureRegisters_eq h
  | .quantifier body _ _ _, _, _, h => body.captureRegisters_eq h
  | .alternative nodes, _, _, h => nodes.captureRegisters_eq h
  | .disjunction alternatives, _, _, h => alternatives.captureRegisters_eq h

theorem RegExpTrees.captureRegisters_eq : ∀ (ts : RegExpTrees) {first n : Nat},
    ts.captures = range' first n →
      ts.captureRegisters = if n = 0 then none else some (first * 2, (first + n) * 2 - 1)
  | .nil, first, n, h => by
    rw [if_pos (range'_eq_nil_iff.1 h.symm)]
    rfl
  | .cons tree trees, first, n, h => by
    obtain ⟨k, hk, htree, htrees⟩ := range'_eq_append_iff.1 h.symm
    rw [RegExpTrees.captureRegisters, tree.captureRegisters_eq htree, trees.captureRegisters_eq htrees]
    by_cases hk0 : k = 0
    · rw [if_pos hk0, hk0, Nat.add_zero, Nat.sub_zero]
      by_cases hn : n = 0
      · rw [if_pos hn]
        rfl
      · rw [if_neg hn]
        rfl
    · rw [if_neg hk0, if_neg (show n ≠ 0 by omega)]
      by_cases hrest : n - k = 0
      · rw [if_pos hrest, show n = k by omega]
        rfl
      · rw [if_neg hrest, Interval.union]
        simp
        omega

end

/-- The interval of a tree whose captures are numbered has their registers. -/
theorem RegExpTree.clears {t : RegExpTree} {first n : Nat} (h : t.captures = range' first n) :
    Clears t.captureRegisters t.captures := by
  intro r
  rw [t.captureRegisters_eq h, h, mem_range'_1]
  constructor
  · grind
  · intro hr
    rw [if_neg (by omega)]
    refine ⟨_, rfl, ?_⟩
    omega

/-! ## All trees -/

mutual

/-- In a quantifier the maximum is not below the minimum. -/
def RegExpTree.Ordered : RegExpTree → Prop
  | .capture body _ => body.Ordered
  | .lookahead body _ _ _ => body.Ordered
  | .quantifier body min max _ => min ≤ max ∧ max ≤ kInfinity ∧ body.Ordered
  | .alternative nodes => nodes.Ordered
  | .disjunction alternatives => alternatives.Ordered
  | _ => True

def RegExpTrees.Ordered : RegExpTrees → Prop
  | .nil => True
  | .cons tree trees => tree.Ordered ∧ trees.Ordered

end

mutual

/-- Where the number of iterations is not fixed, a body that can be empty has the minimum length
zero. -/
def RegExpTree.EmptyNoticed (env : Env) : RegExpTree → Prop
  | .capture body _ => body.EmptyNoticed env
  | .lookahead body _ _ _ => body.EmptyNoticed env
  | .quantifier body min max _ => body.EmptyNoticed env ∧ (body.minMatch = 0 ∨ maxOf max = some min ∨
      ∀ s, ∀ y ∈ body.matcher env s, y.position ≠ s.position)
  | .alternative nodes => nodes.EmptyNoticed env
  | .disjunction alternatives => alternatives.EmptyNoticed env
  | _ => True

def RegExpTrees.EmptyNoticed (env : Env) : RegExpTrees → Prop
  | .nil => True
  | .cons tree trees => tree.EmptyNoticed env ∧ trees.EmptyNoticed env

end

/-- The nodes of alternatives, tried in turn, lead to the node that was given. -/
def AlternativesImplement (env : Env) (b : Nat)
    (build : Nat → RegExpCompiler → Option (RegExpCompiler × List Nat))
    (matcher : State → List State) : Prop :=
  ∀ k c c' ns, b ≤ c.nextRegister → build k c = some (c', ns) → Grows c c' ∧
    ∀ nodes, Covers nodes c c' → Leads nodes env c.nextRegister c'.nextRegister k
      (.tries (ns.map fun n => ⟨n, []⟩)) matcher

section Alternatives

variable {env : Env} {b : Nat}

theorem alternatives_nil : AlternativesImplement env b (fun _ c => some (c, [])) fun _ => [] := by
  intro k c c' ns _ h
  cases h
  exact ⟨.refl c, fun _ _ => leads_none⟩

theorem AlternativesImplement.cons {build : ToNode} {m₁ m₂ : State → List State}
    {builds : Nat → RegExpCompiler → Option (RegExpCompiler × List Nat)}
    (h₁ : ToNode.Implements env b build m₁) (h₂ : AlternativesImplement env b builds m₂) :
    AlternativesImplement env b
      (fun k c => (build k c).bind fun (c, n) => (builds k c).map fun (c, ns) => (c, n :: ns))
      fun s => m₁ s ++ m₂ s := by
  intro k c c' ns hc h
  obtain ⟨⟨c₁, n⟩, hbuild, h⟩ := bind_eq_some_iff.1 h
  obtain ⟨⟨c₂, ns'⟩, hbuilds, heq⟩ := map_eq_some_iff.1 h
  cases heq
  obtain ⟨hgrows₁, hleads₁⟩ := h₁ k c c₁ n hc hbuild
  obtain ⟨hgrows₂, hleads₂⟩ := h₂ k c₁ c' ns' (Nat.le_trans hc hgrows₁.registers) hbuilds
  refine ⟨hgrows₁.trans hgrows₂, fun nodes hnodes => ?_⟩
  have hfirst := (hleads₁ nodes (hnodes.left hgrows₂)).mono (Nat.le_refl _) hgrows₂.registers
  have hrest := (hleads₂ nodes (hnodes.right hgrows₁)).mono hgrows₁.registers (Nat.le_refl _)
  exact hfirst.tries hrest

theorem AlternativesImplement.disjunction {m : State → List State}
    {builds : Nat → RegExpCompiler → Option (RegExpCompiler × List Nat)}
    (h : AlternativesImplement env b builds m) :
    ToNode.Implements env b (fun k c => (builds k c).map fun (c, nodes) =>
      c.newNode (.choice .choice (nodes.map (⟨·, []⟩)) false)) m := by
  intro k c c' n hc hmade
  obtain ⟨⟨c₁, ns⟩, hbuilds, heq⟩ := map_eq_some_iff.1 hmade
  cases heq
  obtain ⟨hgrows, hleads⟩ := h k c c₁ ns hc hbuilds
  have hnew := grows_newNode c₁ (.choice .choice (ns.map (⟨·, []⟩)) false)
  refine ⟨hgrows.trans hnew, fun nodes hnodes => ?_⟩
  exact Leads.choice (hnodes.right hgrows).newNode (hleads nodes (hnodes.left hnew))

end Alternatives

mutual

theorem RegExpTree.implements (env : Env) {b : Nat} : ∀ (t : RegExpTree) {first n : Nat}, t.Below b →
    t.Ordered → t.EmptyNoticed env → t.captures = range' first n →
    ToNode.Implements env b t.toNode (t.matcher env)
  | .empty, _, _, _, _, _, _ => implements_self
  | .text elements, _, _, _, _, _, _ => implements_text elements
  | .assertion type, _, _, _, _, _, _ => by
    cases type with
    | startOfLine => exact implements_asserts .afterNewline
    | startOfInput => exact implements_asserts .atStart
    | endOfLine => exact implements_endOfLine
    | endOfInput => exact implements_asserts .atEnd
    | boundary => exact implements_asserts .atBoundary
    | nonBoundary => exact implements_asserts .atNonBoundary
  | .backReference index, _, _, _, _, _, _ => implements_backReference index
  | .capture body index, first, n, hb, ho, he, hcaps => by
    cases n with
    | zero => cases hcaps
    | succ n =>
      rw [RegExpTree.captures, range'_succ, List.cons.injEq] at hcaps
      exact implements_capture (body.implements env hb.2 ho he hcaps.2) (body.tame env hb.2) hb.1
  | .lookahead body isPositive captureCount captureFrom, _, _, hb, ho, he, hcaps =>
    implements_lookahead (body.implements env hb ho he hcaps) (body.tame env hb) isPositive
      captureCount captureFrom
  | .quantifier body _ _ _, _, _, hb, ho, he, hcaps =>
    implements_quantifier (body.implements env hb ho.2.2 he.1 hcaps) (RegExpTree.clears hcaps)
      (body.captures_below hb) (body.tame env hb) ho.1 ho.2.1 he.2
  | .alternative nodes, _, _, hb, ho, he, hcaps =>
    nodes.implements_sequence env hb ho he hcaps
  | .disjunction alternatives, _, _, hb, ho, he, hcaps =>
    (alternatives.implements_alternatives env hb ho he hcaps).disjunction

theorem RegExpTrees.implements_sequence (env : Env) {b : Nat} : ∀ (ts : RegExpTrees) {first n : Nat},
    ts.Below b → ts.Ordered → ts.EmptyNoticed env → ts.captures = range' first n →
    ToNode.Implements env b ts.sequenceToNode (ts.sequence env)
  | .nil, _, _, _, _, _, _ => implements_self
  | .cons tree trees, _, _, hb, ho, he, hcaps => by
    obtain ⟨k, _, htree, htrees⟩ := range'_eq_append_iff.1 hcaps.symm
    exact (tree.implements env hb.1 ho.1 he.1 htree).trans
      (trees.implements_sequence env hb.2 ho.2 he.2 htrees) (trees.tame_sequence env hb.2)

theorem RegExpTrees.implements_alternatives (env : Env) {b : Nat} :
    ∀ (ts : RegExpTrees) {first n : Nat}, ts.Below b → ts.Ordered → ts.EmptyNoticed env →
      ts.captures = range' first n →
      AlternativesImplement env b ts.alternativesToNode (ts.alternatives env)
  | .nil, _, _, _, _, _, _ => alternatives_nil
  | .cons tree trees, _, _, hb, ho, he, hcaps => by
    obtain ⟨k, _, htree, htrees⟩ := range'_eq_append_iff.1 hcaps.symm
    exact .cons (tree.implements env hb.1 ho.1 he.1 htree)
      (trees.implements_alternatives env hb.2 ho.2 he.2 htrees)

end

/-! ## Minimum lengths that do not wrap around -/

mutual

/-- The minimum length of a tree, whatever its size. -/
def RegExpTree.leastLength : RegExpTree → Nat
  | .text elements => textLength elements
  | .capture body _ => body.leastLength
  | .quantifier body min _ _ => min * body.leastLength
  | .alternative nodes => nodes.sumLeastLength
  | .disjunction .nil => 0
  | .disjunction (.cons tree trees) => trees.leastLeastLength tree.leastLength
  | _ => 0

def RegExpTrees.sumLeastLength : RegExpTrees → Nat
  | .nil => 0
  | .cons tree trees => tree.leastLength + trees.sumLeastLength

def RegExpTrees.leastLeastLength : RegExpTrees → Nat → Nat
  | .nil, least => least
  | .cons tree trees, least => trees.leastLeastLength (min least tree.leastLength)

end

mutual

/-- The minimum lengths of all parts of a tree are below 2^31. -/
def RegExpTree.Fits : RegExpTree → Prop
  | .text elements => textLength elements < 2147483648
  | .capture body _ => body.Fits
  | .lookahead body _ _ _ => body.Fits
  | .quantifier body min _ _ => min * body.leastLength < 2147483648 ∧ body.Fits
  | .alternative nodes => nodes.sumLeastLength < 2147483648 ∧ nodes.Fits
  | .disjunction alternatives => alternatives.Fits
  | _ => True

def RegExpTrees.Fits : RegExpTrees → Prop
  | .nil => True
  | .cons tree trees => tree.Fits ∧ trees.Fits

end

theorem wrapInt_natCast {n : Nat} (h : n < 2147483648) : wrapInt n = n := by
  rw [wrapInt]
  omega

mutual

theorem RegExpTree.minMatch_eq : ∀ t : RegExpTree, t.Fits → t.minMatch = t.leastLength
  | .empty, _ | .assertion _, _ | .backReference _, _ | .lookahead _ _ _ _, _ => rfl
  | .text _, h => wrapInt_natCast h
  | .capture body _, h => body.minMatch_eq h
  | .quantifier body min _ _, h => by
    rw [RegExpTree.minMatch, body.minMatch_eq h.2, RegExpTree.leastLength]
    exact_mod_cast wrapInt_natCast h.1
  | .alternative nodes, h => nodes.sumMinMatch_eq h.1 h.2
  | .disjunction .nil, _ => rfl
  | .disjunction (.cons tree trees), h => by
    rw [RegExpTree.minMatch, tree.minMatch_eq h.1]
    exact trees.leastMinMatch_eq h.2 _

theorem RegExpTrees.sumMinMatch_eq : ∀ ts : RegExpTrees, ts.sumLeastLength < 2147483648 → ts.Fits →
    ts.sumMinMatch = ts.sumLeastLength
  | .nil, _, _ => rfl
  | .cons tree trees, hsum, h => by
    rw [RegExpTrees.sumLeastLength] at hsum
    rw [RegExpTrees.sumMinMatch, tree.minMatch_eq h.1, trees.sumMinMatch_eq (by omega) h.2,
      RegExpTrees.sumLeastLength]
    exact_mod_cast wrapInt_natCast hsum

theorem RegExpTrees.leastMinMatch_eq : ∀ ts : RegExpTrees, ts.Fits → ∀ least : Nat,
    ts.leastMinMatch least = ts.leastLeastLength least
  | .nil, _, _ => rfl
  | .cons tree trees, h, least => by
    have hmin : min (least : Int) tree.leastLength = (min least tree.leastLength : Nat) := by omega
    rw [RegExpTrees.leastMinMatch, tree.minMatch_eq h.1, RegExpTrees.leastLeastLength, hmin]
    exact trees.leastMinMatch_eq h.2 (min least tree.leastLength)

end

theorem textLength_eq (env : Env) (elements : List TextElement) :
    textLength elements = (elements.flatMap (·.tests env)).length := by
  rw [length_flatMap, textLength]
  congr 1
  refine map_congr_left fun element _ => ?_
  cases element
  · exact (length_map ..).symm
  · rfl

theorem repeatFrom_long {m : State → List State} (clear : State → State) {l : Nat} {isGreedy : Bool}
    (hclear : ∀ x, (clear x).position = x.position)
    (hm : ∀ x, ∀ y ∈ m x, x.position + l ≤ y.position) (fuel : Nat) :
    ∀ (min : Nat) (max : Option Nat), (∀ M, max = some M → min ≤ M) →
      ∀ x, ∀ y ∈ repeatFrom m clear isGreedy fuel min max x, x.position + min * l ≤ y.position := by
  induction fuel with
  | zero => exact fun _ _ _ _ _ hy => nomatch hy
  | succ fuel ih =>
    intro min max hmax x y hy
    rw [repeatFrom] at hy
    split at hy
    · grind
    · have hiteration (hy : y ∈ (m (clear x)).flatMap fun y =>
          if min = 0 ∧ y.position = x.position then []
          else repeatFrom m clear isGreedy fuel (min - 1) (max.map (· - 1)) y) :
          x.position + min * l ≤ y.position := by
        obtain ⟨z, hz, hy⟩ := mem_flatMap.1 hy
        have hfirst := hm _ z hz
        rw [hclear] at hfirst
        split at hy
        · cases hy
        · have hrest := ih (min - 1) _ (fun M hM => by
            obtain ⟨M', hM', rfl⟩ := map_eq_some_iff.1 hM
            have hle := hmax M' hM'
            omega) z y hy
          cases min with
          | zero => omega
          | succ min =>
            grind
      split at hy
      · exact hiteration hy
      grind

mutual

/-- A match is at least as long as the minimum length. -/
theorem RegExpTree.long (env : Env) : ∀ t : RegExpTree, t.Ordered → ∀ x, ∀ y ∈ t.matcher env x,
    x.position + t.leastLength ≤ y.position
  | .text elements, _, x, y, hy => by
    obtain ⟨q, hq, rfl⟩ := map_eq_some_iff.1 (mem_toList.1 hy)
    have hlen := (matchTests_forward hq).1
    rw [← textLength_eq] at hlen
    exact Nat.le_of_eq hlen.symm
  | .capture body index, h, x, y, hy => by
    obtain ⟨z, hz, rfl⟩ := mem_map.1 hy
    exact body.long env h (x.write (startRegister index) x.position) z hz
  | .quantifier body min max isGreedy, h, x, y, hy => by
    refine repeatFrom_long (clearCaptures body.captures) (fun _ => rfl)
      (body.long env h.2.2) _ min (maxOf max) (fun M hM => ?_) x y hy
    rw [← (maxOf_eq_some.1 hM).1]
    exact h.1
  | .alternative nodes, h, x, y, hy => nodes.sum_long env h x y hy
  | .disjunction .nil, _, _, _, hy => nomatch hy
  | .disjunction (.cons tree trees), h, x, y, hy => by
    obtain ⟨hle, hrest⟩ := trees.least_long env h.2 tree.leastLength x
    rw [RegExpTree.leastLength]
    rcases mem_append.1 hy with hy | hy
    · have hfirst := tree.long env h.1 x y hy
      omega
    · exact hrest y hy
  | .empty, _, x, y, hy => ((tame_single 0 0).forward x y hy).1
  | .assertion type, _, x, y, hy => ((tame_assertion env 0 type).forward x y hy).1
  | .backReference index, _, x, y, hy =>
    ((tame_backReference env (Nat.lt_succ_self (endRegister index))).forward x y hy).1
  | .lookahead body isPositive _ _, _, x, y, hy => by
    refine Nat.le_of_eq ?_
    simp only [RegExpTree.matcher] at hy
    split at hy <;> split at hy <;> simp only [mem_singleton, not_mem_nil] at hy
    · rw [hy]
      rfl
    · rw [hy]
      rfl

theorem RegExpTrees.sum_long (env : Env) : ∀ ts : RegExpTrees, ts.Ordered → ∀ x,
    ∀ y ∈ ts.sequence env x, x.position + ts.sumLeastLength ≤ y.position
  | .nil, _, x, y, hy => by
    rw [mem_singleton.1 hy]
    exact Nat.le_refl _
  | .cons tree trees, h, x, z, hz => by
    obtain ⟨y, hy, hz⟩ := mem_flatMap.1 hz
    have hfirst := tree.long env h.1 x y hy
    have hrest := trees.sum_long env h.2 y z hz
    rw [RegExpTrees.sumLeastLength]
    omega

theorem RegExpTrees.least_long (env : Env) : ∀ ts : RegExpTrees, ts.Ordered → ∀ least x,
    ts.leastLeastLength least ≤ least ∧
      ∀ y ∈ ts.alternatives env x, x.position + ts.leastLeastLength least ≤ y.position
  | .nil, _, _, _ => ⟨Nat.le_refl _, fun _ hy => (nomatch hy)⟩
  | .cons tree trees, h, least, x => by
    obtain ⟨hle, hrest⟩ := trees.least_long env h.2 (min least tree.leastLength) x
    rw [RegExpTrees.leastLeastLength]
    refine ⟨by omega, fun y hy => ?_⟩
    rcases mem_append.1 hy with hy | hy
    · have hfirst := tree.long env h.1 x y hy
      omega
    · exact hrest y hy

end

mutual

/-- Where no minimum length wraps around the bodies that can be empty are noticed. -/
theorem RegExpTree.emptyNoticed_of_fits (env : Env) : ∀ t : RegExpTree, t.Ordered → t.Fits → t.EmptyNoticed env
  | .empty, _, _ | .text _, _, _ | .assertion _, _, _ | .backReference _, _, _ => trivial
  | .capture body _, h, hfits => body.emptyNoticed_of_fits env h hfits
  | .lookahead body _ _ _, h, hfits => body.emptyNoticed_of_fits env h hfits
  | .quantifier body min max _, h, hfits => by
    refine ⟨body.emptyNoticed_of_fits env h.2.2 hfits.2, ?_⟩
    rw [body.minMatch_eq hfits.2]
    by_cases hzero : body.leastLength = 0
    · exact .inl (by rw [hzero]; rfl)
    · refine .inr (.inr fun s y hy heq => ?_)
      have hlong := body.long env h.2.2 s y hy
      omega
  | .alternative nodes, h, hfits => nodes.emptyNoticed_of_fits env h hfits.2
  | .disjunction alternatives, h, hfits => alternatives.emptyNoticed_of_fits env h hfits

theorem RegExpTrees.emptyNoticed_of_fits (env : Env) : ∀ ts : RegExpTrees, ts.Ordered → ts.Fits →
    ts.EmptyNoticed env
  | .nil, _, _ => trivial
  | .cons tree trees, h, hfits =>
    ⟨tree.emptyNoticed_of_fits env h.1 hfits.1, trees.emptyNoticed_of_fits env h.2 hfits.2⟩

end

/-! ## Quantifiers -/

/-- From any position and registers the nodes of a quantifier run the node after it in exactly the
states in which `RepeatMatcher` calls its continuation, up to registers of the quantifier itself. -/
theorem quantifier_implements {env : Env} {b : Nat} {body : RegExpTree} {min max : Nat}
    {isGreedy : Bool} {first count : Nat}
    (hbelow : body.Below b) (hordered : (RegExpTree.quantifier body min max isGreedy).Ordered)
    (hcaptures : body.captures = range' first count)
    (hnoticed : (RegExpTree.quantifier body min max isGreedy).EmptyNoticed env)
    {onSuccess n : Nat} {c c' : RegExpCompiler} (hc : b ≤ c.nextRegister)
    (hmade : (RegExpTree.quantifier body min max isGreedy).toNode onSuccess c = some (c', n))
    {nodes : List Node} (hnodes : Covers nodes c c') (s : State) :
    ∃ ys, Forall₂ (Agree c.nextRegister c'.nextRegister)
        (repeatMatcher env.subject.length (body.matcher env) (clearCaptures body.captures) min
          (maxOf max) isGreedy s) ys ∧
      (∀ r, Outside c.nextRegister c'.nextRegister r → Collects nodes env onSuccess ys r →
        ∀ r', Run nodes env (.node n) s r' ↔ r' = r) ∧
      (nodes[onSuccess]? = some (.endNode .accept) → ∀ r', Run nodes env (.node n) s r' ↔ r' = ⟨ys, none⟩) := by
  have hall := (RegExpTree.quantifier body min max isGreedy).implements env hbelow hordered hnoticed
    hcaptures onSuccess c c' n hc hmade
  obtain ⟨ys, hys, hyields⟩ := hall.2 nodes hnodes s
  have hexact (r : Result) (hr : Outside c.nextRegister c'.nextRegister r)
      (hcollects : Collects nodes env onSuccess ys r) (r' : Result) :
      Run nodes env (.node n) s r' ↔ r' = r := by
    have hrun := hyields r hr hcollects
    constructor
    · exact fun hrun' => hrun'.unique hrun
    · rintro rfl
      exact hrun
  refine ⟨ys, hys, hexact, fun haccept => ?_⟩
  exact hexact _ (outside_of_none rfl) (collects_accept haccept ys)

/-- The nodes of `(a*)+` before the end of the regexp. -/
def starNodes : List Node :=
  [.endNode .accept, .choice (.loop 9 0 true) [⟨9, []⟩, ⟨0, [⟨5, .geq, 1⟩]⟩] false,
    .action (.incrementRegister 5) 1,
    .action (.emptyMatchCheck 4 (some 5) 1) 2,
    .action (.storePosition 3 true) 3,
    .choice (.loop 6 4 false) [⟨6, []⟩, ⟨4, []⟩] false,
    .text [.atom [97]] 5,
    .action (.storePosition 2 true) 5,
    .action (.storePosition 4 false) 7,
    .action (.clearCaptures 2 3) 8,
    .action (.setRegister 5 0) 1]

def starBody : RegExpTree := .capture (.quantifier (.text [.atom [97]]) 0 kInfinity true) 1

theorem quantifier_implements_star : let env : Env := ⟨[97, 97], false, fun _ => []⟩
    let s : State := ⟨0, fun _ => -1⟩
    ∃ ys, Forall₂ (Agree 4 6)
        (repeatMatcher 2 (starBody.matcher env) (clearCaptures starBody.captures) 1 (maxOf kInfinity)
          true s) ys ∧
      (∀ r, Outside 4 6 r → Collects starNodes env 0 ys r → ∀ r', Run starNodes env (.node 10) s r' ↔ r' = r) ∧
      (starNodes[0]? = some (Node.endNode .accept) →
        ∀ r', Run starNodes env (.node 10) s r' ↔ r' = ⟨ys, none⟩) := by
  have hordered : (RegExpTree.quantifier starBody 1 kInfinity true).Ordered :=
    ⟨by decide, Nat.le_refl _, Nat.zero_le _, Nat.le_refl _, trivial⟩
  have hfits : (RegExpTree.quantifier starBody 1 kInfinity true).Fits :=
    ⟨by decide, by decide, by unfold RegExpTree.Fits; decide⟩
  have hmade : (RegExpTree.quantifier starBody 1 kInfinity true).toNode 0
      ⟨[.endNode .accept], 4, 1, true⟩ = some (⟨starNodes, 6, 1, true⟩, 10) := by decide +kernel
  have hbelow : starBody.Below 4 := ⟨by decide, trivial⟩
  have hcaptures : starBody.captures = range' 1 1 := rfl
  exact quantifier_implements hbelow hordered hcaptures (RegExpTree.emptyNoticed_of_fits _ _ hordered hfits) (Nat.le_refl _) hmade (fun _ _ _ => rfl) _

/-! ## A minimum length that wraps around -/

/-- Two choices that prefer each other without consuming anything are never left. -/
theorem not_run_of_cycle {nodes : List Node} {env : Env} {center choice : Nat} {kind kind' : ChoiceKind}
    {rest rest' : List GuardedAlternative} {notAtStart notAtStart' : Bool}
    (hcenter : nodes[center]? = some (.choice kind (⟨choice, []⟩ :: rest) notAtStart))
    (hchoice : nodes[choice]? = some (.choice kind' (⟨center, []⟩ :: rest') notAtStart'))
    {task : Task} {s : State} {r : Result} (h : Run nodes env task s r) :
    task ≠ .node center ∧ task ≠ .tries (⟨choice, []⟩ :: rest) ∧ task ≠ .node choice ∧
      task ≠ .tries (⟨center, []⟩ :: rest') := by
  have hnode {n : Nat} {node : Node} (hn : nodes[n]? = some node)
      (hne : ∀ kind alternatives notAtStart, node ≠ .choice kind alternatives notAtStart) :
      Task.node n ≠ .node center ∧ Task.node n ≠ .tries (⟨choice, []⟩ :: rest) ∧
        Task.node n ≠ .node choice ∧ Task.node n ≠ .tries (⟨center, []⟩ :: rest') := by
    grind
  induction h with
  | choice hn _ ih =>
    grind
  | none => simp
  | guarded hguard _ _ =>
    grind
  | cut _ _ _ ih =>
    grind
  | next _ _ _ _ ih _ =>
    grind
  | accept hn | backtrack hn | negativeSubmatchSuccess hn | text hn | textFails hn | action hn
  | actionFails hn | beginSubmatch hn | positiveSubmatchSuccess hn | assertion hn
  | assertionFails hn | backReference hn | backReferenceFails hn =>
    exact hnode hn fun _ _ _ heq => nomatch heq

/-- `(?:|(?:a{65536}){32768})` -/
def wrappedBody : RegExpTree :=
  .disjunction (.cons .empty (.cons (.quantifier (.quantifier (.text [.atom [97]]) 65536 65536 true)
    32768 32768 true) .nil))

theorem repeatMatcher_of_fails {length min : Nat} {max : Option Nat} {isGreedy : Bool}
    {m : State → List State} {clear : State → State} {x : State} (hm : m (clear x) = [])
    (hmin : min ≠ 0) (hmax : max ≠ some 0) : repeatMatcher length m clear min max isGreedy x = [] := by
  rw [repeatMatcher, repeatFrom, if_neg hmax, if_pos hmin, hm]
  rfl

/-- Without input the body is empty or fails. -/
theorem wrappedBody_matcher (x : State) : wrappedBody.matcher ⟨[], false, fun _ => []⟩ x = [x] := by
  have hinner (x : State) : (RegExpTree.quantifier (.text [.atom [97]]) 65536 65536 true).matcher
      ⟨[], false, fun _ => []⟩ x = [] := by
    exact repeatMatcher_of_fails rfl (by decide) (by decide)
  have houter : (RegExpTree.quantifier (.quantifier (.text [.atom [97]]) 65536 65536 true)
      32768 32768 true).matcher ⟨[], false, fun _ => []⟩ x = [] := by
    exact repeatMatcher_of_fails (hinner _) (by decide) (by decide)
  rw [wrappedBody, RegExpTree.matcher, RegExpTrees.alternatives, RegExpTrees.alternatives]
  dsimp only
  rfl

/-- The nodes of `(?:|(?:a{65536}){32768})*` before the end of the regexp. -/
def wrappedNodes : List Node :=
  [.endNode .accept, .choice (.loop 9 0 false) [⟨9, []⟩, ⟨0, []⟩] false,
    .choice (.loop 7 1 false) [⟨7, [⟨2, .lt, 32768⟩]⟩, ⟨1, [⟨2, .geq, 32768⟩]⟩] false,
    .action (.incrementRegister 2) 2,
    .choice (.loop 6 3 false) [⟨6, [⟨3, .lt, 65536⟩]⟩, ⟨3, [⟨3, .geq, 65536⟩]⟩] false,
    .action (.incrementRegister 3) 4,
    .text [.atom [97]] 5,
    .action (.setRegister 3 0) 4,
    .action (.setRegister 2 0) 2,
    .choice .choice [⟨1, []⟩, ⟨8, []⟩] false]

/-- The minimum length of the body wraps around, there is no check for an empty match, and the loop
runs forever. -/
theorem quantifier_not_implements : (RegExpTree.quantifier wrappedBody 0 kInfinity true).toNode 0
        ⟨[.endNode .accept], 2, 1, true⟩ = some (⟨wrappedNodes, 4, 1, true⟩, 1) ∧
      (∀ r, ¬ Run wrappedNodes ⟨[], false, fun _ => []⟩ (.node 1) ⟨0, fun _ => -1⟩ r) ∧
      repeatMatcher 0 (wrappedBody.matcher ⟨[], false, fun _ => []⟩) (clearCaptures []) 0
        (maxOf kInfinity) true ⟨0, fun _ => -1⟩ = [⟨0, fun _ => -1⟩] := by
  refine ⟨by decide +kernel, fun r h => ?_, ?_⟩
  · exact (not_run_of_cycle rfl rfl h).1 rfl
  · rw [repeatMatcher, repeatFrom, if_neg (by decide), wrappedBody_matcher]
    simp [clearCaptures]

end W16.RegExps
