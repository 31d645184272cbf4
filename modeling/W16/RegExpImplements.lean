import W16.RegExpRuns

/-!
# Nodes of the simple trees

The nodes made for a tree lead to the node after them as the matcher of the tree says.
-/
namespace W16.RegExps

open List Option

set_option linter.dupNamespace false

/-! ## Making nodes -/

/-- Nodes and registers are only added. -/
structure Grows (c c' : RegExpCompiler) : Prop where
  length : c.nodes.length ≤ c'.nodes.length
  old : ∀ i, i < c.nodes.length → c'.nodes[i]? = c.nodes[i]?
  registers : c.nextRegister ≤ c'.nextRegister

/-- Nodes that contain all that were made from `c` to `c'`. -/
def Covers (nodes : List Node) (c c' : RegExpCompiler) : Prop :=
  ∀ i, c.nodes.length ≤ i → i < c'.nodes.length → nodes[i]? = c'.nodes[i]?

theorem Grows.refl (c : RegExpCompiler) : Grows c c := ⟨Nat.le_refl _, fun _ _ => rfl, Nat.le_refl _⟩

section Grows

variable {c c' c₁ : RegExpCompiler} {nodes : List Node}

theorem Grows.trans (h : Grows c c₁) (h₁ : Grows c₁ c') : Grows c c' :=
  ⟨Nat.le_trans h.length h₁.length, fun i hi => (h₁.old i (Nat.lt_of_lt_of_le hi h.length)).trans (h.old i hi),
    Nat.le_trans h.registers h₁.registers⟩

theorem Covers.left (h : Covers nodes c c') (h₁ : Grows c₁ c') : Covers nodes c c₁ :=
  fun i hlo hhi => (h i hlo (Nat.lt_of_lt_of_le hhi h₁.length)).trans (h₁.old i hhi)

theorem Covers.right (h : Covers nodes c c') (h₁ : Grows c c₁) : Covers nodes c₁ c' :=
  fun i hlo hhi => h i (Nat.le_trans h₁.length hlo) hhi

theorem grows_newNode (c : RegExpCompiler) (node : Node) : Grows c (c.newNode node).1 := by
  refine ⟨?_, fun i hi => ?_, Nat.le_refl _⟩
  · simp [RegExpCompiler.newNode]
  · exact List.getElem?_append_left hi

theorem Covers.newNode {node : Node} (h : Covers nodes c (c.newNode node).1) :
    nodes[(c.newNode node).2]? = some node := by
  refine (h c.nodes.length (Nat.le_refl _) ?_).trans ?_
  · simp [RegExpCompiler.newNode]
  · simp [RegExpCompiler.newNode]

/-- A new node that stays as it is. -/
theorem Covers.node {node : Node} (h : Covers nodes c c') (hc' : Grows (c.newNode node).1 c') :
    nodes[(c.newNode node).2]? = some node := (h.left hc').newNode

theorem grows_allocateRegister {reg : Nat} (h : c.allocateRegister = some (c', reg)) :
    Grows c c' ∧ reg = c.nextRegister ∧ c'.nextRegister = reg + 1 := by
  rw [RegExpCompiler.allocateRegister] at h
  split at h
  · cases h
  · cases h
    exact ⟨⟨Nat.le_refl _, fun _ _ => rfl, Nat.le_succ _⟩, rfl, rfl⟩

end Grows

/-- The nodes that are made lead to the node that was given as the matcher says. -/
def ToNode.Implements (env : Env) (b : Nat) (build : ToNode) (matcher : State → List State) : Prop :=
  ∀ k c c' n, b ≤ c.nextRegister → build k c = some (c', n) → Grows c c' ∧
    ∀ nodes, Covers nodes c c' → Leads nodes env c.nextRegister c'.nextRegister k (.node n) matcher

theorem Grows.of_append {c c' : RegExpCompiler} {extra : List Node}
    (h : c'.nodes = c.nodes ++ extra) (hregs : c.nextRegister ≤ c'.nextRegister) :
    Grows c c' := by
  refine ⟨?_, fun i hi => ?_, hregs⟩
  · rw [h, length_append]
    omega
  · rw [h, List.getElem?_append_left hi]

theorem Covers.append {nodes extra : List Node} {c c' : RegExpCompiler} (hnodes : Covers nodes c c')
    (h : c'.nodes = c.nodes ++ extra) {i : Nat} {node : Node} (hi : extra[i]? = some node) :
    nodes[c.nodes.length + i]? = some node := by
  have hlt := (List.getElem?_eq_some_iff.1 hi).1
  rw [hnodes _ (by omega) (by rw [h, length_append]; omega), h,
    List.getElem?_append_right (by omega), Nat.add_sub_cancel_left]
  exact hi

section Implements

variable {env : Env} {b : Nat}

theorem implements_self : ToNode.Implements env b (fun k c => some (c, k)) fun s => [s] := by
  intro k c c' n _ h
  cases h
  exact ⟨.refl c, fun _ _ => leads_self⟩

/-- One new node with at most one way to go on. -/
theorem implements_newNode (node : Nat → Node) {f : State → Option State}
    (hgoes : ∀ {nodes k n}, nodes[n]? = some (node k) → ∀ s, match f s with
      | some s' => ∀ r, Run nodes env (.node k) s' r → Run nodes env (.node n) s r
      | none => Run nodes env (.node n) s .fail) :
    ToNode.Implements env b (fun k c => some (c.newNode (node k))) fun s => (f s).toList := by
  intro k c c' n _ h
  cases h
  exact ⟨grows_newNode c _, fun nodes hnodes => leads_option (hgoes hnodes.newNode)⟩

theorem text_goes {nodes : List Node} {elements : List TextElement} {k n : Nat}
    (hn : nodes[n]? = some (.text elements k)) (s : State) :
    match (env.matchText elements s.position).map s.moveTo with
    | some s' => ∀ r, Run nodes env (.node k) s' r → Run nodes env (.node n) s r
    | none => Run nodes env (.node n) s .fail := by
  cases hmatch : env.matchText elements s.position with
  | none => exact .textFails hn hmatch
  | some position => exact fun r hrun => .text hn hmatch hrun

theorem assertion_goes {nodes : List Node} {type : AssertionNodeType} {k n : Nat}
    (hn : nodes[n]? = some (.assertion type k)) (s : State) :
    match if env.asserts s.position type then some s else none with
    | some s' => ∀ r, Run nodes env (.node k) s' r → Run nodes env (.node n) s r
    | none => Run nodes env (.node n) s .fail := by
  cases hholds : env.asserts s.position type with
  | true => exact fun r hrun => .assertion hn hholds hrun
  | false => exact .assertionFails hn hholds

theorem implements_text (elements : List TextElement) :
    ToNode.Implements env b (RegExpTree.text elements).toNode ((RegExpTree.text elements).matcher env) :=
  implements_newNode (fun k => .text elements k) text_goes

theorem implements_backReference (index : Nat) : ToNode.Implements env b (RegExpTree.backReference index).toNode
      ((RegExpTree.backReference index).matcher env) := by
  refine implements_newNode
    (fun k => .backReference (startRegister index) (endRegister index) k) fun {nodes k n} hn s => ?_
  cases hmatch : env.matchBackReference s (startRegister index) (endRegister index) with
  | none => exact .backReferenceFails hn hmatch
  | some position => exact fun r hrun => .backReference hn hmatch hrun

theorem ToNode.Implements.congr {build : ToNode} {m m' : State → List State}
    (h : ToNode.Implements env b build m) (heq : ∀ s, m' s = m s) :
    ToNode.Implements env b build m' := by
  rwa [funext heq]

theorem ToNode.Implements.of_eq {build build' : ToNode} {m : State → List State}
    (h : ToNode.Implements env b build m) (heq : ∀ k c, build' k c = build k c) :
    ToNode.Implements env b build' m := by
  rwa [funext fun k => funext fun c => heq k c]

/-- An assertion that is one node. -/
theorem implements_asserts (type : AssertionNodeType) :
    ToNode.Implements env b (fun k c => some (c.newNode (.assertion type k)))
      fun s => if env.asserts s.position type then [s] else [] := by
  have h := @implements_newNode env b (fun k => .assertion type k) _ assertion_goes
  exact h.congr fun s => by split <;> rfl

/-- One after the other, made from the last one. -/
theorem ToNode.Implements.trans {build₁ build₂ : ToNode} {m₁ m₂ : State → List State}
    (h₁ : ToNode.Implements env b build₁ m₁) (h₂ : ToNode.Implements env b build₂ m₂)
    (hm₂ : Tame env.subject.length b m₂) :
    ToNode.Implements env b (fun k c => (build₂ k c).bind fun (c, k) => build₁ k c)
      fun s => (m₁ s).flatMap m₂ := by
  intro k c c' n hc h
  obtain ⟨⟨c₁, k₁⟩, hbuild₂, hbuild₁⟩ := bind_eq_some_iff.1 h
  obtain ⟨hgrows₂, hleads₂⟩ := h₂ k c c₁ k₁ hc hbuild₂
  obtain ⟨hgrows₁, hleads₁⟩ := h₁ k₁ c₁ c' n (Nat.le_trans hc hgrows₂.registers) hbuild₁
  refine ⟨hgrows₂.trans hgrows₁, fun nodes hnodes => ?_⟩
  have hfirst := (hleads₁ nodes (hnodes.right hgrows₂)).mono hgrows₂.registers (Nat.le_refl _)
  have hsnd := (hleads₂ nodes (hnodes.left hgrows₁)).mono (Nat.le_refl _) hgrows₁.registers
  exact hfirst.trans hsnd hm₂ hc

theorem implements_storePosition (reg : Nat) (isCapture : Bool) :
    ToNode.Implements env b (fun k c => some (c.newNode (.action (.storePosition reg isCapture) k)))
      fun s => [s.write reg s.position] :=
  implements_newNode (fun k => .action (.storePosition reg isCapture) k)
    (f := fun s => some (s.write reg s.position)) fun hn _ _ hrun => .action hn rfl hrun

theorem implements_capture {build : ToNode} {m : State → List State} {index : Nat}
    (h : ToNode.Implements env b build m) (hm : Tame env.subject.length b m)
    (hb : endRegister index < b) :
    ToNode.Implements env b (captureToNode build index) fun s =>
      (m (s.write (startRegister index) s.position)).map fun y =>
        y.write (endRegister index) y.position := by
  have hend := tame_storePosition env.subject.length hb
  have hboth := h.trans (implements_storePosition (endRegister index) true) hend
  have hstart := @implements_storePosition env b (startRegister index) true
  exact (hstart.trans hboth (hm.flatMap hend)).congr fun s => capture_eq m index s

end Implements

/-! ## Submatches -/

theorem Result.uncommit_commit {r : Result} {reg : Nat} (h : r.cut ≠ some reg) :
    (r.commit reg).uncommit reg = r := by
  cases r with
  | mk arrivals cut =>
    cases cut with
    | none => simp [Result.commit, Result.uncommit]
    | some t =>
      simp [Result.commit, Result.uncommit, h]

theorem Result.uncommit_eq {r : Result} {reg : Nat} (h : r.cut ≠ some reg) : r.uncommit reg = r := by
  simp only [Result.uncommit]
  rw [if_neg h]

section Submatch

variable {nodes : List Node} {env : Env} {lo lo₁ hi k n b : Nat}
  {stackPointerRegister positionRegister bodyNode success : Nat} {m : State → List State}

theorem Outside.ne {r : Result} (h : Outside lo hi r) {reg : Nat} (hlo : lo ≤ reg) (hhi : reg < hi) :
    r.cut ≠ some reg := by
  intro heq
  have hout := h reg heq
  omega

theorem Outside.commit {r : Result} (h : Outside lo hi r) {reg : Nat} (hreg : reg < lo) :
    Outside lo hi (r.commit reg) := by
  intro t ht
  cases hcut : r.cut with
  | none =>
    simp_all [Result.commit]
  | some t' =>
    simp only [Result.commit, hcut, getD_some, Option.some.injEq] at ht
    exact h t (by rw [hcut, ht])

/-- Where a submatch begins its body leads to `success`, from the same captures and with the
position saved. -/
theorem leads_submatch (hm : Tame env.subject.length b m) (hb : b ≤ lo) (hlo : lo ≤ positionRegister)
    (hpos : positionRegister < lo₁) (hlo₁ : lo₁ ≤ hi)
    (hbody : Leads nodes env lo₁ hi success (.node bodyNode) m) (s : State) :
    ∃ ys, Forall₂ (Agree lo hi) (m s) ys ∧ (∀ y ∈ ys, y.registers positionRegister = s.position) ∧
      Yields nodes env lo₁ hi success (.node bodyNode) (s.write positionRegister s.position) ys := by
  obtain ⟨ys, hys, hyields⟩ := hbody (s.write positionRegister s.position)
  have hsame := hm.insensitive lo hi s _ hb
    (agree_write s (s.position : Int) hlo (Nat.lt_of_lt_of_le hpos hlo₁))
  refine ⟨ys, agree_trans hsame (hys.imp fun _ _ h => h.mono (by omega) (Nat.le_refl _)), ?_, hyields⟩
  intro y hy
  obtain ⟨x, hx, hxy⟩ := agree_mem hys hy
  rw [hxy.registers _ (.inl hpos), hm.frame _ x hx _ (Nat.le_trans hb hlo)]
  exact write_same _ _ _

/-- Only the first success of the body counts, and what comes after it begins where it did. -/
theorem leads_positive (hbegin : nodes[n]? =
      some (.action (.beginSubmatch stackPointerRegister positionRegister) bodyNode))
    {clearCount clearFrom : Nat}
    (hsucc : nodes[success]? = some (.action (.positiveSubmatchSuccess stackPointerRegister
      positionRegister clearCount clearFrom) k))
    (hm : Tame env.subject.length b m) (hb : b ≤ lo) (hlo : lo ≤ positionRegister)
    (hpos : positionRegister < lo₁) (hlo' : lo ≤ stackPointerRegister)
    (hsp : stackPointerRegister < lo₁) (hlo₁ : lo₁ ≤ hi)
    (hbody : Leads nodes env lo₁ hi success (.node bodyNode) m) :
    Leads nodes env lo hi k (.node n) fun s =>
      match m s with
      | [] => []
      | y :: _ => [y.moveTo s.position] := by
  intro s
  obtain ⟨ys, hys, hposition, hyields⟩ := leads_submatch hm hb hlo hpos hlo₁ hbody s
  dsimp only
  generalize m s = xs at hys ⊢
  cases hys with
  | nil => exact ⟨[], .nil, yields_fail (.beginSubmatch hbegin (hyields _ (outside_of_none rfl) .nil))⟩
  | @cons x y _ _ hxy _ =>
    refine ⟨[y.moveTo s.position], .cons (hxy.moveTo _) .nil, fun r hr h => ?_⟩
    have hrun := collects_single.1 h
    rw [← Result.uncommit_commit (hr.ne hlo' (Nat.lt_of_lt_of_le hsp hlo₁))]
    refine .beginSubmatch hbegin (hyields _ ((hr.mono (by omega) (Nat.le_refl _)).commit hsp) ?_)
    refine .cut (.positiveSubmatchSuccess hsucc ?_) rfl
    grind

/-- A success of the body ends the submatch without one, otherwise the match goes on. -/
theorem leads_negative {choiceNode : Nat} {notAtStart : Bool} {kind : ChoiceKind} (hbegin : nodes[n]? =
      some (.action (.beginSubmatch stackPointerRegister positionRegister) choiceNode))
    (hchoice : nodes[choiceNode]? = some (.choice kind [⟨bodyNode, []⟩, ⟨k, []⟩] notAtStart))
    {clearCount clearFrom : Nat}
    (hsucc : nodes[success]? = some (.endNode (.negativeSubmatchSuccess stackPointerRegister
      positionRegister clearCount clearFrom)))
    (hm : Tame env.subject.length b m) (hb : b ≤ lo) (hlo : lo ≤ positionRegister)
    (hpos : positionRegister < lo₁) (hlo' : lo ≤ stackPointerRegister)
    (hsp : stackPointerRegister < lo₁) (hlo₁ : lo₁ ≤ hi)
    (hbody : Leads nodes env lo₁ hi success (.node bodyNode) m) :
    Leads nodes env lo hi k (.node n) fun s =>
      match m s with
      | [] => [s]
      | _ :: _ => [] := by
  intro s
  obtain ⟨ys, hys, -, hyields⟩ := leads_submatch hm hb hlo hpos hlo₁ hbody s
  dsimp only
  generalize m s = xs at hys ⊢
  cases hys with
  | nil =>
    have hagree : Agree lo hi s (s.write positionRegister s.position) := agree_write _ _ hlo (by omega)
    refine ⟨[_], .cons hagree .nil, fun r hr h => ?_⟩
    rw [← Result.uncommit_eq (hr.ne hlo' (Nat.lt_of_lt_of_le hsp hlo₁))]
    refine .beginSubmatch hbegin (.choice hchoice ?_)
    have hfail := hyields _ (outside_of_none rfl) .nil
    have hrest : Run nodes env (.tries [⟨k, []⟩]) (s.write positionRegister s.position) r :=
      yields_self.tries rfl yields_none r hr h
    exact Run.next (r := .fail) rfl hfail rfl hrest
  | @cons x y _ ys _ _ =>
    refine ⟨[], .nil, yields_fail ?_⟩
    have hcommit : Outside lo₁ hi (Result.fail.commit stackPointerRegister) :=
      (outside_of_none rfl).commit hsp
    have hrun := hyields _ hcommit (.cut (.negativeSubmatchSuccess hsucc) rfl)
    have hcut : Result.fail.cut ≠ some stackPointerRegister := by simp [Result.fail]
    rw [← Result.uncommit_commit hcut]
    exact .beginSubmatch hbegin (.choice hchoice (.cut rfl hrun rfl))

end Submatch

/-- The registers of a submatch. -/
theorem allocate_submatch {c c₁ c₂ : RegExpCompiler} {stackPointerRegister positionRegister : Nat}
    (h₁ : c.allocateRegister = some (c₁, stackPointerRegister))
    (h₂ : c₁.allocateRegister = some (c₂, positionRegister)) :
    Grows c c₂ ∧ stackPointerRegister = c.nextRegister ∧ positionRegister = c.nextRegister + 1 ∧
      c₂.nextRegister = c.nextRegister + 2 := by
  obtain ⟨hgrows₁, hsp, hnext₁⟩ := grows_allocateRegister h₁
  obtain ⟨hgrows₂, hpos, hnext₂⟩ := grows_allocateRegister h₂
  exact ⟨hgrows₁.trans hgrows₂, hsp, by omega, by omega⟩

section Lookahead

variable {env : Env} {b : Nat}

theorem implements_lookahead {build : ToNode} {m : State → List State}
    (hbuild : ToNode.Implements env b build m) (hm : Tame env.subject.length b m) (isPositive : Bool)
    (captureCount captureFrom : Nat) :
    ToNode.Implements env b (lookaheadToNode build isPositive captureCount captureFrom) fun s =>
      match m s with
      | [] => if isPositive then [] else [s]
      | y :: _ => if isPositive then [y.moveTo s.position] else [] := by
  intro k c c' n hc h
  obtain ⟨⟨c₁, stackPointerRegister⟩, halloc₁, h⟩ := bind_eq_some_iff.1 h
  obtain ⟨⟨c₂, positionRegister⟩, halloc₂, h⟩ := bind_eq_some_iff.1 h
  obtain ⟨hgrows, hsp, hpos, hnext⟩ := allocate_submatch halloc₁ halloc₂
  have hc₂ : b ≤ c₂.nextRegister := Nat.le_trans hc hgrows.registers
  cases isPositive with
  | true =>
    obtain ⟨⟨c₃, bodyNode⟩, hmade, h⟩ := bind_eq_some_iff.1 h
    cases h
    have hsucc := grows_newNode c₂ (.action (.positiveSubmatchSuccess stackPointerRegister
      positionRegister (captureCount * 2) (2 + captureFrom * 2)) k)
    obtain ⟨hbody, hleads⟩ := hbuild _ _ c₃ bodyNode (Nat.le_trans hc₂ hsucc.registers) hmade
    have hbegin := grows_newNode c₃ (.action (.beginSubmatch stackPointerRegister positionRegister) bodyNode)
    refine ⟨hgrows.trans (hsucc.trans (hbody.trans hbegin)), fun nodes hnodes => ?_⟩
    have hnodes := hnodes.right hgrows
    have hsuccNode := hnodes.node (hbody.trans hbegin)
    have hnodes := hnodes.right hsucc
    have hregs := hsucc.registers
    have hmono := hbody.registers
    exact leads_positive (hnodes.right hbody).newNode hsuccNode hm hc (by omega) (by omega)
      (by omega) (by omega) hmono (hleads nodes (hnodes.left hbegin))
  | false =>
    obtain ⟨⟨c₃, bodyNode⟩, hmade, h⟩ := bind_eq_some_iff.1 h
    cases h
    have hsucc := grows_newNode c₂ (.endNode (.negativeSubmatchSuccess stackPointerRegister
      positionRegister (captureCount * 2) (2 + captureFrom * 2)))
    obtain ⟨hbody, hleads⟩ := hbuild _ _ c₃ bodyNode (Nat.le_trans hc₂ hsucc.registers) hmade
    have hchoice := grows_newNode c₃ (.choice .negativeLookahead [⟨bodyNode, []⟩, ⟨k, []⟩] false)
    have hbegin := grows_newNode (c₃.newNode (.choice .negativeLookahead [⟨bodyNode, []⟩, ⟨k, []⟩] false)).1
      (.action (.beginSubmatch stackPointerRegister positionRegister) c₃.nodes.length)
    refine ⟨hgrows.trans (hsucc.trans (hbody.trans (hchoice.trans hbegin))), fun nodes hnodes => ?_⟩
    have hnodes := hnodes.right hgrows
    have hsuccNode := hnodes.node (hbody.trans (hchoice.trans hbegin))
    have hnodes := hnodes.right hsucc
    have hrest := hnodes.right hbody
    have hregs := hsucc.registers
    have hmono := hbody.registers
    exact leads_negative (hrest.right hchoice).newNode (hrest.node hbegin) hsuccNode hm hc
      (by omega) (by omega) (by omega) (by omega) hmono
      (hleads nodes (hnodes.left (hchoice.trans hbegin)))

theorem acceptsClass_newlineRanges (c : Nat) : acceptsClass newlineRanges false c = isNewline c := by
  rw [Bool.eq_iff_iff]
  simp [acceptsClass, newlineRanges, isNewline, CharacterRange.contains]
  omega

theorem matchText_newline (env : Env) (position : Nat) :
    env.matchText [.charClass newlineRanges false] position =
      if (env.subject[position]?).any isNewline then some (position + 1) else none := by
  simp only [Env.matchText, flatMap_singleton, TextElement.tests, matchTests]
  grind [acceptsClass_newlineRanges]

theorem matcher_endOfLine (env : Env) (s : State) : (RegExpTree.assertion .endOfLine).matcher env s =
      (match (RegExpTree.text [.charClass newlineRanges false]).matcher env s with
        | [] => []
        | y :: _ => [y.moveTo s.position]) ++
        ((if env.asserts s.position .atEnd then some s else none).toList ++ []) := by
  simp only [RegExpTree.matcher, matchText_newline, Env.assertionHolds, Env.asserts]
  by_cases hnewline : (env.subject[s.position]?).any isNewline = true
  · obtain ⟨c, hc, -⟩ := (any_eq_true _ _).1 hnewline
    have hlen := Nat.not_le.2 (List.getElem?_eq_some_iff.1 hc).1
    simp only [hnewline, hlen]
    rfl
  grind

/-- A newline that is looked at but not consumed, or the end of the input. -/
theorem implements_endOfLine : ToNode.Implements env b (RegExpTree.assertion .endOfLine).toNode
    ((RegExpTree.assertion .endOfLine).matcher env) := by
  intro k c c' n hc h
  obtain ⟨⟨c₁, stackPointerRegister⟩, halloc₁, h⟩ := bind_eq_some_iff.1 h
  obtain ⟨⟨c₂, positionRegister⟩, halloc₂, h⟩ := bind_eq_some_iff.1 h
  obtain ⟨hgrows, hsp, hpos, hnext⟩ := allocate_submatch halloc₁ halloc₂
  have hmade : c'.nodes = c₂.nodes ++ [
      Node.action (.positiveSubmatchSuccess stackPointerRegister positionRegister 0 0) k,
      .text [.charClass newlineRanges false] c₂.nodes.length,
      .action (.beginSubmatch stackPointerRegister positionRegister) (c₂.nodes.length + 1),
      .assertion .atEnd k,
      .choice .choice [⟨c₂.nodes.length + 2, []⟩, ⟨c₂.nodes.length + 3, []⟩] false] ∧
      c'.nextRegister = c₂.nextRegister ∧ n = c₂.nodes.length + 4 := by
    cases h
    simp
  obtain ⟨hextra, hregs, rfl⟩ := hmade
  refine ⟨hgrows.trans (.of_append hextra (Nat.le_of_eq hregs.symm)), fun nodes hnodes => ?_⟩
  have hnodes := hnodes.right hgrows
  have hnode (i : Nat) {node : Node} (hi) := @Covers.append nodes _ c₂ c' hnodes hextra i node hi
  have htext := @leads_option nodes env c₂.nextRegister c'.nextRegister _ _ _ (text_goes (hnode 1 rfl))
  have hnewline := leads_positive (hnode 2 rfl) (hnode 0 rfl) (tame_text env b _) hc (by omega)
    (by omega) (by omega) (by omega) (Nat.le_of_eq hregs.symm) htext
  have hend := @leads_option nodes env c.nextRegister c'.nextRegister k _ _ (assertion_goes (hnode 3 rfl))
  refine (Leads.choice (hnode 4 rfl) (hnewline.tries (hend.tries leads_none))).congr fun s => ?_
  exact matcher_endOfLine env s

end Lookahead

end W16.RegExps
