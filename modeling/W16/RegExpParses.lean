import W16.RegExpBuilderTerms

/-!
# The tree of a pattern and its parse tree

The parser with `RegExpBuilder` and the one with a node for each production go through the same
states. What is on the one stack refines what is on the other one.
-/
namespace W16.RegExps

open Preferences List

set_option linter.dupNamespace false

variable {closed closed' closed'' : Closed} {opened : List Nat}

section Terms

variable {t p : RegExpTree}

/-- What the builder does with a quantifier. -/
theorem Refines.applied (h : Refines closed closed' opened t p) {quantifier : Quantifier}
    (hle : quantifier.min ≤ quantifier.max) :
    Refines closed closed' opened (quantifier.applied closed' t)
      (.quantifier p quantifier.min quantifier.max quantifier.isGreedy) := by
  have hempty : t.maxMatch closed' = 0 →
      Refines closed closed' opened (if quantifier.min = 0 then .empty else t)
        (.quantifier p quantifier.min quantifier.max quantifier.isGreedy) := by
    intro hzero
    split
    · next hmin =>
      rw [hmin]
      exact h.dropped hzero _ _
    · next hmin => exact h.once hzero hmin hle _
  have hquantifier := h.quantifier quantifier.min quantifier.max quantifier.isGreedy
  cases t with
  | empty => simpa [Quantifier.applied] using hempty rfl
  | text elements => exact hquantifier
  | _ =>
    rw [RegExpBuilder.applied_eq]
    · grind
    · trivial

/-- An atom with a quantifier or without one. -/
theorem Refines.built {atom atom' : Atom} {quantifier : Option Quantifier}
    (h : Refines closed closed' opened (atom.kept closed') atom'.toTree)
    (hle : ∀ q ∈ quantifier, q.min ≤ q.max) :
    Refines closed closed' opened (atom.built closed' quantifier) (atom'.term quantifier) := by
  cases quantifier with
  | none => exact h
  | some quantifier => exact h.applied (hle quantifier rfl)

end Terms

section Builders

/-- What has been built, one alternative behind the other, between two points of the pattern. -/
structure Builds (closed closed' : Closed) (opened : List Nat) (b : RegExpBuilder)
    (b' : ProductionBuilder) : Prop where
  pending : b.Pending
  refines : ∃ closed₁, Refines closed closed₁ opened (.disjunction (.ofList b.alternatives.getList))
      (.disjunction (.ofList b'.alternatives)) ∧
    Refines closed₁ closed' opened (.alternative (.ofList b.flat)) (.alternative (.ofList b'.terms))

variable {b b₁ : RegExpBuilder} {b' : ProductionBuilder} {t p : RegExpTree}

theorem Builds.unclosed (h : Builds closed closed' opened b b') : ∀ k ∈ opened, closed' k = none := by
  obtain ⟨_, -, h⟩ := h.refines
  exact h.unclosed

theorem Builds.new (hopen : ∀ k ∈ opened, closed k = none) :
    Builds closed closed opened builderActions.new productionActions.new :=
  ⟨nofun, closed, .noAlternatives hopen, .noTerms hopen⟩

theorem Builds.addTerm (h : Builds closed closed' opened b b') (ht : Refines closed' closed'' opened t p)
    (hb : Adds b t b₁) :
    Builds closed closed'' opened b₁ { b' with terms := b'.terms ++ [p] } := by
  obtain ⟨closed₁, halternatives, hterms⟩ := h.refines
  refine ⟨hb.pending, closed₁, ?_, (hterms.addTerm ht).congr hb.flat.alternative⟩
  rw [hb.alternatives]
  exact halternatives

theorem Builds.addAssertion (h : Builds closed closed' opened b b') (type : AssertionType) :
    Builds closed closed' opened (builderActions.addAssertion b type)
      (productionActions.addAssertion b' type) :=
  h.addTerm (.assertion type h.unclosed) (RegExpBuilder.adds_withTerm h.pending (.refl _) rfl (.assertion type))

theorem Builds.newAlternative (h : Builds closed closed' opened b b') :
    Builds closed closed' opened (builderActions.newAlternative b) (productionActions.newAlternative b') := by
  obtain ⟨closed₁, halternatives, hterms⟩ := h.refines
  obtain ⟨alternative, hlist, halike⟩ := b.flushTerms_alternatives h.pending
  have hempty := Refines.noTerms h.unclosed
  refine ⟨?_, closed', ?_, ?_⟩
  · show b.flushTerms.characters ≠ some []
    rw [b.flushTerms_characters]
    exact fun h => nomatch h
  · show Refines _ _ _ (.disjunction (.ofList b.flushTerms.alternatives.getList)) _
    rw [hlist]
    exact halternatives.addAlternative (hterms.congr halike)
  · show Refines _ _ _ (.alternative (.ofList b.flushTerms.flat)) _
    rw [b.flushTerms_flat]
    exact hempty

theorem Builds.toRegExp (h : Builds closed closed' opened b b') :
    Refines closed closed' opened (builderActions.toRegExp b) (productionActions.toRegExp b') := by
  obtain ⟨closed₁, halternatives, hterms⟩ := h.refines
  obtain ⟨alternative, hlist, halike⟩ := b.flushTerms_alternatives h.pending
  exact (halternatives.addAlternative (hterms.congr halike)).congr
    (b.toRegExp_alike b.alternatives.getList alternative hlist)

end Builders

section Stacks

variable {β : Type}

/-- The groups that are open inside a subexpression. -/
def RegExpParserState.openIn (s : RegExpParserState β) (opened : List Nat) : List Nat :=
  if s.groupType = .capture then s.captureIndex :: opened else opened

theorem mem_openIn (s : RegExpParserState β) {k : Nat} (hk : k ∈ opened) : k ∈ s.openIn opened := by
  rw [RegExpParserState.openIn]
  grind

theorem mem_of_mem_openIn {s : RegExpParserState β} {k : Nat} (hk : k ∈ s.openIn opened) :
    (s.groupType = .capture ∧ s.captureIndex = k) ∨ k ∈ opened := by
  rw [RegExpParserState.openIn] at hk
  grind

theorem closeCapture_length (s : RegExpParserState β) (body : RegExpTree)
    (captures : List (Option Nat)) : (s.closeCapture body captures).length = captures.length := by
  rw [RegExpParserState.closeCapture]
  split
  · exact length_set
  · rfl

/-- Each subexpression begins where the one around it has got to. -/
inductive Stacked : Closed → List Nat → RegExpParserState RegExpBuilder →
    List (RegExpParserState RegExpBuilder) → RegExpParserState ProductionBuilder →
    List (RegExpParserState ProductionBuilder) → Prop where
  | pattern {closed s s'} (hbuilds : Builds (fun _ => none) closed [] s.builder s'.builder) :
      Stacked closed [] s [] s' []
  | group {closed closed' opened s s' previous previous' stored stored'}
      (hbuilds : Builds closed closed' (s.openIn opened) s.builder s'.builder)
      (htype : s'.groupType = s.groupType) (hindex : s'.captureIndex = s.captureIndex)
      (hnew : s.groupType = .capture → s.captureIndex ∉ opened)
      (h : Stacked closed opened previous stored previous' stored') :
      Stacked closed' (s.openIn opened) s (previous :: stored) s' (previous' :: stored')

variable {s : RegExpParserState RegExpBuilder} {s' : RegExpParserState ProductionBuilder}
  {stored : List (RegExpParserState RegExpBuilder)}
  {stored' : List (RegExpParserState ProductionBuilder)}

theorem Stacked.unclosed (h : Stacked closed opened s stored s' stored') : ∀ k ∈ opened, closed k = none := by
  cases h with
  | pattern hbuilds => exact hbuilds.unclosed
  | group hbuilds => exact hbuilds.unclosed

theorem Stacked.pending (h : Stacked closed opened s stored s' stored') : s.builder.Pending := by
  cases h with
  | pattern hbuilds => exact hbuilds.pending
  | group hbuilds => exact hbuilds.pending

/-- More has been built of the innermost subexpression. -/
theorem Stacked.update (h : Stacked closed opened s stored s' stored') {b : RegExpBuilder}
    {b' : ProductionBuilder}
    (hb : ∀ closed₀, Builds closed₀ closed opened s.builder s'.builder → Builds closed₀ closed' opened b b') :
    Stacked closed' opened { s with builder := b } stored { s' with builder := b' } stored' := by
  cases h with
  | pattern hbuilds => exact .pattern (hb _ hbuilds)
  | group hbuilds htype hindex hnew h =>
    exact .group (s := { s with builder := b }) (hb _ hbuilds) htype hindex hnew h

end Stacks

section Captures

variable (captures : List (Option Nat))

theorem lookup_nil : lookup [] = fun _ => none := by
  funext k
  cases k <;> rfl

/-- A group that has begun is not closed. -/
theorem lookup_append : lookup (captures ++ [none]) = lookup captures := by
  funext k
  cases k with
  | zero => rfl
  | succ k =>
    rw [lookup, lookup]
    by_cases hlt : k < captures.length
    · rw [getElem?_append_left hlt]
    · grind

theorem lookup_length : lookup captures (captures.length + 1) = none := by
  rw [lookup, getElem?_eq_none (Nat.le_refl _)]
  rfl

theorem lookup_set {k : Nat} (hpos : 0 < k) (hle : k ≤ captures.length) (m : Nat) :
    lookup (captures.set (k - 1) (some m)) = Function.update (lookup captures) k (some m) := by
  funext j
  by_cases hj : j = k
  · subst hj
    obtain ⟨j, rfl⟩ := Nat.exists_eq_succ_of_ne_zero (Nat.ne_of_gt hpos)
    rw [Function.update_self, lookup, Nat.succ_sub_one, getElem?_set_self (by omega)]
    rfl
  · rw [Function.update_of_ne hj]
    cases j with
    | zero => rfl
    | succ j => rw [lookup, lookup, getElem?_set_ne (by omega)]

end Captures

section Quantifiers

theorem scanGreedy_bounds (min max : Nat) (p : RegExpParser) :
    (scanGreedy min max p).1.min = min ∧ (scanGreedy min max p).1.max = max := by
  rw [scanGreedy]
  split <;> exact ⟨rfl, rfl⟩

theorem scanQuantifier_bounds {p p' : RegExpParser} {quantifier : Option Quantifier}
    (h : scanQuantifier p = .ok (quantifier, p')) : ∀ q ∈ quantifier, q.min ≤ q.max := by
  have hgreedy : ∀ min max p₁, min ≤ max →
      (some (scanGreedy min max p₁).1, (scanGreedy min max p₁).2) = (quantifier, p') →
      ∀ q ∈ quantifier, q.min ≤ q.max := by
    intro min max p₁ hle heq q hq
    rw [← (Prod.mk.inj heq).1] at hq
    obtain rfl := Option.some.inj hq
    rwa [(scanGreedy_bounds min max p₁).1, (scanGreedy_bounds min max p₁).2]
  rw [scanQuantifier] at h
  split at h
  · exact hgreedy _ _ _ (by decide) (Except.ok.inj h)
  · split at h
    · exact hgreedy _ _ _ (by decide) (Except.ok.inj h)
    grind

end Quantifiers

section Steps

/-- The states of the two parsers at the same point of the pattern. The maximum lengths of the groups
matter only to the first one. -/
structure Related (c : Parse RegExpBuilder) (d : Parse ProductionBuilder) (opened : List Nat) : Prop where
  parser : d.parser = c.parser
  captures : d.captures.length = c.captures.length
  bounds : ∀ k ∈ opened, 0 < k ∧ k ≤ c.captures.length
  stacked : Stacked (lookup c.captures) opened c.state c.stored d.state d.stored

variable {c c' : Parse RegExpBuilder} {d : Parse ProductionBuilder}

/-- What a step leads to in the one parser and in the other. -/
inductive Steps : RegExpTree ⊕ Parse RegExpBuilder → RegExpTree ⊕ Parse ProductionBuilder → Prop where
  | tree {t p : RegExpTree} {closed : Closed} (h : Refines (fun _ => none) closed [] t p) :
      Steps (.inl t) (.inl p)
  | parse {c : Parse RegExpBuilder} {d : Parse ProductionBuilder} {opened : List Nat}
      (h : Related c d opened) : Steps (.inr c) (.inr d)

/-- An atom and its quantifier are added to both. -/
theorem addTerm_steps {atom atom' : Atom} {r : RegExpTree ⊕ Parse RegExpBuilder}
    (hparser : d.parser = c.parser) (hcaps : d.captures.length = c.captures.length)
    (hbds : ∀ k ∈ opened, 0 < k ∧ k ≤ c.captures.length)
    (hstack : Stacked closed opened c.state c.stored d.state d.stored)
    (hatom : Refines closed (lookup c.captures) opened (atom.kept (lookup c.captures)) atom'.toTree)
    (h : c.addTerm builderActions atom = .ok r) :
    ∃ r', d.addTerm productionActions atom' = .ok r' ∧ Steps r r' := by
  cases hscan : scanQuantifier c.parser with
  | error e => simp [Parse.addTerm, hscan, bind, Except.bind] at h
  | ok scanned =>
    obtain ⟨quantifier, parser⟩ := scanned
    obtain ⟨b, hb, hadds⟩ := addTerm_adds (lookup c.captures) hstack.pending atom quantifier
    have hterm := hatom.built (scanQuantifier_bounds hscan)
    simp only [Parse.addTerm, hscan, hb, bind, Except.bind, pure, Except.pure] at h
    obtain rfl := Except.ok.inj h
    have hadd : d.addTerm productionActions atom' = .ok (.inr { d with
        parser := parser
        state := { d.state with
          builder := { d.state.builder with
            terms := d.state.builder.terms ++ [atom'.term quantifier] } } }) := by
      rw [Parse.addTerm, hparser, hscan]
      rfl
    have hbuilds := hstack.update fun _ hbuilds => hbuilds.addTerm hterm hadds
    exact ⟨_, hadd, .parse ⟨rfl, hcaps, hbds, hbuilds⟩⟩

theorem Related.builds (h : Related c d opened) (parser : RegExpParser) {b : RegExpBuilder}
    {b' : ProductionBuilder}
    (hb : ∀ closed₀, Builds closed₀ (lookup c.captures) opened c.state.builder d.state.builder →
      Builds closed₀ (lookup c.captures) opened b b') :
    Related { c with parser := parser, state := { c.state with builder := b } }
      { d with parser := parser, state := { d.state with builder := b' } } opened :=
  ⟨rfl, h.captures, h.bounds, h.stacked.update hb⟩

/-- A group begins. -/
theorem Related.openGroup (h : Related c d opened) (type : SubexpressionType) :
    ∃ opened', Related (c.openGroup builderActions type) (d.openGroup productionActions type) opened' := by
  have hlook : lookup (c.openGroup builderActions type).captures = lookup c.captures := by
    rw [Parse.openGroup]
    split
    · exact lookup_append c.captures
    · rfl
  have hlen : (d.openGroup productionActions type).captures.length =
      (c.openGroup builderActions type).captures.length := by
    simp only [Parse.openGroup]
    split <;> simp [h.captures]
  have hnew : type = .capture → (c.openGroup builderActions type).state.captureIndex =
      c.captures.length + 1 := by
    intro htype
    simp [Parse.openGroup, htype]
  have hle : c.captures.length ≤ (c.openGroup builderActions type).captures.length := by
    simp only [Parse.openGroup]
    split <;> simp
  have hopen : ∀ k ∈ (c.openGroup builderActions type).state.openIn opened,
      (0 < k ∧ k ≤ (c.openGroup builderActions type).captures.length) ∧ lookup c.captures k = none := by
    intro k hk
    obtain ⟨htype, rfl⟩ | hk := mem_of_mem_openIn hk
    · simp_all [Parse.openGroup, lookup_length]
    · have hbds := h.bounds k hk
      exact ⟨⟨hbds.1, by omega⟩, h.stacked.unclosed k hk⟩
  refine ⟨_, h.parser, hlen, fun k hk => (hopen k hk).1, ?_⟩
  rw [hlook]
  apply Stacked.group (Builds.new fun k hk => (hopen k hk).2) rfl hlen _ h.stacked
  intro htype hin
  have hbds := h.bounds _ hin
  rw [hnew htype] at hbds
  omega

/-- The group that is closed is an atom of what is around it. -/
theorem Refines.close {captures : List (Option Nat)} {s : RegExpParserState RegExpBuilder}
    {s' : RegExpParserState ProductionBuilder} {t p : RegExpTree}
    (h : Refines closed (lookup captures) (s.openIn opened) t p)
    (htype : s'.groupType = s.groupType) (hindex : s'.captureIndex = s.captureIndex)
    (hnew : s.groupType = .capture → s.captureIndex ∉ opened)
    (hbds : ∀ k ∈ s.openIn opened, 0 < k ∧ k ≤ captures.length) (n : Nat) :
    Refines closed (lookup (s.closeCapture t captures)) opened (s.close t n) (s'.close p n) := by
  rw [RegExpParserState.openIn] at h hbds
  rw [RegExpParserState.close, RegExpParserState.close, RegExpParserState.closeCapture, htype, hindex]
  cases hs : s.groupType with
  | capture =>
    rw [hs, if_pos rfl] at h hbds
    obtain ⟨hpos, hle⟩ := hbds _ mem_cons_self
    rw [if_pos rfl, lookup_set captures hpos hle]
    exact h.capture (hnew hs)
  | positiveLookahead =>
    rw [hs, if_neg (by decide)] at h
    exact h.lookahead true _ _
  | negativeLookahead =>
    rw [hs, if_neg (by decide)] at h
    exact h.lookahead false _ _
  | _ =>
    rw [hs, if_neg (by decide)] at h
    exact h

/-- What one parser accepts, the other one does, with the same tokens. -/
theorem step_steps (h : Related c d opened) {r : RegExpTree ⊕ Parse RegExpBuilder}
    (hstep : c.step builderActions = .ok r) :
    ∃ r', d.step productionActions = .ok r' ∧ Steps r r' := by
  obtain ⟨p, captures, s, stored⟩ := c
  obtain ⟨p', captures', s', stored'⟩ := d
  obtain ⟨hparser, hcaps, hbds, hstack⟩ := h
  dsimp only at hparser hcaps hbds hstack
  subst hparser
  cases hscan : scan captures.length p' with
  | error e => simp [Parse.step, hscan, bind, Except.bind] at hstep
  | ok scanned =>
    obtain ⟨token, parser⟩ := scanned
    simp only [Parse.step, hcaps, hscan, bind, Except.bind, pure, Except.pure] at hstep ⊢
    have hunclosed := hstack.unclosed
    have hrel : Related ⟨parser, captures, s, stored⟩ ⟨parser, captures', s', stored'⟩ opened :=
      ⟨rfl, hcaps, hbds, hstack⟩
    cases token with
    | endMarker =>
      cases hstack with
      | pattern hbuilds =>
        obtain rfl := Except.ok.inj hstep
        exact ⟨_, rfl, .tree hbuilds.toRegExp⟩
      | group => cases hstep
    | close =>
      cases hstack with
      | pattern => cases hstep
      | group hbuilds htype hindex hnew hstack =>
        have hclose := hbuilds.toRegExp.close htype hindex hnew hbds captures.length
        refine addTerm_steps rfl ?_ ?_ hstack hclose hstep
        · rw [closeCapture_length, closeCapture_length, hcaps]
        · rw [closeCapture_length]
          exact fun k hk => hbds k (mem_openIn s hk)
    | bar =>
      obtain rfl := Except.ok.inj hstep
      exact ⟨_, rfl, .parse (hrel.builds parser fun _ hbuilds => hbuilds.newAlternative)⟩
    | assertion type =>
      obtain rfl := Except.ok.inj hstep
      exact ⟨_, rfl, .parse (hrel.builds parser fun _ hbuilds => hbuilds.addAssertion type)⟩
    | group type =>
      dsimp only at hstep ⊢
      split at hstep
      · cases hstep
      · next hmax =>
        obtain rfl := Except.ok.inj hstep
        obtain ⟨opened', hopen⟩ := hrel.openGroup type
        rw [if_neg hmax]
        exact ⟨_, rfl, .parse hopen⟩
    | character c =>
      exact addTerm_steps rfl hcaps hbds hstack (.text _ hunclosed) hstep
    | charClass element =>
      exact addTerm_steps rfl hcaps hbds hstack (.text _ hunclosed) hstep
    | backReference index =>
      apply addTerm_steps rfl hcaps hbds hstack _ hstep
      rw [Atom.kept, Atom.toTree]
      split
      · next hnone => exact .empty (Option.isNone_iff_eq_none.1 hnone) hunclosed
      · next hsome => exact .backReference (fun h => hsome (Option.isNone_iff_eq_none.2 h)) hunclosed

end Steps

section Runs

variable {c : Parse RegExpBuilder} {d : Parse ProductionBuilder}

theorem run_refines (fuel : Nat) (h : Related c d opened) {t : RegExpTree}
    (hrun : c.run builderActions fuel = .ok t) :
    ∃ p closed, d.run productionActions fuel = .ok p ∧ Refines (fun _ => none) closed [] t p := by
  induction fuel generalizing c d opened with
  | zero => cases hrun
  | succ fuel ih =>
    cases hstep : c.step builderActions with
    | error e => simp [Parse.run, hstep, bind, Except.bind] at hrun
    | ok r =>
      obtain ⟨r', hstep', hsteps⟩ := step_steps h hstep
      simp only [Parse.run, hstep, hstep', bind, Except.bind, pure, Except.pure] at hrun ⊢
      cases hsteps with
      | tree href =>
        grind
      | parse hrel => exact ih hrel hrun

theorem new_related (input : List Nat) (multiline : Bool) :
    Related (Parse.new builderActions input multiline) (Parse.new productionActions input multiline) [] := by
  refine ⟨rfl, rfl, nofun, ?_⟩
  apply Stacked.pattern
  show Builds _ (lookup []) _ _ _
  rw [lookup_nil]
  exact .new nofun

/-- At the start no capture is defined. -/
theorem valid_start (start : Nat) : Valid (fun _ => none) [] ⟨start, fun _ => -1⟩ :=
  ⟨fun _ _ => rfl, fun _ _ _ => rfl, nofun⟩

/-- The tree of a pattern has the first match of its parse tree, with the same captures. -/
theorem parseDisjunction_preserves (fuel : Nat) (input : List Nat) (multiline : Bool)
    {t : RegExpTree} (h : parseDisjunction fuel input multiline = .ok t) :
    ∃ p, parseTree fuel input multiline = .ok p ∧ ∀ env start,
      (t.matcher env ⟨start, fun _ => -1⟩).head? = (p.matcher env ⟨start, fun _ => -1⟩).head? := by
  obtain ⟨p, closed, hparse, hrefines⟩ := run_refines fuel (new_related input multiline) h
  exact ⟨p, hparse, fun env start => (hrefines.same env _ (valid_start start)).head?⟩

/-- The characters of `(?:\2(a)(b))*`, where the reference always comes before its group. -/
def forwardReference : List Nat := [40, 63, 58, 92, 50, 40, 97, 41, 40, 98, 41, 41, 42]

/-- The reference is left out. -/
theorem parseDisjunction_preserves_forwardReference :
    ∃ p, parseTree 20 forwardReference false = .ok p ∧ ∀ env start,
      ((RegExpTree.quantifier (.alternative (.cons (.capture (.text [.atom [97]]) 1)
        (.cons (.capture (.text [.atom [98]]) 2) .nil))) 0 kInfinity true).matcher env
          ⟨start, fun _ => -1⟩).head? = (p.matcher env ⟨start, fun _ => -1⟩).head? :=
  parseDisjunction_preserves 20 forwardReference false rfl

end Runs

end W16.RegExps
