import W16.RegExpRefines

/-!
# Terms in the place of others

Refinement through each production of the grammar. A quantified term that matches only the empty
string is left out or matched once.
-/
namespace W16.RegExps

open Preferences List Function

set_option linter.dupNamespace false

variable {env : Env} {x y : State} {closed closed' closed'' : Closed} {opened : List Nat}
  {t p : RegExpTree} {ts ps : List RegExpTree}

section Lists

theorem sequence_append (env : Env) (ts ts' : List RegExpTree) (x : State) :
    (RegExpTrees.ofList (ts ++ ts')).sequence env x =
      ((RegExpTrees.ofList ts).sequence env x).flatMap ((RegExpTrees.ofList ts').sequence env) := by
  induction ts generalizing x with
  | nil => exact (flatMap_singleton _ _).symm
  | cons t ts ih =>
    rw [cons_append, RegExpTrees.ofList, RegExpTrees.ofList, RegExpTrees.sequence,
      RegExpTrees.sequence, flatMap_assoc]
    exact flatMap_congr fun y _ => ih y

theorem sequence_singleton (env : Env) (t : RegExpTree) (x : State) :
    (RegExpTrees.ofList [t]).sequence env x = t.matcher env x :=
  flatMap_singleton' _

theorem alternatives_append (env : Env) (ts ts' : List RegExpTree) (x : State) :
    (RegExpTrees.ofList (ts ++ ts')).alternatives env x = (RegExpTrees.ofList ts).alternatives env x ++
        (RegExpTrees.ofList ts').alternatives env x := by
  induction ts with
  | nil => rfl
  | cons t ts ih => simp only [cons_append, RegExpTrees.ofList, RegExpTrees.alternatives, ih,
      append_assoc]

theorem alternatives_singleton (env : Env) (t : RegExpTree) (x : State) :
    (RegExpTrees.ofList [t]).alternatives env x = t.matcher env x := append_nil _

theorem captures_append (ts ts' : List RegExpTree) : (RegExpTrees.ofList (ts ++ ts')).captures =
      (RegExpTrees.ofList ts).captures ++ (RegExpTrees.ofList ts').captures := by
  induction ts with
  | nil => rfl
  | cons t ts ih =>
    simp [RegExpTrees.ofList, RegExpTrees.captures, ih]

theorem captures_singleton (t : RegExpTree) : (RegExpTrees.ofList [t]).captures = t.captures :=
  append_nil _

theorem addMaxMatch_eq_zero {m n : Nat} : addMaxMatch m n = 0 ↔ m = 0 ∧ n = 0 := by
  rw [addMaxMatch, kInfinity]
  split <;> omega

theorem sumMaxMatch_eq_zero (closed : Closed) (ts : List RegExpTree) (m : Nat) :
    (RegExpTrees.ofList ts).sumMaxMatch closed m = 0 ↔ m = 0 ∧ ∀ t ∈ ts, t.maxMatch closed = 0 := by
  induction ts generalizing m with
  | nil => simp [RegExpTrees.ofList, RegExpTrees.sumMaxMatch]
  | cons t ts ih =>
    simp only [RegExpTrees.ofList, RegExpTrees.sumMaxMatch, ih, addMaxMatch_eq_zero,
      forall_mem_cons, and_assoc]

theorem greatestMaxMatch_eq_zero (closed : Closed) (ts : List RegExpTree) (m : Nat) :
    (RegExpTrees.ofList ts).greatestMaxMatch closed m = 0 ↔ m = 0 ∧ ∀ t ∈ ts, t.maxMatch closed = 0 := by
  induction ts generalizing m with
  | nil => simp [RegExpTrees.ofList, RegExpTrees.greatestMaxMatch]
  | cons t ts ih =>
    simp [RegExpTrees.ofList, RegExpTrees.greatestMaxMatch, and_assoc, ih]

end Lists

section Productions

variable {k : Nat}

/-- The captures closed from one point to a third one through a second one. -/
theorem closed_trans {captures captures' : List Nat} (hext : Extends closed closed')
    (hext' : Extends closed' closed'') (h : k ∈ captures ↔ closed k = none ∧ closed' k ≠ none)
    (h' : k ∈ captures' ↔ closed' k = none ∧ closed'' k ≠ none) :
    k ∈ captures ++ captures' ↔ closed k = none ∧ closed'' k ≠ none := by
  rw [mem_append, h, h']
  cases hk : closed k with
  | some m => simp [hext k m hk]
  | none =>
    cases hk' : closed' k with
    | none => simp
    | some m => simp [hext' k m hk']

theorem Refines.noTerms (hopen : ∀ k ∈ opened, closed k = none) :
    Refines closed closed opened (.alternative (.ofList [])) (.alternative (.ofList [])) := by
  apply Refines.self rfl hopen
  intro _ _ _ env x _ y hy
  rw [mem_singleton.1 hy]

theorem Refines.noAlternatives (hopen : ∀ k ∈ opened, closed k = none) :
    Refines closed closed opened (.disjunction (.ofList [])) (.disjunction (.ofList [])) :=
  Refines.self rfl hopen fun _ _ _ _ _ _ _ h => nomatch h

/-- A term more in an alternative. -/
theorem Refines.addTerm
    (h : Refines closed closed' opened (.alternative (.ofList ts)) (.alternative (.ofList ps)))
    (h' : Refines closed' closed'' opened t p) :
    Refines closed closed'' opened (.alternative (.ofList (ts ++ [t])))
      (.alternative (.ofList (ps ++ [p]))) where
  captures k := by
    rw [RegExpTree.captures, captures_append, captures_singleton]
    exact closed_trans h.extend h'.extend (h.captures k) (h'.captures k)
  extend := h.extend.trans h'.extend
  unclosed := h'.unclosed
  kept k hk := by
    rw [RegExpTree.captures, captures_append, captures_singleton, mem_append] at hk ⊢
    exact hk.imp (h.kept k) (h'.kept k)
  same env x hx := by
    simp only [RegExpTree.matcher, sequence_append]
    apply (h.same env x hx).flatMap
    intro y hy
    rw [sequence_singleton, sequence_singleton]
    exact h'.same env y (h.valid env x hx y hy)
  valid env x hx z hz := by
    simp only [RegExpTree.matcher, sequence_append] at hz
    obtain ⟨y, hy, hz⟩ := mem_flatMap.1 hz
    rw [sequence_singleton] at hz
    exact h'.valid env y (h.valid env x hx y hy) z hz
  zero closed₁ hext hzero env x hx z hz := by
    simp only [RegExpTree.matcher, sequence_append] at hz
    obtain ⟨y, hy, hz⟩ := mem_flatMap.1 hz
    rw [sequence_singleton] at hz
    simp only [RegExpTree.maxMatch, sumMaxMatch_eq_zero, forall_mem_append,
      forall_mem_singleton] at hzero
    have hfirst := h.zero closed₁ (h'.extend.trans hext)
      (by simpa [RegExpTree.maxMatch, sumMaxMatch_eq_zero] using hzero.2.1) env x hx y hy
    have hlast := h'.zero closed₁ hext hzero.2.2 env y (h.valid env x hx y hy) z hz
    rw [hlast, hfirst]

/-- An alternative more in a disjunction. -/
theorem Refines.addAlternative
    (h : Refines closed closed' opened (.disjunction (.ofList ts)) (.disjunction (.ofList ps)))
    (h' : Refines closed' closed'' opened t p) :
    Refines closed closed'' opened (.disjunction (.ofList (ts ++ [t])))
      (.disjunction (.ofList (ps ++ [p]))) where
  captures k := by
    rw [RegExpTree.captures, captures_append, captures_singleton]
    exact closed_trans h.extend h'.extend (h.captures k) (h'.captures k)
  extend := h.extend.trans h'.extend
  unclosed := h'.unclosed
  kept k hk := by
    rw [RegExpTree.captures, captures_append, captures_singleton, mem_append] at hk ⊢
    exact hk.imp (h.kept k) (h'.kept k)
  same env x hx := by
    have hx' := hx.mono h.extend fun k hk => h.unclosed k hk
    simp only [RegExpTree.matcher, alternatives_append, alternatives_singleton]
    exact (h.same env x hx).append (h'.same env x hx')
  valid env x hx y hy := by
    have hx' := hx.mono h.extend fun k hk => h.unclosed k hk
    simp only [RegExpTree.matcher, alternatives_append, alternatives_singleton] at hy
    obtain hy | hy := mem_append.1 hy
    · exact (h.valid env x hx y hy).mono h'.extend h'.unclosed
    · exact h'.valid env x hx' y hy
  zero closed₁ hext hzero env x hx y hy := by
    have hx' := hx.mono h.extend fun k hk => h.unclosed k hk
    simp only [RegExpTree.matcher, alternatives_append, alternatives_singleton] at hy
    simp only [RegExpTree.maxMatch, greatestMaxMatch_eq_zero, forall_mem_append,
      forall_mem_singleton] at hzero
    obtain hy | hy := mem_append.1 hy
    · exact h.zero closed₁ (h'.extend.trans hext)
        (by simpa [RegExpTree.maxMatch, greatestMaxMatch_eq_zero] using hzero.2.1) env x hx y hy
    · exact h'.zero closed₁ hext hzero.2.2 env x hx' y hy

theorem endRegister_ne_startRegister (j k : Nat) : endRegister j ≠ startRegister k := by
  rw [endRegister, startRegister]
  omega

theorem startRegister_inj {j : Nat} (h : j ≠ k) : startRegister j ≠ startRegister k := by
  rw [startRegister, startRegister]
  omega

theorem endRegister_inj {j : Nat} (h : j ≠ k) : endRegister j ≠ endRegister k := by
  rw [endRegister, endRegister]
  omega

/-- At the beginning of a group. -/
theorem Valid.write_start (hx : Valid closed opened x) (hk : closed k = none) (v : Int) :
    Valid closed (k :: opened) (x.write (startRegister k) v) := by
  have hend : ∀ j, (x.write (startRegister k) v).registers (endRegister j) =
      x.registers (endRegister j) := fun j => write_other _ _ (endRegister_ne_startRegister j k)
  have hstart : ∀ j, j ≠ k → (x.write (startRegister k) v).registers (startRegister j) =
      x.registers (startRegister j) := fun j hj => write_other _ _ (startRegister_inj hj)
  constructor
  · intro j hj
    rw [hend, hx.endUndefined j hj]
  · intro j hj hin
    rw [mem_cons, not_or] at hin
    rw [hstart j hin.1, hx.startUndefined j hj hin.2]
  · intro j hj
    have hne : j ≠ k := by
      rintro rfl
      rw [hk] at hj
      cases hj
    rw [hend, hstart j hne, hx.empty j hj]

/-- At the end of a group. -/
theorem Valid.write_end {m : Nat} {v : Int} (hy : Valid closed (k :: opened) y)
    (hm : m = 0 → v = y.registers (startRegister k)) :
    Valid (Function.update closed k (some m)) opened (y.write (endRegister k) v) := by
  have hstart : ∀ j, (y.write (endRegister k) v).registers (startRegister j) = y.registers (startRegister j) :=
    fun j => write_other _ _ (endRegister_ne_startRegister k j).symm
  have hend : ∀ j, j ≠ k → (y.write (endRegister k) v).registers (endRegister j) =
      y.registers (endRegister j) := fun j hj => write_other _ _ (endRegister_inj hj)
  constructor
  · intro j hj
    have hne : j ≠ k := fun heq => by simp [heq] at hj
    rw [update_of_ne hne] at hj
    rw [hend j hne, hy.endUndefined j hj]
  · intro j hj hin
    have hne : j ≠ k := fun heq => by simp [heq] at hj
    rw [update_of_ne hne] at hj
    rw [hstart, hy.startUndefined j hj (by simp [hne, hin])]
  · intro j hj
    rw [hstart]
    by_cases heq : j = k
    · subst heq
      rw [update_self] at hj
      exact (write_same _ _ _).trans (hm (Option.some.inj hj))
    · rw [update_of_ne heq] at hj
      rw [hend j heq, hy.empty j hj]

theorem extends_update (hk : closed k = none) (m : Nat) :
    Extends closed (Function.update closed k (some m)) := by
  intro j n hj
  grind

/-- The group is closed at the end of its body, with the maximum length of the body. -/
theorem Refines.capture (h : Refines closed closed' (k :: opened) t p) (hk : k ∉ opened) :
    Refines closed (Function.update closed' k (some (t.maxMatch closed'))) opened (.capture t k)
      (.capture p k) := by
  have hclos' : closed' k = none := h.unclosed k mem_cons_self
  have hclos : closed k = none := h.extend.none_of_none hclos'
  have hext := extends_update hclos' (t.maxMatch closed')
  constructor
  · intro j
    by_cases hj : j = k
    · subst hj
      simp [RegExpTree.captures, hclos]
    · rw [update_of_ne hj, ← h.captures j, RegExpTree.captures, mem_cons]
      exact or_iff_right hj
  · exact h.extend.trans hext
  · intro j hj
    have hne : j ≠ k := fun heq => hk (heq ▸ hj)
    rw [update_of_ne hne]
    exact h.unclosed j (mem_cons_of_mem k hj)
  · intro j hj
    rw [RegExpTree.captures, mem_cons] at hj ⊢
    exact hj.imp_right (h.kept j)
  · intro env x hx
    exact (h.same env _ (hx.write_start hclos _)).map _
  · intro env x hx z hz
    obtain ⟨y, hy, rfl⟩ := mem_map.1 hz
    have hx' := hx.write_start hclos x.position
    apply (h.valid env _ hx' y hy).write_end
    intro hzero
    have hout : k ∉ t.captures := fun hin => ((h.captures k).1 (h.kept k hin)).2 hclos'
    have hframe := t.frame env _ y hy (startRegister k) (by
      rw [startRegister, Nat.mul_div_cancel k (by decide)]
      exact hout)
    rw [h.zero closed' (.refl closed') hzero env _ hx' y hy, hframe]
    exact (write_same _ _ _).symm
  · intro closed'' hext' hzero env x hx z hz
    obtain ⟨y, hy, rfl⟩ := mem_map.1 hz
    exact h.zero closed'' (hext.trans hext') hzero env _ (hx.write_start hclos _) y hy

theorem lookahead_matcher (env : Env) (t : RegExpTree) (isPositive : Bool) (n from_ : Nat)
    (x : State) : (RegExpTree.lookahead t isPositive n from_).matcher env x = match (t.matcher env x).head? with
      | none => if isPositive then [] else [x]
      | some y => if isPositive then [y.moveTo x.position] else [] := by
  simp only [RegExpTree.matcher]
  cases t.matcher env x <;> rfl

theorem Refines.lookahead (h : Refines closed closed' opened t p) (isPositive : Bool) (n from_ : Nat) :
    Refines closed closed' opened (.lookahead t isPositive n from_) (.lookahead p isPositive n from_) where
  captures := h.captures
  extend := h.extend
  unclosed := h.unclosed
  kept := h.kept
  same env x hx := by
    rw [lookahead_matcher, lookahead_matcher, (h.same env x hx).head?]
    exact .refl _
  valid env x hx y hy := by
    have hbody := h.valid env x hx
    cases hm : t.matcher env x with
    | nil =>
      cases isPositive <;> simp [RegExpTree.matcher, hm] at hy
      rw [hy]
      exact hx.mono h.extend h.unclosed
    | cons z zs =>
      cases isPositive <;> simp [RegExpTree.matcher, hm] at hy
      rw [hy]
      exact (hbody z (by simp [hm])).of_registers fun _ => rfl
  zero _ _ _ env x _ y hy := by
    cases hm : t.matcher env x with
    | nil =>
      cases isPositive <;> simp [RegExpTree.matcher, hm] at hy
      rw [hy]
    | cons z zs =>
      cases isPositive <;> simp [RegExpTree.matcher, hm] at hy
      rw [hy]
      rfl

end Productions

section Quantifiers

/-- Where a tree begins, its captures are undefined. -/
theorem Refines.clear_start (h : Refines closed closed' opened t p) (hx : Valid closed opened x)
    {captures : List Nat} (hcaps : ∀ k ∈ captures, k ∈ p.captures) :
    clearCaptures captures x = x := by
  apply clearCaptures_eq_self
  intro k hk
  obtain ⟨hclos, hclos'⟩ := (h.captures k).1 (hcaps k hk)
  exact ⟨hx.startUndefined k hclos fun hin => hclos' (h.unclosed k hin), hx.endUndefined k hclos⟩

/-- The captures that are only in the other tree are undefined already. -/
theorem Refines.clear_eq (h : Refines closed closed' opened t p)
    (hx : Valid closed opened (clearCaptures t.captures x)) :
    clearCaptures p.captures x = clearCaptures t.captures x := by
  rw [← h.clear_start hx fun _ hk => hk, State.ext_iff]
  refine ⟨rfl, fun r => ?_⟩
  by_cases hr : r / 2 ∈ p.captures
  · exact (if_pos hr).trans (if_pos hr).symm
  · exact (if_neg hr).trans ((if_neg hr).trans (if_neg fun hin => hr (h.kept _ hin))).symm

/-- Between two iterations the registers are as they were before. -/
theorem Refines.clear_result (h : Refines closed closed' opened t p) (hx : Valid closed opened x)
    (hy : y ∈ t.matcher env x) (r : Nat) :
    (clearCaptures t.captures y).registers r = x.registers r := by
  by_cases hr : r / 2 ∈ t.captures
  · have hundef : x.registers r = -1 := by
      rw [← h.clear_start hx h.kept]
      exact if_pos hr
    exact (if_pos hr).trans hundef.symm
  · exact (if_neg hr).trans (t.frame env x y hy r hr)

theorem Refines.clear_valid (h : Refines closed closed' opened t p) (hx : Valid closed opened x)
    (hy : y ∈ t.matcher env x) : Valid closed opened (clearCaptures t.captures y) :=
  hx.of_registers (h.clear_result hx hy)

/-- Each iteration begins in a state that the tree can begin in. -/
theorem Refines.quantifier (h : Refines closed closed' opened t p) (min max : Nat) (isGreedy : Bool) :
    Refines closed closed' opened (.quantifier t min max isGreedy) (.quantifier p min max isGreedy) := by
  let I : State → Prop := fun y =>
    Valid closed' opened y ∧ Valid closed opened (clearCaptures t.captures y)
  have hstart : ∀ x, Valid closed opened x → I x := by
    intro x hx
    refine ⟨hx.mono h.extend h.unclosed, ?_⟩
    rwa [h.clear_start hx h.kept]
  have hstep : ∀ env x, I x → ∀ y ∈ t.matcher env (clearCaptures t.captures x), I y :=
    fun env x hx y hy => ⟨h.valid env _ hx.2 y hy, h.clear_valid hx.2 hy⟩
  constructor
  · exact h.captures
  · exact h.extend
  · exact h.unclosed
  · exact h.kept
  · intro env x hx
    exact repeatFrom_same (fun x hx => h.clear_eq hx.2) (fun x hx => h.same env _ hx.2)
      (hstep env) _ _ _ x (hstart x hx)
  · intro env x hx y hy
    exact (repeatFrom_invariant (hstep env) _ _ _ x (hstart x hx) y hy).1
  · intro closed'' hext hzero env x hx y hy
    by_cases hmax : max = 0
    · subst hmax
      rw [mem_singleton.1 hy]
    · have hbody : t.maxMatch closed'' = 0 := by
        rw [RegExpTree.maxMatch] at hzero
        split at hzero
        · cases hzero
        · exact (Nat.mul_eq_zero.1 hzero).resolve_left hmax
      refine (repeatFrom_invariant (I := fun y => I y ∧ y.position = x.position)
        (fun y hy z hz => ⟨hstep env y hy.1 z hz, ?_⟩) _ _ _ x ⟨hstart x hx, rfl⟩ y hy).2
      rw [h.zero closed'' hext hbody env _ hy.1.2 z hz]
      exact hy.2

/-- A term that matches only the empty string, with no iteration that is needed. -/
theorem Refines.dropped (h : Refines closed closed' opened t p) (hzero : t.maxMatch closed' = 0)
    (max : Nat) (isGreedy : Bool) :
    Refines closed closed' opened .empty (.quantifier p 0 max isGreedy) where
  captures := h.captures
  extend := h.extend
  unclosed := h.unclosed
  kept k hk := absurd hk not_mem_nil
  same env x hx := by
    apply Same.symm
    apply Same.of_eq
    apply repeatFrom_zero
    intro y hy
    rw [h.clear_start hx fun _ hk => hk] at hy
    exact h.zero closed' (.refl closed') hzero env x hx y ((h.same env x hx).mem_iff.2 hy)
  valid env x hx y hy := by
    rw [mem_singleton.1 hy]
    exact hx.mono h.extend h.unclosed
  zero _ _ _ env x _ y hy := by rw [mem_singleton.1 hy]

/-- A term that matches only the empty string does the same in each iteration. -/
theorem Refines.once (h : Refines closed closed' opened t p) (hzero : t.maxMatch closed' = 0)
    {min max : Nat} (hmin : min ≠ 0) (hmax : min ≤ max) (isGreedy : Bool) :
    Refines closed closed' opened t (.quantifier p min max isGreedy) where
  captures := h.captures
  extend := h.extend
  unclosed := h.unclosed
  kept := h.kept
  same env x hx := by
    obtain ⟨min, rfl⟩ := Nat.exists_eq_succ_of_ne_zero hmin
    have hclear := h.clear_start hx fun _ hk => hk
    have hposition : ∀ y ∈ p.matcher env (clearCaptures p.captures x), y.position = x.position := by
      intro y hy
      rw [hclear] at hy
      exact h.zero closed' (.refl closed') hzero env x hx y ((h.same env x hx).mem_iff.2 hy)
    have hagain : ∀ y ∈ p.matcher env (clearCaptures p.captures x),
        clearCaptures p.captures y = clearCaptures p.captures x := by
      intro y hy
      have hpos := hposition y hy
      rw [hclear] at hy ⊢
      have hmem := (h.same env x hx).mem_iff.2 hy
      rw [h.clear_eq (h.clear_valid hx hmem), State.ext_iff]
      exact ⟨hpos, h.clear_result hx hmem⟩
    have hmaxOf : ∀ n, maxOf max = some n → min < n := by
      intro n hn
      rw [maxOf] at hn
      grind
    have honce : Same (repeatFrom (p.matcher env) (clearCaptures p.captures) isGreedy
        (min + 1 + (env.subject.length - x.position) + 1) (min + 1) (maxOf max) x)
        (p.matcher env (clearCaptures p.captures x)) :=
      repeatFrom_once hagain hposition min _ _ x (by omega) hmaxOf rfl rfl
    rw [hclear] at honce
    exact (h.same env x hx).trans honce.symm
  valid := h.valid
  zero := h.zero

end Quantifiers

end W16.RegExps
