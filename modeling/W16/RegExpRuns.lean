import W16.RegExpMatcher

/-!
# Runs that lead to a node

The runs of a part of the nodes, from the runs of the node that comes after it. A run has one
result only.
-/
namespace W16.RegExps

open List

set_option linter.dupNamespace false

/-! ## One result -/

section Goes

variable (nodes : List Node) (env : Env)

/-- What a run of a node is, by the runs of the next one. -/
def Node.Goes (s : State) (r : Result) : Node → Prop
  | .text elements k => match env.matchText elements s.position with
    | some position => Run nodes env (.node k) (s.moveTo position) r
    | none => r = .fail
  | .action (.beginSubmatch reg positionRegister) k =>
    ∃ r', Run nodes env (.node k) (s.write positionRegister s.position) r' ∧ r = r'.uncommit reg
  | .action (.positiveSubmatchSuccess reg positionRegister _ _) k =>
    ∃ r', Run nodes env (.node k) (s.moveTo (s.registers positionRegister).toNat) r' ∧ r = r'.commit reg
  | .action type k => match type.perform s with
    | some s' => Run nodes env (.node k) s' r
    | none => r = .fail
  | .assertion type k =>
    if env.asserts s.position type = true then Run nodes env (.node k) s r else r = .fail
  | .backReference startRegister endRegister k =>
    match env.matchBackReference s startRegister endRegister with
    | some position => Run nodes env (.node k) (s.moveTo position) r
    | none => r = .fail
  | .endNode .accept => r = ⟨[s], none⟩
  | .endNode .backtrack => r = .fail
  | .endNode (.negativeSubmatchSuccess reg _ _ _) => r = Result.fail.commit reg
  | .choice _ alternatives _ => Run nodes env (.tries alternatives) s r

variable {nodes env} {n : Nat} {s : State} {r r' : Result} {node : Node}

theorem goes_action {type : ActionType} {k : Nat} (hsub : type.isSubmatch = false) :
    (Node.action type k).Goes nodes env s r ↔ match type.perform s with
      | some s' => Run nodes env (.node k) s' r
      | none => r = .fail := by
  cases type <;> first | exact Iff.rfl | cases hsub

theorem isSubmatch_of_perform {type : ActionType} {s s' : State} (h : type.perform s = some s') :
    type.isSubmatch = false := by
  cases type <;> first | rfl | cases h

theorem Run.goes (h : Run nodes env (.node n) s r) (hn : nodes[n]? = some node) : node.Goes nodes env s r := by
  cases h with
  | accept hn' => cases hn.symm.trans hn'; rfl
  | backtrack hn' => cases hn.symm.trans hn'; rfl
  | negativeSubmatchSuccess hn' => cases hn.symm.trans hn'; rfl
  | text hn' hmatch hrun =>
    grind -linarith [Node.Goes]
  | textFails hn' hmatch =>
    cases hn.symm.trans hn'
    simp only [Node.Goes, hmatch]
  | action hn' hperf hrun =>
    grind -linarith [goes_action, isSubmatch_of_perform]
  | actionFails hn' hsub hperf =>
    grind -linarith [goes_action]
  | beginSubmatch hn' hrun => cases hn.symm.trans hn'; exact ⟨_, hrun, rfl⟩
  | positiveSubmatchSuccess hn' hrun => cases hn.symm.trans hn'; exact ⟨_, hrun, rfl⟩
  | assertion hn' hholds hrun =>
    cases hn.symm.trans hn'
    exact (if_pos hholds).mpr hrun
  | assertionFails hn' hholds =>
    cases hn.symm.trans hn'
    exact (if_neg (by simp [hholds])).mpr rfl
  | backReference hn' hmatch hrun =>
    grind -linarith [Node.Goes]
  | backReferenceFails hn' hmatch =>
    cases hn.symm.trans hn'
    simp only [Node.Goes, hmatch]
  | choice hn' hrun => cases hn.symm.trans hn'; exact hrun

end Goes

variable {r : Result}

/-- There is nothing left to choose in a run. -/
theorem Run.unique {nodes : List Node} {env : Env} {task : Task} {s : State} {r' : Result}
    (h : Run nodes env task s r) (h' : Run nodes env task s r') : r = r' := by
  induction h generalizing r' with
  | accept hn => exact (h'.goes hn).symm
  | backtrack hn => exact (h'.goes hn).symm
  | negativeSubmatchSuccess hn => exact (h'.goes hn).symm
  | text hn hmatch _ ih =>
    have hgoes := h'.goes hn
    simp only [Node.Goes, hmatch] at hgoes
    exact ih hgoes
  | textFails hn hmatch =>
    have hgoes := h'.goes hn
    simp only [Node.Goes, hmatch] at hgoes
    exact hgoes.symm
  | action hn hperf _ ih =>
    have hgoes := h'.goes hn
    grind -linarith [goes_action, isSubmatch_of_perform]
  | actionFails hn hsub hperf =>
    have hgoes := h'.goes hn
    simp_all [goes_action]
  | beginSubmatch hn _ ih =>
    obtain ⟨r₁, hrun, rfl⟩ := h'.goes hn
    rw [ih hrun]
  | positiveSubmatchSuccess hn _ ih =>
    obtain ⟨r₁, hrun, rfl⟩ := h'.goes hn
    rw [ih hrun]
  | assertion hn hholds _ ih =>
    have hgoes := h'.goes hn
    simp only [Node.Goes, hholds, if_true] at hgoes
    exact ih hgoes
  | assertionFails hn hholds =>
    have hgoes := h'.goes hn
    simp_all [Node.Goes]
  | backReference hn hmatch _ ih =>
    have hgoes := h'.goes hn
    simp only [Node.Goes, hmatch] at hgoes
    exact ih hgoes
  | backReferenceFails hn hmatch =>
    have hgoes := h'.goes hn
    simp only [Node.Goes, hmatch] at hgoes
    exact hgoes.symm
  | choice hn _ ih => exact ih (h'.goes hn)
  | none => cases h'; rfl
  | guarded hguard _ ih =>
    cases h' with
    | guarded _ hrun => exact ih hrun
    | cut hguard' _ _ => cases hguard.symm.trans hguard'
    | next hguard' _ _ _ => cases hguard.symm.trans hguard'
  | cut hguard _ hcut ih =>
    cases h' with
    | guarded hguard' _ => cases hguard.symm.trans hguard'
    | cut _ hrun _ => exact ih hrun
    | next _ hrun hcut' _ =>
      rw [ih hrun, hcut'] at hcut
      cases hcut
  | next hguard _ hcut _ ih ihrest =>
    cases h' with
    | guarded hguard' _ => cases hguard.symm.trans hguard'
    | cut _ hrun hcut' =>
      rw [← ih hrun, hcut] at hcut'
      cases hcut'
    | next _ hrun _ hrest => rw [ih hrun, ihrest hrest]

/-! ## Continuing in several states -/

/-- A node run in each of the states in turn, until a run gives up the others. -/
inductive Collects (nodes : List Node) (env : Env) (k : Nat) : List State → Result → Prop where
  | nil : Collects nodes env k [] .fail
  | cut {y ys r} (hrun : Run nodes env (.node k) y r) (hcut : r.cut.isSome = true) :
      Collects nodes env k (y :: ys) r
  | cons {y ys r r'} (hrun : Run nodes env (.node k) y r) (hcut : r.cut = none)
      (hrest : Collects nodes env k ys r') : Collects nodes env k (y :: ys) (r.append r')

/-- No submatch with a stack pointer register from `lo` to `hi` has been given up. -/
def Outside (lo hi : Nat) (r : Result) : Prop := ∀ reg, r.cut = some reg → reg < lo ∨ hi ≤ reg

theorem Outside.mono {lo hi lo' hi' : Nat} (h : Outside lo' hi' r) (hlo : lo' ≤ lo)
    (hhi : hi ≤ hi') : Outside lo hi r := by
  intro reg hreg
  have hout := h reg hreg
  omega

theorem outside_of_none {lo hi : Nat} (h : r.cut = none) : Outside lo hi r := by
  intro reg hreg
  rw [h] at hreg
  cases hreg

@[simp] theorem Result.append_fail (h : r.cut = none) : r.append .fail = r := by
  cases r
  cases h
  simp [append, fail]

theorem Result.append_assoc (r₁ r₂ r₃ : Result) : (r₁.append r₂).append r₃ = r₁.append (r₂.append r₃) := by
  simp [append]

section Collects

variable {nodes : List Node} {env : Env} {k : Nat}

theorem Collects.append_cases {ys zs : List State} {r : Result} (h : Collects nodes env k (ys ++ zs) r) :
    Collects nodes env k ys r ∧ r.cut.isSome = true ∨
      ∃ r₁ r₂, Collects nodes env k ys r₁ ∧ r₁.cut = none ∧ Collects nodes env k zs r₂ ∧ r = r₁.append r₂ := by
  induction ys generalizing r with
  | nil => exact .inr ⟨.fail, r, .nil, rfl, h, rfl⟩
  | cons y ys ih =>
    cases h with
    | cut hrun hcut => exact .inl ⟨.cut hrun hcut, hcut⟩
    | @cons _ _ r₀ r' hrun hcut hrest =>
      rcases ih hrest with ⟨hys, hsome⟩ | ⟨r₁, r₂, hys, hnone, hzs, rfl⟩
      · exact .inl ⟨.cons hrun hcut hys, hsome⟩
      · exact .inr ⟨r₀.append r₁, r₂, .cons hrun hcut hys, hnone, hzs, (Result.append_assoc r₀ r₁ r₂).symm⟩

theorem collects_single {y : State} {r : Result} :
    Collects nodes env k [y] r ↔ Run nodes env (.node k) y r := by
  constructor
  · intro h
    cases h with
    | cut hrun _ => exact hrun
    | cons hrun hcut hrest =>
      cases hrest
      rwa [Result.append_fail hcut]
  · intro h
    cases hcut : r.cut with
    | none =>
      rw [← Result.append_fail hcut]
      exact .cons h hcut .nil
    | some reg => exact .cut h (by rw [hcut]; rfl)

/-- When the node ends all runs, the states themselves are the result. -/
theorem collects_accept (hk : nodes[k]? = some (.endNode .accept)) (ys : List State) :
    Collects nodes env k ys ⟨ys, none⟩ := by
  induction ys with
  | nil => exact .nil
  | cons y ys ih => exact .cons (.accept hk) rfl ih

end Collects

/-! ## Parts of the nodes -/

section Yields

variable (nodes : List Node) (env : Env) (lo hi k : Nat)

/-- A run of the task is one of the node `k` in each of the states. -/
def Yields (task : Task) (s : State) (ys : List State) : Prop :=
  ∀ r, Outside lo hi r → Collects nodes env k ys r → Run nodes env task s r

/-- From every state the task leads to `k` as the matcher says, up to registers from `lo` to `hi`. -/
def Leads (task : Task) (matcher : State → List State) : Prop :=
  ∀ s, ∃ ys, Forall₂ (Agree lo hi) (matcher s) ys ∧ Yields nodes env lo hi k task s ys

variable {nodes env lo hi k} {s : State} {task : Task}

theorem yields_self : Yields nodes env lo hi k (.node k) s [s] := fun _ _ h => collects_single.1 h

theorem yields_fail (h : Run nodes env task s .fail) : Yields nodes env lo hi k task s [] := by
  intro r _ hr
  cases hr
  exact h

variable {ys zs xs : List State} {alternatives : List GuardedAlternative} {m : State → List State}

/-- A step that keeps the result of the rest. -/
theorem Yields.step {task' : Task} {s' : State} (h : Yields nodes env lo hi k task' s' ys)
    (hstep : ∀ r, Run nodes env task' s' r → Run nodes env task s r) :
    Yields nodes env lo hi k task s ys := fun r hr hys => hstep r (h r hr hys)

theorem Yields.mono {lo' hi' : Nat} (h : Yields nodes env lo hi k task s ys)
    (hlo : lo' ≤ lo) (hhi : hi ≤ hi') : Yields nodes env lo' hi' k task s ys :=
  fun r hr hys => h r (hr.mono hlo hhi) hys

theorem Yields.tries {alternative : GuardedAlternative} (hguard : alternative.guards.all (·.holds s) = true)
    (hys : Yields nodes env lo hi k (.node alternative.node) s ys)
    (hzs : Yields nodes env lo hi k (.tries alternatives) s zs) :
    Yields nodes env lo hi k (.tries (alternative :: alternatives)) s (ys ++ zs) := by
  intro r hr h
  rcases h.append_cases with ⟨h, hsome⟩ | ⟨r₁, r₂, h₁, hnone, h₂, rfl⟩
  · exact .cut hguard (hys r hr h) hsome
  · exact .next hguard (hys r₁ (outside_of_none hnone) h₁) hnone (hzs r₂ hr h₂)

theorem yields_none : Yields nodes env lo hi k (.tries []) s [] := yields_fail .none

theorem Yields.guarded {alternative : GuardedAlternative} (hguard : alternative.guards.all (·.holds s) = false)
    (h : Yields nodes env lo hi k (.tries alternatives) s ys) :
    Yields nodes env lo hi k (.tries (alternative :: alternatives)) s ys :=
  h.step fun _ hrun => .guarded hguard hrun

/-- Two alternatives, each of which counts where its guards hold. -/
theorem yields_two {a a' : GuardedAlternative} {guard guard' : Bool}
    (hguard : a.guards.all (·.holds s) = guard) (hguard' : a'.guards.all (·.holds s) = guard')
    (hys : guard = true → Yields nodes env lo hi k (.node a.node) s ys)
    (hzs : guard' = true → Yields nodes env lo hi k (.node a'.node) s zs) :
    Yields nodes env lo hi k (.tries [a, a']) s ((if guard then ys else []) ++ if guard' then zs else []) := by
  have hlast : Yields nodes env lo hi k (.tries [a']) s (if guard' then zs else []) := by
    cases guard' with
    | false => exact yields_none.guarded hguard'
    | true =>
      have hboth := (hzs rfl).tries hguard' yields_none
      rwa [append_nil] at hboth
  cases guard with
  | false => exact hlast.guarded hguard
  | true => exact (hys rfl).tries hguard hlast

/-- Two parts after each other, from the states between them. -/
theorem yields_flatMap {k₁ : Nat} {g : State → List State} (hys : Forall₂ (Agree lo hi) xs ys)
    (hnext : ∀ x ∈ xs, ∀ y ∈ ys, Agree lo hi x y →
      ∃ zs, Forall₂ (Agree lo hi) (g x) zs ∧ Yields nodes env lo hi k (.node k₁) y zs)
    (h : Yields nodes env lo hi k₁ task s ys) :
    ∃ zs, Forall₂ (Agree lo hi) (xs.flatMap g) zs ∧ Yields nodes env lo hi k task s zs := by
  have hcoll : ∃ zs, Forall₂ (Agree lo hi) (xs.flatMap g) zs ∧
      ∀ r, Outside lo hi r → Collects nodes env k zs r → Collects nodes env k₁ ys r := by
    clear h
    induction hys with
    | nil =>
      refine ⟨[], .nil, fun r _ hr => ?_⟩
      cases hr
      exact .nil
    | @cons x y xs ys hxy _ ih =>
      obtain ⟨zs₁, hzs₁, hyields⟩ := hnext x mem_cons_self y mem_cons_self hxy
      obtain ⟨zs₂, hzs₂, hcoll⟩ := ih fun x hx y hy =>
        hnext x (mem_cons_of_mem _ hx) y (mem_cons_of_mem _ hy)
      refine ⟨zs₁ ++ zs₂, rel_append hzs₁ hzs₂, fun r hr h => ?_⟩
      rcases h.append_cases with ⟨h, hsome⟩ | ⟨r₁, r₂, h₁, hnone, h₂, rfl⟩
      · exact .cut (hyields r hr h) hsome
      · exact .cons (hyields r₁ (outside_of_none hnone) h₁) hnone (hcoll r₂ hr h₂)
  obtain ⟨zs, hzs, hcoll⟩ := hcoll
  exact ⟨zs, hzs, fun r hr hr' => h r hr (hcoll r hr hr')⟩

theorem agree_trans (h : Forall₂ (Agree lo hi) xs ys)
    (h' : Forall₂ (Agree lo hi) ys zs) : Forall₂ (Agree lo hi) xs zs := by
  induction h generalizing zs with
  | nil => exact h'
  | cons hxy _ ih =>
    cases h' with
    | cons hyz hrest => exact .cons (hxy.trans hyz) (ih hrest)

theorem agree_mem (h : Forall₂ (Agree lo hi) xs ys) {y : State}
    (hy : y ∈ ys) : ∃ x ∈ xs, Agree lo hi x y := by
  induction h with
  | nil => cases hy
  | @cons x y' xs ys hxy _ ih =>
    grind

theorem Leads.mono {lo' hi' : Nat} (h : Leads nodes env lo hi k task m)
    (hlo : lo' ≤ lo) (hhi : hi ≤ hi') : Leads nodes env lo' hi' k task m := by
  intro s
  obtain ⟨ys, hys, hyields⟩ := h s
  exact ⟨ys, hys.imp fun _ _ hy => hy.mono hlo hhi, hyields.mono hlo hhi⟩

theorem Leads.congr {m' : State → List State} (h : Leads nodes env lo hi k task m)
    (heq : ∀ s, m' s = m s) : Leads nodes env lo hi k task m' := by
  rwa [funext heq]

theorem leads_self : Leads nodes env lo hi k (.node k) fun s => [s] :=
  fun s => ⟨[s], .cons (.refl lo hi s) .nil, yields_self⟩

/-- A part after which comes another one. -/
theorem Leads.trans {length b k₁ : Nat} {m₁ m₂ : State → List State}
    (h₁ : Leads nodes env lo hi k₁ task m₁) (h₂ : Leads nodes env lo hi k (.node k₁) m₂)
    (hm₂ : Tame length b m₂) (hb : b ≤ lo) :
    Leads nodes env lo hi k task fun s => (m₁ s).flatMap m₂ := by
  intro s
  obtain ⟨ys, hys, hyields⟩ := h₁ s
  refine yields_flatMap hys (fun x _ y _ hxy => ?_) hyields
  obtain ⟨zs, hzs, hyields'⟩ := h₂ y
  exact ⟨zs, agree_trans (hm₂.insensitive lo hi x y hb hxy) hzs, hyields'⟩

/-- A node with at most one way to go on. -/
theorem leads_option {n : Nat} {f : State → Option State} (hgoes : ∀ s, match f s with
      | some s' => ∀ r, Run nodes env (.node k) s' r → Run nodes env (.node n) s r
      | none => Run nodes env (.node n) s .fail) :
    Leads nodes env lo hi k (.node n) fun s => (f s).toList := by
  intro s
  refine ⟨(f s).toList, forall₂_same.2 fun y _ => .refl _ _ y, ?_⟩
  have hrun := hgoes s
  cases hf : f s with
  | none =>
    simp only [hf] at hrun
    exact yields_fail hrun
  | some s' =>
    simp only [hf] at hrun
    exact yields_self.step hrun

theorem leads_none : Leads nodes env lo hi k (.tries []) fun _ => [] :=
  fun _ => ⟨[], .nil, yields_none⟩

theorem Leads.tries {n : Nat} {m₁ m₂ : State → List State}
    (h₁ : Leads nodes env lo hi k (.node n) m₁) (h₂ : Leads nodes env lo hi k (.tries alternatives) m₂) :
    Leads nodes env lo hi k (.tries (⟨n, []⟩ :: alternatives)) fun s => m₁ s ++ m₂ s := by
  intro s
  obtain ⟨ys, hys, hyields⟩ := h₁ s
  obtain ⟨zs, hzs, hyields'⟩ := h₂ s
  exact ⟨ys ++ zs, rel_append hys hzs, hyields.tries rfl hyields'⟩

theorem Leads.choice {n : Nat} {kind : ChoiceKind} {notAtStart : Bool}
    (hn : nodes[n]? = some (.choice kind alternatives notAtStart))
    (h : Leads nodes env lo hi k (.tries alternatives) m) : Leads nodes env lo hi k (.node n) m := by
  intro s
  obtain ⟨ys, hys, hyields⟩ := h s
  exact ⟨ys, hys, hyields.step fun _ hrun => .choice hn hrun⟩

end Yields

end W16.RegExps
