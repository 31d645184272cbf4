import W16.RegExpTree
import Mathlib.Data.List.Forall2

/-!
# Matchers

What a regexp matches, as the states in which it succeeds, in the order of preference. Registers
hold the captures.
-/
namespace W16.RegExps

open List Option

set_option linter.dupNamespace false

/-- Repetition as a continuation sees it: the states in which it is called. After the minimum an
empty match fails. The first argument bounds the number of iterations. -/
def repeatFrom (matcher : State → List State) (clear : State → State) (isGreedy : Bool) :
    Nat → Nat → Option Nat → State → List State
  | 0, _, _, _ => []
  | fuel + 1, min, max, x =>
    if max = some 0 then [x]
    else
      let iterations := (matcher (clear x)).flatMap fun y =>
        if min = 0 ∧ y.position = x.position then []
        else repeatFrom matcher clear isGreedy fuel (min - 1) (max.map (· - 1)) y
      if min ≠ 0 then iterations
      else if isGreedy then iterations ++ [x] else x :: iterations

/-- `RepeatMatcher`. Every iteration after the minimum gets further in the input. -/
def repeatMatcher (length : Nat) (matcher : State → List State) (clear : State → State)
    (min : Nat) (max : Option Nat) (isGreedy : Bool) (x : State) : List State :=
  repeatFrom matcher clear isGreedy (min + (length - x.position) + 1) min max x

mutual

/-- The captures in a tree. -/
def RegExpTree.captures : RegExpTree → List Nat
  | .capture body index => index :: body.captures
  | .lookahead body _ _ _ => body.captures
  | .quantifier body _ _ _ => body.captures
  | .alternative nodes => nodes.captures
  | .disjunction alternatives => alternatives.captures
  | _ => []

def RegExpTrees.captures : RegExpTrees → List Nat
  | .nil => []
  | .cons tree trees => tree.captures ++ trees.captures

end

/-- The captures made undefined. -/
def clearCaptures (captures : List Nat) (s : State) : State :=
  { s with registers := fun r => if r / 2 ∈ captures then -1 else s.registers r }

def Env.assertionHolds (env : Env) (position : Nat) : AssertionType → Bool
  | .startOfLine => env.asserts position .afterNewline
  | .startOfInput => env.asserts position .atStart
  | .endOfLine => env.asserts position .atEnd || (env.subject[position]?).any isNewline
  | .endOfInput => env.asserts position .atEnd
  | .boundary => env.asserts position .atBoundary
  | .nonBoundary => env.asserts position .atNonBoundary

/-- The maximum of a quantifier, where `none` is infinite. -/
def maxOf (max : Nat) : Option Nat := if max < kInfinity then some max else none

mutual

def RegExpTree.matcher (env : Env) : RegExpTree → State → List State
  | .empty => fun s => [s]
  | .text elements => fun s => ((env.matchText elements s.position).map s.moveTo).toList
  | .assertion type => fun s => if env.assertionHolds s.position type then [s] else []
  | .backReference index => fun s =>
    ((env.matchBackReference s (startRegister index) (endRegister index)).map s.moveTo).toList
  | .capture body index => fun s =>
    (body.matcher env (s.write (startRegister index) s.position)).map fun y =>
      y.write (endRegister index) y.position
  | .lookahead body isPositive _ _ => fun s =>
    match body.matcher env s with
    | [] => if isPositive then [] else [s]
    | y :: _ => if isPositive then [y.moveTo s.position] else []
  | .quantifier body min max isGreedy =>
    repeatMatcher env.subject.length (body.matcher env) (clearCaptures body.captures) min (maxOf max) isGreedy
  | .alternative nodes => nodes.sequence env
  | .disjunction alternatives => alternatives.alternatives env

def RegExpTrees.sequence (env : Env) : RegExpTrees → State → List State
  | .nil => fun s => [s]
  | .cons tree trees => fun s => (tree.matcher env s).flatMap (trees.sequence env)

def RegExpTrees.alternatives (env : Env) : RegExpTrees → State → List State
  | .nil => fun _ => []
  | .cons tree trees => fun s => tree.matcher env s ++ trees.alternatives env s

end

/-! ## Registers that do not matter -/

/-- States that differ only in registers from `lo` to `hi`. -/
structure Agree (lo hi : Nat) (s s' : State) : Prop where
  position : s'.position = s.position
  registers : ∀ r, r < lo ∨ hi ≤ r → s'.registers r = s.registers r

theorem Agree.refl (lo hi : Nat) (s : State) : Agree lo hi s s := ⟨rfl, fun _ _ => rfl⟩

variable {hi lo b length : Nat} {s s' : State} {m : State → List State}

theorem Agree.symm (h : Agree lo hi s s') : Agree lo hi s' s :=
  ⟨h.position.symm, fun r hr => (h.registers r hr).symm⟩

theorem Agree.trans {s₁ s₂ s₃ : State} (h₁ : Agree lo hi s₁ s₂) (h₂ : Agree lo hi s₂ s₃) : Agree lo hi s₁ s₃ :=
  ⟨h₂.position.trans h₁.position, fun r hr => (h₂.registers r hr).trans (h₁.registers r hr)⟩

theorem Agree.mono {lo' hi' : Nat} (h : Agree lo hi s s') (hlo : lo' ≤ lo)
    (hhi : hi ≤ hi') : Agree lo' hi' s s' :=
  ⟨h.position, fun r hr => h.registers r (by omega)⟩

theorem Agree.moveTo (h : Agree lo hi s s') (position : Nat) :
    Agree lo hi (s.moveTo position) (s'.moveTo position) := ⟨rfl, h.registers⟩

theorem Agree.write (h : Agree lo hi s s') (reg : Nat) (v : Int) :
    Agree lo hi (s.write reg v) (s'.write reg v) := by
  refine ⟨h.position, fun r hr => ?_⟩
  by_cases heq : r = reg
  · rw [heq]
    exact (write_same _ _ _).trans (write_same _ _ _).symm
  · exact (write_other _ _ heq).trans ((h.registers r hr).trans (write_other _ _ heq).symm)

/-- A register among those that do not matter. -/
theorem agree_write {reg : Nat} (s : State) (v : Int) (hlo : lo ≤ reg) (hhi : reg < hi) :
    Agree lo hi s (s.write reg v) :=
  ⟨rfl, fun r hr => write_other _ _ (by omega)⟩

theorem Agree.clearCaptures (h : Agree lo hi s s')
    (captures : List Nat) : Agree lo hi (clearCaptures captures s) (clearCaptures captures s') := by
  refine ⟨h.position, fun r hr => ?_⟩
  show (if r / 2 ∈ captures then _ else _) = if r / 2 ∈ captures then _ else _
  rw [h.registers r hr]

/-- A matcher stays in the input, keeps registers from `b` on, and does not read them. -/
structure Tame (length b : Nat) (matcher : State → List State) : Prop where
  forward : ∀ x, ∀ y ∈ matcher x, x.position ≤ y.position ∧ (y.position = x.position ∨ y.position ≤ length)
  frame : ∀ x, ∀ y ∈ matcher x, ∀ r, b ≤ r → y.registers r = x.registers r
  insensitive : ∀ lo hi x x', b ≤ lo → Agree lo hi x x' → Forall₂ (Agree lo hi) (matcher x) (matcher x')

theorem Tame.mono {b' : Nat} (h : Tame length b m) (hb : b ≤ b') : Tame length b' m :=
  ⟨h.forward, fun x y hy r hr => h.frame x y hy r (Nat.le_trans hb hr),
    fun lo hi x x' hlo => h.insensitive lo hi x x' (Nat.le_trans hb hlo)⟩

theorem Tame.congr {m' : State → List State} (h : Tame length b m)
    (heq : ∀ x, m' x = m x) : Tame length b m' := by
  rwa [funext heq]

/-- Matchers with at most one success. -/
theorem tame_option {f : State → Option State} (hfwd : ∀ x y, f x = some y → x.position ≤ y.position ∧
      (y.position = x.position ∨ y.position ≤ length))
    (hframe : ∀ x y, f x = some y → ∀ r, b ≤ r → y.registers r = x.registers r)
    (hinsensitive : ∀ lo hi x x', b ≤ lo → Agree lo hi x x' → Rel (Agree lo hi) (f x) (f x')) :
    Tame length b fun x => (f x).toList := by
  refine ⟨fun x y hy => hfwd x y (by simpa using hy), fun x y hy => hframe x y (by simpa using hy),
    fun lo hi x x' hlo h => ?_⟩
  have hrel := hinsensitive lo hi x x' hlo h
  revert hrel
  generalize f x = o
  generalize f x' = o'
  intro hrel
  cases hrel with
  | none => exact .nil
  | some hy => exact .cons hy .nil

theorem tame_single (length b : Nat) : Tame length b fun s => [s] :=
  tame_option (f := some) (fun x y h => by cases h; exact ⟨Nat.le_refl _, .inl rfl⟩)
    (fun x y h r _ => by cases h; rfl) (fun _ _ _ _ _ h => .some h)

theorem Tame.flatMap {m₁ m₂ : State → List State} (h₁ : Tame length b m₁)
    (h₂ : Tame length b m₂) : Tame length b fun x => (m₁ x).flatMap m₂ := by
  refine ⟨fun x z hz => ?_, fun x z hz r hr => ?_, fun lo hi x x' hlo h => ?_⟩
  · obtain ⟨y, hy, hz⟩ := mem_flatMap.1 hz
    have hxy := h₁.forward x y hy
    have hyz := h₂.forward y z hz
    omega
  · obtain ⟨y, hy, hz⟩ := mem_flatMap.1 hz
    exact (h₂.frame y z hz r hr).trans (h₁.frame x y hy r hr)
  · exact rel_flatMap (h₁.insensitive lo hi x x' hlo h) fun y y' hy => h₂.insensitive lo hi y y' hlo hy

theorem Tame.append {m₁ m₂ : State → List State} (h₁ : Tame length b m₁)
    (h₂ : Tame length b m₂) : Tame length b fun x => m₁ x ++ m₂ x := by
  refine ⟨fun x y hy => ?_, fun x y hy => ?_, fun lo hi x x' hlo h => ?_⟩
  · rcases mem_append.1 hy with hy | hy
    · exact h₁.forward x y hy
    · exact h₂.forward x y hy
  · rcases mem_append.1 hy with hy | hy
    · exact h₁.frame x y hy
    · exact h₂.frame x y hy
  · exact rel_append (h₁.insensitive lo hi x x' hlo h) (h₂.insensitive lo hi x x' hlo h)

/-! ## Matchers of trees -/

mutual

/-- The registers of captures and back references are below `b`. -/
def RegExpTree.Below (b : Nat) : RegExpTree → Prop
  | .backReference index => endRegister index < b
  | .capture body index => endRegister index < b ∧ body.Below b
  | .lookahead body _ _ _ => body.Below b
  | .quantifier body _ _ _ => body.Below b
  | .alternative nodes => nodes.Below b
  | .disjunction alternatives => alternatives.Below b
  | _ => True

def RegExpTrees.Below (b : Nat) : RegExpTrees → Prop
  | .nil => True
  | .cons tree trees => tree.Below b ∧ trees.Below b

end

theorem matchTests_forward {subject : List Nat} {tests : List (Nat → Bool)} {p q : Nat}
    (h : matchTests subject tests p = some q) :
    q = p + tests.length ∧ (q = p ∨ q ≤ subject.length) := by
  induction tests generalizing p with
  | nil => exact ⟨(some.inj h).symm, .inl (some.inj h).symm⟩
  | cons test tests ih =>
    rw [matchTests] at h
    split at h
    · grind
    · cases h

theorem tame_moveTo {f : State → Option Nat}
    (hfwd : ∀ x q, f x = some q → x.position ≤ q ∧ (q = x.position ∨ q ≤ length))
    (hinsensitive : ∀ lo hi x x', b ≤ lo → Agree lo hi x x' → f x' = f x) :
    Tame length b fun x => ((f x).map x.moveTo).toList := by
  refine tame_option (fun x y h => ?_) (fun x y h r _ => ?_) (fun lo hi x x' hlo h => ?_)
  · obtain ⟨q, hq, rfl⟩ := map_eq_some_iff.1 h
    exact hfwd x q hq
  · obtain ⟨q, hq, rfl⟩ := map_eq_some_iff.1 h
    rfl
  · rw [hinsensitive lo hi x x' hlo h]
    cases f x with
    | none => exact .none
    | some q => exact .some (h.moveTo q)

theorem tame_text (env : Env) (b : Nat) (elements : List TextElement) :
    Tame env.subject.length b ((RegExpTree.text elements).matcher env) := by
  refine tame_moveTo (fun x q h => ?_) (fun lo hi x x' _ h => by rw [h.position])
  obtain ⟨hq, hle⟩ := matchTests_forward h
  exact ⟨by omega, hle⟩

theorem tame_assertion (env : Env) (b : Nat) (type : AssertionType) :
    Tame env.subject.length b ((RegExpTree.assertion type).matcher env) := by
  refine ⟨fun x y hy => ?_, fun x y hy r _ => ?_, fun lo hi x x' _ h => ?_⟩
  · simp only [RegExpTree.matcher] at hy
    grind
  · simp only [RegExpTree.matcher] at hy
    grind
  · simp only [RegExpTree.matcher, h.position]
    split
    · exact .cons h .nil
    · exact .nil

theorem startRegister_lt {index : Nat} (h : endRegister index < b) : startRegister index < b := by
  rw [startRegister]
  rw [endRegister] at h
  omega

theorem tame_backReference (env : Env) {index : Nat} (hb : endRegister index < b) :
    Tame env.subject.length b ((RegExpTree.backReference index).matcher env) := by
  refine tame_moveTo (fun x q h => ?_) (fun lo hi x x' hlo h => ?_)
  · rw [Env.matchBackReference] at h
    split at h
    · grind
    · obtain ⟨hq, hle⟩ := matchTests_forward h
      exact ⟨by omega, hle⟩
  · have hstart := Nat.lt_of_lt_of_le (startRegister_lt hb) hlo
    rw [Env.matchBackReference, Env.matchBackReference, h.position, h.registers _ (.inl hstart),
      h.registers _ (.inl (Nat.lt_of_lt_of_le hb hlo))]

theorem tame_storePosition (length : Nat) {reg : Nat} (hb : reg < b) :
    Tame length b fun s => [s.write reg s.position] := by
  refine tame_option (f := fun s => some (s.write reg s.position)) (fun x y h => ?_)
    (fun x y h r hr => ?_) (fun lo hi x x' _ h => ?_)
  · cases h
    exact ⟨Nat.le_refl _, .inl rfl⟩
  · cases h
    exact write_other _ _ (by omega)
  · rw [h.position]
    exact .some (h.write reg _)

/-- A capture stores the position before and after its body. -/
theorem capture_eq (m : State → List State) (index : Nat) (s : State) :
    ((m (s.write (startRegister index) s.position)).map fun y =>
      y.write (endRegister index) y.position) =
      [s.write (startRegister index) s.position].flatMap fun x =>
        (m x).flatMap fun y => [y.write (endRegister index) y.position] := by
  rw [flatMap_singleton, map_eq_flatMap]

theorem tame_capture {index : Nat} (hm : Tame length b m) (hb : endRegister index < b) :
    Tame length b fun s => (m (s.write (startRegister index) s.position)).map fun y =>
      y.write (endRegister index) y.position :=
  ((tame_storePosition length (startRegister_lt hb)).flatMap
    (hm.flatMap (tame_storePosition length hb))).congr fun s => capture_eq m index s

theorem tame_lookahead (hm : Tame length b m) (isPositive : Bool) : Tame length b fun s =>
      match m s with
      | [] => if isPositive then [] else [s]
      | y :: _ => if isPositive then [y.moveTo s.position] else [] := by
  refine ⟨fun x y hy => ?_, fun x y hy r hr => ?_, fun lo hi x x' hlo h => ?_⟩
  · cases hx : m x with
    | nil =>
      grind
    | cons z zs =>
      cases isPositive <;> simp [hx] at hy
      rw [hy]
      exact ⟨Nat.le_refl _, .inl rfl⟩
  · cases hx : m x with
    | nil =>
      grind
    | cons z zs =>
      cases isPositive <;> simp [hx] at hy
      rw [hy]
      exact hm.frame x z (by rw [hx]; exact mem_cons_self) r hr
  · have hrel := hm.insensitive lo hi x x' hlo h
    revert hrel
    generalize m x = l
    generalize m x' = l'
    intro hrel
    cases hrel with
    | nil =>
      cases isPositive
      · exact .cons h .nil
      · exact .nil
    | cons hy hys =>
      cases isPositive
      · exact .nil
      · refine .cons ?_ .nil
        rw [h.position]
        exact hy.moveTo _

/-! ## Repetition -/

section Repeat

variable {length b : Nat} {m : State → List State} {captures : List Nat} {isGreedy : Bool}

theorem tame_clear (hcaps : ∀ index ∈ captures, endRegister index < b) (hm : Tame length b m) :
    Tame length b fun s => m (clearCaptures captures s) := by
  refine ⟨fun x => hm.forward _, fun x y hy r hr => ?_, fun lo hi x x' hlo h =>
    hm.insensitive lo hi _ _ hlo (h.clearCaptures captures)⟩
  rw [hm.frame _ y hy r hr]
  refine if_neg fun hin => ?_
  have := hcaps _ hin
  rw [endRegister] at this
  omega

theorem tame_repeatFrom (hm : Tame length b fun s => m (clearCaptures captures s)) (fuel : Nat) :
    ∀ min max, Tame length b (repeatFrom m (clearCaptures captures) isGreedy fuel min max) := by
  induction fuel with
  | zero => exact fun _ _ => ⟨fun _ _ h => (nomatch h), fun _ _ h => (nomatch h), fun _ _ _ _ _ _ => .nil⟩
  | succ fuel ih =>
    intro min max
    have hnext := ih (min - 1) (max.map (· - 1))
    have hiter : Tame length b fun x => (m (clearCaptures captures x)).flatMap fun y =>
        if min = 0 ∧ y.position = x.position then []
        else repeatFrom m (clearCaptures captures) isGreedy fuel (min - 1) (max.map (· - 1)) y := by
      refine ⟨fun x z hz => ?_, fun x z hz r hr => ?_, fun lo hi x x' hlo h => ?_⟩
      · obtain ⟨y, hy, hz⟩ := mem_flatMap.1 hz
        have hxy := hm.forward x y hy
        split at hz
        · cases hz
        · have hyz := hnext.forward y z hz
          omega
      · obtain ⟨y, hy, hz⟩ := mem_flatMap.1 hz
        split at hz
        · cases hz
        · exact (hnext.frame y z hz r hr).trans (hm.frame x y hy r hr)
      · refine rel_flatMap (hm.insensitive lo hi x x' hlo h) fun y y' hy => ?_
        rw [hy.position, h.position]
        split
        · exact .nil
        · exact hnext.insensitive lo hi y y' hlo hy
    have hsingle := tame_single length b
    by_cases hmax : max = some 0
    · exact hsingle.congr fun x => by rw [repeatFrom, if_pos hmax]
    · by_cases hmin : min ≠ 0
      · simp_all [repeatFrom]
      · cases isGreedy with
        | true =>
          exact (hiter.append hsingle).congr fun x => by
            rw [repeatFrom, if_neg hmax, if_neg hmin, if_pos rfl]
        | false =>
          exact (hsingle.append hiter).congr fun x => by
            simp [repeatFrom, hmax, hmin]

/-- More iterations than the input allows make no difference. -/
theorem repeatFrom_eq (hm : Tame length b fun s => m (clearCaptures captures s)) (fuel fuel' : Nat) :
    ∀ min max x, min + (length - x.position) < fuel → min + (length - x.position) < fuel' →
      repeatFrom m (clearCaptures captures) isGreedy fuel min max x =
        repeatFrom m (clearCaptures captures) isGreedy fuel' min max x := by
  induction fuel generalizing fuel' with
  | zero => exact fun _ _ _ h => absurd h (Nat.not_lt_zero _)
  | succ fuel ih =>
    intro min max x hfuel hfuel'
    cases fuel' with
    | zero => exact absurd hfuel' (Nat.not_lt_zero _)
    | succ fuel' =>
      have hiter : ((m (clearCaptures captures x)).flatMap fun y =>
          if min = 0 ∧ y.position = x.position then []
          else repeatFrom m (clearCaptures captures) isGreedy fuel (min - 1) (max.map (· - 1)) y) =
          (m (clearCaptures captures x)).flatMap fun y =>
            if min = 0 ∧ y.position = x.position then []
            else repeatFrom m (clearCaptures captures) isGreedy fuel' (min - 1) (max.map (· - 1)) y := by
        refine flatMap_congr fun y hy => ?_
        have hfwd := hm.forward x y hy
        grind
      rw [repeatFrom, repeatFrom]
      simp only [hiter]

/-- The steps of `RepeatMatcher`. -/
theorem repeatMatcher_eq (hm : Tame length b fun s => m (clearCaptures captures s)) (min : Nat)
    (max : Option Nat) (x : State) :
    repeatMatcher length m (clearCaptures captures) min max isGreedy x = if max = some 0 then [x]
      else
        let iterations := (m (clearCaptures captures x)).flatMap fun y =>
          if min = 0 ∧ y.position = x.position then []
          else repeatMatcher length m (clearCaptures captures) (min - 1) (max.map (· - 1)) isGreedy y
        if min ≠ 0 then iterations
        else if isGreedy then iterations ++ [x] else x :: iterations := by
  have hiter : ((m (clearCaptures captures x)).flatMap fun y =>
      if min = 0 ∧ y.position = x.position then []
      else repeatFrom m (clearCaptures captures) isGreedy (min + (length - x.position)) (min - 1)
        (max.map (· - 1)) y) =
      (m (clearCaptures captures x)).flatMap fun y =>
        if min = 0 ∧ y.position = x.position then []
        else repeatMatcher length m (clearCaptures captures) (min - 1) (max.map (· - 1)) isGreedy y := by
    refine flatMap_congr fun y hy => ?_
    have hfwd := hm.forward x y hy
    split
    · rfl
    · exact repeatFrom_eq hm _ _ _ _ y (by omega) (by omega)
  rw [repeatMatcher, repeatFrom]
  simp only [hiter]

theorem tame_repeatMatcher (hm : Tame length b fun s => m (clearCaptures captures s)) (min : Nat)
    (max : Option Nat) :
    Tame length b (repeatMatcher length m (clearCaptures captures) min max isGreedy) := by
  refine ⟨fun x => (tame_repeatFrom hm _ _ _).forward x, fun x => (tame_repeatFrom hm _ _ _).frame x,
    fun lo hi x x' hlo h => ?_⟩
  rw [repeatMatcher, repeatMatcher, h.position]
  exact (tame_repeatFrom hm _ _ _).insensitive lo hi x x' hlo h

end Repeat

mutual

theorem RegExpTree.captures_below {b : Nat} : ∀ t : RegExpTree, t.Below b →
    ∀ index ∈ t.captures, endRegister index < b
  | .capture body _, h, index, hindex => by
    rcases mem_cons.1 hindex with rfl | hindex
    · exact h.1
    · exact body.captures_below h.2 index hindex
  | .lookahead body _ _ _, h, index, hindex => body.captures_below h index hindex
  | .quantifier body _ _ _, h, index, hindex => body.captures_below h index hindex
  | .alternative nodes, h, index, hindex => nodes.captures_below h index hindex
  | .disjunction alternatives, h, index, hindex => alternatives.captures_below h index hindex
  | .empty, _, _, hindex => nomatch hindex
  | .text _, _, _, hindex => nomatch hindex
  | .assertion _, _, _, hindex => nomatch hindex
  | .backReference _, _, _, hindex => nomatch hindex

theorem RegExpTrees.captures_below {b : Nat} : ∀ ts : RegExpTrees, ts.Below b →
    ∀ index ∈ ts.captures, endRegister index < b
  | .nil, _, _, hindex => nomatch hindex
  | .cons tree trees, h, index, hindex => by
    rcases mem_append.1 hindex with hindex | hindex
    · exact tree.captures_below h.1 index hindex
    · exact trees.captures_below h.2 index hindex

end

mutual

theorem RegExpTree.tame (env : Env) {b : Nat} : ∀ t : RegExpTree, t.Below b →
    Tame env.subject.length b (t.matcher env)
  | .empty, _ => tame_single _ _
  | .text elements, _ => tame_text env b elements
  | .assertion type, _ => tame_assertion env b type
  | .backReference _, h => tame_backReference env h
  | .capture body _, h => tame_capture (body.tame env h.2) h.1
  | .lookahead body isPositive _ _, h => tame_lookahead (body.tame env h) isPositive
  | .quantifier body _ _ _, h =>
    tame_repeatMatcher (tame_clear (body.captures_below h) (body.tame env h)) _ _
  | .alternative nodes, h => nodes.tame_sequence env h
  | .disjunction alternatives, h => alternatives.tame_alternatives env h

theorem RegExpTrees.tame_sequence (env : Env) {b : Nat} : ∀ ts : RegExpTrees, ts.Below b →
    Tame env.subject.length b (ts.sequence env)
  | .nil, _ => tame_single _ _
  | .cons tree trees, h => (tree.tame env h.1).flatMap (trees.tame_sequence env h.2)

theorem RegExpTrees.tame_alternatives (env : Env) {b : Nat} : ∀ ts : RegExpTrees, ts.Below b →
    Tame env.subject.length b (ts.alternatives env)
  | .nil, _ => ⟨fun _ _ h => (nomatch h), fun _ _ h => (nomatch h), fun _ _ _ _ _ _ => .nil⟩
  | .cons tree trees, h => (tree.tame env h.1).append (trees.tame_alternatives env h.2)

end

end W16.RegExps
