import W16.Preferences
import W16.RegExpBuilder
import W16.RegExpQuantifier

/-!
# Trees that match as others do

A tree refines another one from a point of the pattern to a later one. The states that reach the
first point have no capture that is closed behind it, since a repetition clears what it repeats.
-/
namespace W16.RegExps

open Preferences List Option

set_option linter.dupNamespace false

variable {env : Env} {x y : State}

section Repeat

variable {m m' : State → List State} {clear clear' : State → State} {isGreedy : Bool} {I : State → Prop}

/-- What the iterations keep holds of the results. -/
theorem repeatFrom_invariant (hm : ∀ x, I x → ∀ y ∈ m (clear x), I y) (fuel : Nat) :
    ∀ min max x, I x → ∀ y ∈ repeatFrom m clear isGreedy fuel min max x, I y := by
  induction fuel with
  | zero => exact fun _ _ _ _ _ h => nomatch h
  | succ fuel ih =>
    intro min max x hx y hy
    have hiter : y ∈ ((m (clear x)).flatMap fun z =>
        if min = 0 ∧ z.position = x.position then []
        else repeatFrom m clear isGreedy fuel (min - 1) (max.map (· - 1)) z) → I y := by
      grind
    rw [repeatFrom] at hy
    grind

/-- The captures that are cleared may be others where they are undefined before. -/
theorem repeatFrom_same (hclear : ∀ x, I x → clear' x = clear x)
    (hsame : ∀ x, I x → Same (m (clear x)) (m' (clear x)))
    (hm : ∀ x, I x → ∀ y ∈ m (clear x), I y) (fuel : Nat) :
    ∀ min max x, I x → Same (repeatFrom m clear isGreedy fuel min max x)
      (repeatFrom m' clear' isGreedy fuel min max x) := by
  induction fuel with
  | zero => exact fun _ _ _ _ => .refl []
  | succ fuel ih =>
    intro min max x hx
    have hiter : Same ((m (clear x)).flatMap fun y => if min = 0 ∧ y.position = x.position then []
          else repeatFrom m clear isGreedy fuel (min - 1) (max.map (· - 1)) y)
        ((m' (clear' x)).flatMap fun y => if min = 0 ∧ y.position = x.position then []
          else repeatFrom m' clear' isGreedy fuel (min - 1) (max.map (· - 1)) y) := by
      rw [hclear x hx]
      apply (hsame x hx).flatMap
      intro y hy
      split
      · exact .refl []
      · exact ih _ _ y (hm x hx y hy)
    rw [repeatFrom, repeatFrom]
    split
    · exact .refl _
    · split
      · exact hiter
      · split
        · exact hiter.append (.refl _)
        · exact (Same.refl [x]).append hiter

/-- Iterations that match only the empty string fail after the minimum. -/
theorem repeatFrom_zero (hm : ∀ y ∈ m (clear x), y.position = x.position) (fuel : Nat)
    (max : Option Nat) : repeatFrom m clear isGreedy (fuel + 1) 0 max x = [x] := by
  have hiter : ((m (clear x)).flatMap fun y =>
      if 0 = 0 ∧ y.position = x.position then []
      else repeatFrom m clear isGreedy fuel (0 - 1) (max.map (· - 1)) y) = [] := by
    simp_all
  rw [repeatFrom]
  grind

/-- Each iteration up to the minimum begins in the same state, since the captures are cleared. -/
theorem repeatFrom_once (hclear : ∀ y ∈ m (clear x), clear y = clear x)
    (hm : ∀ y ∈ m (clear x), y.position = x.position) (min : Nat) :
    ∀ (fuel : Nat) (max : Option Nat) (y : State), min < fuel → (∀ n, max = some n → min < n) →
      clear y = clear x → y.position = x.position →
      Same (repeatFrom m clear isGreedy (fuel + 1) (min + 1) max y) (m (clear x)) := by
  induction min with
  | zero =>
    intro fuel max y hfuel hmax hy hposition
    obtain ⟨fuel, rfl⟩ := Nat.exists_eq_succ_of_ne_zero (Nat.ne_of_gt hfuel)
    have hpos : max ≠ some 0 := fun h => absurd (hmax 0 h) (by omega)
    rw [repeatFrom, if_neg hpos]
    rw [if_pos (by omega), hy]
    apply Same.of_eq
    have hrest : ∀ z ∈ m (clear x), (if 0 + 1 = 0 ∧ z.position = y.position then []
        else repeatFrom m clear isGreedy (fuel + 1) (0 + 1 - 1) (max.map (· - 1)) z) = [z] := by
      simp_all [repeatFrom_zero]
    rw [flatMap_congr hrest]
    simp
  | succ min ih =>
    intro fuel max y hfuel hmax hy hposition
    obtain ⟨fuel, rfl⟩ := Nat.exists_eq_succ_of_ne_zero (by omega : fuel ≠ 0)
    have hpos : max ≠ some 0 := fun h => absurd (hmax 0 h) (by omega)
    rw [repeatFrom, if_neg hpos]
    rw [if_pos (by omega), hy]
    refine Same.trans ?_ (Same.flatMap_self _)
    apply (Same.refl _).flatMap
    intro z hz
    apply ih _ _ z (by omega) _ (hclear z hz) (hm z hz)
    intro n hn
    obtain ⟨k, hk, rfl⟩ := map_eq_some_iff.1 hn
    have := hmax k hk
    omega

end Repeat

section Frame

mutual

/-- A matcher writes only the captures of its tree. -/
theorem RegExpTree.frame (env : Env) : ∀ (t : RegExpTree) (x : State), ∀ y ∈ t.matcher env x,
    ∀ r, r / 2 ∉ t.captures → y.registers r = x.registers r
  | .empty, x, y, hy, r, _ => by rw [mem_singleton.1 hy]
  | .text _, x, y, hy, r, _ => by
    obtain ⟨q, -, rfl⟩ := map_eq_some_iff.1 (mem_toList.1 hy)
    rfl
  | .assertion _, x, y, hy, r, _ => by
    simp only [RegExpTree.matcher] at hy
    grind
  | .backReference _, x, y, hy, r, _ => by
    obtain ⟨q, -, rfl⟩ := map_eq_some_iff.1 (mem_toList.1 hy)
    rfl
  | .capture body index, x, y, hy, r, hr => by
    obtain ⟨z, hz, rfl⟩ := mem_map.1 hy
    rw [RegExpTree.captures, mem_cons, not_or] at hr
    have hend : r ≠ endRegister index := by
      rw [endRegister]
      omega
    have hstart : r ≠ startRegister index := by
      rw [startRegister]
      omega
    exact (write_other _ _ hend).trans ((body.frame env _ z hz r hr.2).trans (write_other _ _ hstart))
  | .lookahead body isPositive _ _, x, y, hy, r, hr => by
    have hbody := body.frame env x
    cases hx : body.matcher env x with
    | nil =>
      cases isPositive <;> simp [RegExpTree.matcher, hx] at hy
      rw [hy]
    | cons z zs =>
      cases isPositive <;> simp [RegExpTree.matcher, hx] at hy
      rw [hy]
      exact hbody z (by simp [hx]) r hr
  | .quantifier body _ _ _, x, y, hy, r, hr =>
    repeatFrom_invariant (I := fun y => y.registers r = x.registers r)
      (fun x hx y hy => (body.frame env _ y hy r hr).trans ((if_neg hr).trans hx)) _ _ _ x rfl y hy
  | .alternative nodes, x, y, hy, r, hr => nodes.frame_sequence env x y hy r hr
  | .disjunction alternatives, x, y, hy, r, hr => alternatives.frame_alternatives env x y hy r hr

theorem RegExpTrees.frame_sequence (env : Env) : ∀ (ts : RegExpTrees) (x : State),
    ∀ y ∈ ts.sequence env x, ∀ r, r / 2 ∉ ts.captures → y.registers r = x.registers r
  | .nil, x, y, hy, r, _ => by rw [mem_singleton.1 hy]
  | .cons t ts, x, y, hy, r, hr => by
    obtain ⟨z, hz, hy⟩ := mem_flatMap.1 hy
    rw [RegExpTrees.captures, mem_append, not_or] at hr
    rw [ts.frame_sequence env z y hy r hr.2, t.frame env x z hz r hr.1]

theorem RegExpTrees.frame_alternatives (env : Env) : ∀ (ts : RegExpTrees) (x : State),
    ∀ y ∈ ts.alternatives env x, ∀ r, r / 2 ∉ ts.captures → y.registers r = x.registers r
  | .nil, _, _, hy, _, _ => nomatch hy
  | .cons t ts, x, y, hy, r, hr => by
    rw [RegExpTrees.captures, mem_append, not_or] at hr
    obtain hy | hy := mem_append.1 hy
    · exact t.frame env x y hy r hr.1
    · exact ts.frame_alternatives env x y hy r hr.2

end

end Frame

section Valid

/-- The maximum length of each group that is closed. -/
abbrev Closed := Nat → Option Nat

/-- What a state has at a point of the pattern: no capture that is not closed before, and empty
captures of groups that match only the empty string. -/
structure Valid (closed : Closed) (opened : List Nat) (x : State) : Prop where
  endUndefined : ∀ k, closed k = none → x.registers (endRegister k) = -1
  startUndefined : ∀ k, closed k = none → k ∉ opened → x.registers (startRegister k) = -1
  empty : ∀ k, closed k = some 0 → x.registers (endRegister k) = x.registers (startRegister k)

def Extends (closed closed' : Closed) : Prop := ∀ k m, closed k = some m → closed' k = some m

variable {closed closed' closed'' : Closed} {opened : List Nat}

theorem Extends.refl (closed : Closed) : Extends closed closed := fun _ _ h => h

theorem Extends.trans (h : Extends closed closed') (h' : Extends closed' closed'') :
    Extends closed closed'' := fun k m hk => h' k m (h k m hk)

theorem Extends.none_of_none (h : Extends closed closed') {k : Nat} (hk : closed' k = none) :
    closed k = none := by
  cases hclos : closed k with
  | none => rfl
  | some m =>
    rw [h k m hclos] at hk
    cases hk

theorem Valid.mono (h : Valid closed opened x) (hext : Extends closed closed')
    (hopen : ∀ k ∈ opened, closed' k = none) : Valid closed' opened x where
  endUndefined k hk := h.endUndefined k (hext.none_of_none hk)
  startUndefined k hk := h.startUndefined k (hext.none_of_none hk)
  empty k hk := by
    cases hclos : closed k with
    | none =>
      have hout : k ∉ opened := fun hin => by
        rw [hopen k hin] at hk
        cases hk
      rw [h.endUndefined k hclos, h.startUndefined k hclos hout]
    | some m =>
      have heq := hext k m hclos
      rw [hk] at heq
      rw [← some.inj heq] at hclos
      exact h.empty k hclos

/-- Only the registers count. -/
theorem Valid.of_registers (h : Valid closed opened x)
    (hregs : ∀ r, y.registers r = x.registers r) : Valid closed opened y := by
  constructor
  · intro k hk
    rw [hregs, h.endUndefined k hk]
  · intro k hk hout
    rw [hregs, h.startUndefined k hk hout]
  · intro k hk
    rw [hregs, hregs, h.empty k hk]

theorem State.ext_iff {x y : State} : x = y ↔ x.position = y.position ∧ ∀ r, x.registers r = y.registers r := by
  constructor
  · rintro rfl
    exact ⟨rfl, fun _ => rfl⟩
  · rintro ⟨hpos, hregs⟩
    cases x
    congr
    exact funext hregs

theorem register_cases (r : Nat) : r = startRegister (r / 2) ∨ r = endRegister (r / 2) := by
  rw [startRegister, endRegister]
  omega

/-- Captures that are undefined are not changed when they are cleared. -/
theorem clearCaptures_eq_self {captures : List Nat}
    (h : ∀ k ∈ captures, x.registers (startRegister k) = -1 ∧ x.registers (endRegister k) = -1) :
    clearCaptures captures x = x := by
  rw [State.ext_iff]
  refine ⟨rfl, fun r => ?_⟩
  by_cases hr : r / 2 ∈ captures
  · refine (if_pos hr).trans ?_
    obtain hstart | hend := register_cases r
    · rw [hstart]
      exact (h _ hr).1.symm
    · rw [hend]
      exact (h _ hr).2.symm
  · exact if_neg hr

end Valid

section Refines

/-- A tree in the place of another one, between two points of the pattern. -/
structure Refines (closed closed' : Closed) (opened : List Nat) (t p : RegExpTree) : Prop where
  captures : ∀ k, k ∈ p.captures ↔ closed k = none ∧ closed' k ≠ none
  extend : Extends closed closed'
  unclosed : ∀ k ∈ opened, closed' k = none
  kept : ∀ k ∈ t.captures, k ∈ p.captures
  same : ∀ env x, Valid closed opened x → Same (t.matcher env x) (p.matcher env x)
  valid : ∀ env x, Valid closed opened x → ∀ y ∈ t.matcher env x, Valid closed' opened y
  zero : ∀ closed'', Extends closed' closed'' → t.maxMatch closed'' = 0 →
    ∀ env x, Valid closed opened x → ∀ y ∈ t.matcher env x, y.position = x.position

/-- Trees that differ in no more than how their parts are put together. -/
structure Alike (t t' : RegExpTree) : Prop where
  matcher : ∀ env, t'.matcher env = t.matcher env
  captures : t'.captures = t.captures
  maxMatch : ∀ closed, t'.maxMatch closed = 0 → t.maxMatch closed = 0

theorem Alike.refl (t : RegExpTree) : Alike t t := ⟨fun _ => rfl, rfl, fun _ h => h⟩

theorem Alike.trans {t t' t'' : RegExpTree} (h : Alike t t') (h' : Alike t' t'') : Alike t t'' :=
  ⟨fun env => (h'.matcher env).trans (h.matcher env), h'.captures.trans h.captures,
    fun closed hzero => h.maxMatch closed (h'.maxMatch closed hzero)⟩

variable {closed closed' closed'' : Closed} {opened : List Nat} {t t' p q : RegExpTree}

theorem Refines.congr (h : Refines closed closed' opened t p) (ha : Alike t t') :
    Refines closed closed' opened t' p where
  captures := h.captures
  extend := h.extend
  unclosed := h.unclosed
  kept := by
    rw [ha.captures]
    exact h.kept
  same env := by
    rw [ha.matcher]
    exact h.same env
  valid env := by
    rw [ha.matcher]
    exact h.valid env
  zero closed'' hext hzero env := by
    rw [ha.matcher]
    exact h.zero closed'' hext (ha.maxMatch closed'' hzero) env

/-- A tree without captures in the place of itself. -/
theorem Refines.self (hcaps : t.captures = []) (hopen : ∀ k ∈ opened, closed k = none)
    (hzero : ∀ closed', Extends closed closed' → t.maxMatch closed' = 0 →
      ∀ env x, Valid closed opened x → ∀ y ∈ t.matcher env x, y.position = x.position) :
    Refines closed closed opened t t where
  captures k := by simp [hcaps]
  extend := .refl closed
  unclosed := hopen
  kept _ hk := hk
  same _ _ _ := .refl _
  valid env x hx y hy := hx.of_registers fun r => t.frame env x y hy r (by simp [hcaps])
  zero := hzero

theorem Refines.text (elements : List TextElement) (hopen : ∀ k ∈ opened, closed k = none) :
    Refines closed closed opened (.text elements) (.text elements) := by
  apply Refines.self rfl hopen
  intro closed' _ hzero env x _ y hy
  obtain ⟨q, hq, rfl⟩ := map_eq_some_iff.1 (mem_toList.1 hy)
  have hlen := (matchTests_forward hq).1
  rw [← textLength_eq] at hlen
  rw [RegExpTree.maxMatch] at hzero
  show q = x.position
  omega

theorem Refines.assertion (type : AssertionType) (hopen : ∀ k ∈ opened, closed k = none) :
    Refines closed closed opened (.assertion type) (.assertion type) := by
  apply Refines.self rfl hopen
  simp [RegExpTree.matcher]

/-- A back reference matches the empty string where the capture is not longer than it. -/
theorem matchBackReference_empty (env : Env) {k : Nat}
    (h : x.registers (endRegister k) ≤ x.registers (startRegister k) ∨ x.registers (endRegister k) = -1) :
    env.matchBackReference x (startRegister k) (endRegister k) = some x.position := by
  exact if_pos (by omega)

theorem Refines.backReference {k : Nat} (hk : closed k ≠ none) (hopen : ∀ k ∈ opened, closed k = none) :
    Refines closed closed opened (.backReference k) (.backReference k) := by
  apply Refines.self rfl hopen
  intro closed' hext hzero env x hx y hy
  obtain ⟨m, hm⟩ := ne_none_iff_exists'.1 hk
  rw [RegExpTree.maxMatch, hext k m hm] at hzero
  obtain rfl : m = 0 := hzero
  have hempty := matchBackReference_empty env (.inl (Int.le_of_eq (hx.empty k hm)))
  obtain ⟨q, hq, rfl⟩ := map_eq_some_iff.1 (mem_toList.1 hy)
  rw [hempty] at hq
  exact (some.inj hq).symm

/-- A reference to a group that is not closed. -/
theorem Refines.empty {k : Nat} (hk : closed k = none) (hopen : ∀ k ∈ opened, closed k = none) :
    Refines closed closed opened .empty (.backReference k) where
  captures k := by simp [RegExpTree.captures]
  extend := .refl closed
  unclosed := hopen
  kept _ hk := hk
  same env x hx := by
    have hempty := matchBackReference_empty env (.inr (hx.endUndefined k hk))
    apply Same.of_eq
    simp only [RegExpTree.matcher, hempty]
    rfl
  valid env x hx y hy := by rwa [mem_singleton.1 hy]
  zero _ _ _ env x _ y hy := by rw [mem_singleton.1 hy]

end Refines

end W16.RegExps
