import W16.DispatchTableSound

/-!
# Runs on a dispatch table

In a run where ranges for different values from 32 on do not meet, a table gives for each
character the values that were added for it, and the sets it has given stay as they are.
-/
namespace W16.DispatchTables

open List

open SplayTrees (Tree Represents OrderedMap)

set_option linter.dupNamespace false

inductive Op where
  | addRange (range : CharacterRange) (value : Nat)
  | get (c : Nat)
  | forEach

def step (d : DispatchTable) : Op → Option DispatchTable
  | .addRange range value => d.addRange range value
  | .get c => some (d.get c).1
  | .forEach => d.forEach.map fun _ => d

def run : DispatchTable → List Op → Option DispatchTable
  | d, [] => some d
  | d, op :: ops => (step d op).bind fun d => run d ops

/-- The calls of `AddRange`. -/
def added (ops : List Op) : List (CharacterRange × Nat) :=
  ops.filterMap fun
    | .addRange range value => some (range, value)
    | _ => none

variable {calls : List (CharacterRange × Nat)} {d d' : DispatchTable} {A : OrderedMap Nat Entry}
  {a b c f t v : Nat}

/-- A range with the value contains the character. -/
def Added (calls : List (CharacterRange × Nat)) (c v : Nat) : Prop :=
  ∃ x ∈ calls, x.2 = v ∧ x.1.from_ ≤ c ∧ c ≤ x.1.to_

/-- Where ranges begin, and where they have ended. -/
def CutOf (calls : List (CharacterRange × Nat)) (p : Nat) : Prop :=
  ∃ x ∈ calls, p = x.1.from_ ∨ p = x.1.to_ + 1

def Valid (calls : List (CharacterRange × Nat)) : Prop :=
  ∀ x ∈ calls, x.1.from_ ≤ x.1.to_ ∧ x.1.to_ < 2 ^ 16

/-- Ranges for different large values do not meet. -/
def Apart (x y : CharacterRange × Nat) : Prop :=
  kFirstLimit ≤ x.2 → kFirstLimit ≤ y.2 → x.2 ≠ y.2 → x.1.to_ < y.1.from_ ∨ y.1.to_ < x.1.from_

/-- Each range that was added contains the whole part or nothing of it. -/
def Uniform (calls : List (CharacterRange × Nat)) (f t : Nat) : Prop :=
  ∀ x ∈ calls, (x.1.from_ ≤ f ∧ t ≤ x.1.to_) ∨ t < x.1.from_ ∨ x.1.to_ < f

/-- A part of what was added that cannot be made larger. -/
structure MaximalPart (calls : List (CharacterRange × Nat)) (f t : Nat) : Prop where
  le : f ≤ t
  added : ∃ v, Added calls f v
  uniform : Uniform calls f t
  maximal : ∀ {f' t'}, f' ≤ f → t ≤ t' → Uniform calls f' t' → f' = f ∧ t' = t

/-- Two maximal parts that meet are the same. -/
theorem MaximalPart.eq {f' t' : Nat} (hvalid : Valid calls) (h : MaximalPart calls f t) (h' : MaximalPart calls f' t')
    (hf : f ≤ c) (ht : c ≤ t) (hf' : f' ≤ c) (ht' : c ≤ t') : f' = f ∧ t' = t := by
  have huniform : Uniform calls (min f f') (max t t') := by
    intro x hx
    have hle := (hvalid x hx).1
    rcases h.uniform x hx with h₁ | h₁ | h₁ <;> rcases h'.uniform x hx with h₂ | h₂ | h₂ <;> omega
  have h₁ := h.maximal (min_le_left f f') (le_max_left t t') huniform
  have h₂ := h'.maximal (min_le_right f f') (le_max_right t t') huniform
  omega

/-! ## Steps -/

theorem Sound.step_addRange (hvalid : Valid calls) (h : Sound d A (Added calls) (CutOf calls) (CutOf calls))
    (hab : a ≤ b) (hb : b < 2 ^ 16) (hapart : ∀ x ∈ calls, Apart x (⟨a, b⟩, v)) :
    ∃ d' A', d.addRange ⟨a, b⟩ v = some d' ∧
      Sound d' A' (Added (calls ++ [(⟨a, b⟩, v)])) (CutOf (calls ++ [(⟨a, b⟩, v)]))
        (CutOf (calls ++ [(⟨a, b⟩, v)])) ∧ Extends d.zone d'.zone := by
  have hadd : Adding (Added calls) (CutOf calls) (fun p => CutOf calls p ∨ p = a ∨ p = b + 1) a b v := by
    refine ⟨hb, ?_, .inr (.inr rfl), ?_⟩
    · rintro p - - ⟨x, hx, hp⟩
      have hle := (hvalid x hx).1
      rcases hp with rfl | rfl
      · exact ⟨x.2, .inl ⟨x, hx, rfl, le_rfl, hle⟩⟩
      · exact ⟨x.2, .inr ⟨x, hx, rfl, hle, le_rfl⟩⟩
    · rintro hv c hac hcb w ⟨x, hx, rfl, h₁, h₂⟩ hw
      by_contra hne
      have hcases := hapart x hx hw hv hne
      simp only at hcases
      omega
  obtain ⟨d', A', hres, hsound, hext⟩ := h.addRange hab hadd
  have hcut : ∀ p, CutOf (calls ++ [(⟨a, b⟩, v)]) p ↔ CutOf calls p ∨ p = a ∨ p = b + 1 := by
    simp [CutOf]
  refine ⟨d', A', hres, hsound.mono (fun c w => ?_) (fun p hp => (hcut p).1 hp) fun p hp => (hcut p).2 hp, hext⟩
  simp only [Added, Upto, mem_append, mem_singleton]
  constructor
  · grind
  · rintro (⟨x, hx, hw⟩ | ⟨h₁, h₂, rfl⟩)
    · exact ⟨x, .inl hx, hw⟩
    · exact ⟨_, .inr rfl, rfl, h₁, Nat.le_of_lt_succ h₂⟩

/-- What holds after the calls. -/
def Reached (d : DispatchTable) (calls : List (CharacterRange × Nat)) : Prop :=
  ∃ A, Sound d A (Added calls) (CutOf calls) (CutOf calls)

theorem reached_initial : Reached .initial [] := by
  have hempty : ∀ w, DispatchTable.initial.zone.get 0 w = false := by
    intro w
    show (if w < kFirstLimit then (0 : BitVec 32).getLsbD w else false) = false
    split
    · exact BitVec.getLsbD_zero
    · rfl
  have hset : ∀ {o : Nat} {s : OutSet}, DispatchTable.initial.zone.sets[o]? = some s → s = ⟨0, none, none⟩ := by
    grind -linarith [DispatchTable.initial]
  refine ⟨fun _ => none, .nil, fun k e => ⟨fun h => (nomatch h), fun h => nomatch h⟩, ?_, ⟨?_, ?_⟩,
    by decide, hempty⟩
  · refine ⟨fun h => (nomatch h), fun h => (nomatch h), fun h => (nomatch h), fun h => (nomatch h),
      fun h => (nomatch h), fun h => (nomatch h), ?_, fun h => (nomatch h), fun h => (nomatch h),
      fun h => nomatch h⟩
    rintro c v ⟨x, hx, -⟩
    cases hx
  · grind -linarith
  grind -linarith

theorem Reached.step (h : Reached d calls) (op : Op) (hvalid : Valid (calls ++ added [op]))
    (hapart : (calls ++ added [op]).Pairwise Apart) :
    ∃ d', step d op = some d' ∧ Reached d' (calls ++ added [op]) ∧ Extends d.zone d'.zone := by
  obtain ⟨A, hA⟩ := h
  cases op with
  | addRange range value =>
    obtain ⟨a, b⟩ := range
    have hrange := hvalid (⟨a, b⟩, value) (mem_append_right calls mem_cons_self)
    obtain ⟨d', A', hres, hsound, hext⟩ := hA.step_addRange
      (fun x hx => hvalid x (mem_append_left _ hx)) hrange.1 hrange.2
      (fun x hx => (pairwise_append.1 hapart).2.2 x hx _ mem_cons_self)
    exact ⟨d', hres, ⟨A', hsound⟩, hext⟩
  | get c =>
    have hget : (d.get c).1 = { d with tree := (d.tree.findGreatestLessThan c).1 } := by
      rw [DispatchTable.get]
      grind
    obtain ⟨hent, -, -⟩ := Tree.findGreatestLessThan_spec c hA.ordered
    rw [added, filterMap_cons_none rfl, filterMap_nil, append_nil]
    refine ⟨_, rfl, ⟨A, ?_⟩, ?_⟩
    · rw [hget]
      exact hA.of_entries hent
    · rw [hget]
      exact .refl _
  | forEach =>
    obtain ⟨visited, hvisit, -⟩ := d.tree.forEach_spec
    rw [added, filterMap_cons_none rfl, filterMap_nil, append_nil]
    exact ⟨d, by rw [W16.DispatchTables.step, DispatchTable.forEach, hvisit]; rfl, ⟨A, hA⟩, .refl _⟩

theorem added_append (ops ops' : List Op) : added (ops ++ ops') = added ops ++ added ops' :=
  filterMap_append

theorem Reached.run (h : Reached d calls) (ops : List Op) (hvalid : Valid (calls ++ added ops))
    (hapart : (calls ++ added ops).Pairwise Apart) :
    ∃ d', run d ops = some d' ∧ Reached d' (calls ++ added ops) ∧ Extends d.zone d'.zone := by
  induction ops generalizing d calls with
  | nil =>
    refine ⟨d, rfl, ?_, .refl _⟩
    rw [added, filterMap_nil, append_nil]
    exact h
  | cons op ops ih =>
    have hcons : calls ++ added (op :: ops) = calls ++ added [op] ++ added ops := by
      rw [append_assoc, ← added_append]
      rfl
    rw [hcons] at hvalid hapart ⊢
    obtain ⟨d₁, hstep, hreach, hext⟩ := h.step op (fun x hx => hvalid x (mem_append_left _ hx))
      (pairwise_append.1 hapart).1
    obtain ⟨d₂, hrun, hreach', hext'⟩ := ih hreach hvalid hapart
    refine ⟨d₂, ?_, hreach', hext.trans hext'⟩
    rw [W16.DispatchTables.run, hstep]
    exact hrun

/-! ## What is seen -/

theorem Sound.maximalPart (hvalid : Valid calls)
    (h : Sound d A (Added calls) (CutOf calls) (CutOf calls)) {k : Nat} {e : Entry}
    (hk : A k = some e) : MaximalPart calls k e.to_ := by
  have hle : k ≤ e.to_ := by
    rw [← h.covers.key hk]
    exact h.covers.nonempty hk
  refine ⟨hle, h.covers.used hk, fun x hx => ?_, fun {f' t'} hf ht huniform => ?_⟩
  · have hfrom : ¬(k < x.1.from_ ∧ x.1.from_ ≤ e.to_) := fun hin =>
      h.covers.cut hk hin.1 hin.2 ⟨x, hx, .inl rfl⟩
    have hto : ¬(k < x.1.to_ + 1 ∧ x.1.to_ + 1 ≤ e.to_) := fun hin =>
      h.covers.cut hk hin.1 hin.2 ⟨x, hx, .inr rfl⟩
    omega
  · obtain ⟨⟨x, hx, hxk⟩, ⟨y, hy, hyk⟩⟩ := h.covers.ends hk
    have hxle := (hvalid x hx).1
    have hyle := (hvalid y hy).1
    have hxu := huniform x hx
    have hyu := huniform y hy
    omega

/-- What a table that has been reached by the calls shows, where `d'` is any later one. -/
structure Shows (d d' : DispatchTable) (calls : List (CharacterRange × Nat)) : Prop where
  get : ∀ c, (d.get c).2 < d.zone.sets.length ∧ ∀ v, d'.zone.get (d.get c).2 v = true ↔ Added calls c v
  kept : ∀ o < d.zone.sets.length, ∀ v, d'.zone.get o v = d.zone.get o v
  forEach : ∃ l, d.forEach = some l ∧ l.Pairwise (fun x y => x.2.to_ < y.2.from_ ∨ y.2.to_ < x.2.from_) ∧
    (∀ f t, MaximalPart calls f t ↔ ∃ x ∈ l, x.2.from_ = f ∧ x.2.to_ = t) ∧
    ∀ x ∈ l, ∀ v, d.zone.get x.2.outSet v = true ↔ Added calls x.2.from_ v

theorem Reached.shows (hvalid : Valid calls) (h : Reached d calls) (hext : Extends d.zone d'.zone) :
    Shows d d' calls := by
  obtain ⟨A, hA⟩ := h
  refine ⟨fun c => ?_, hext.get, ?_⟩
  · obtain ⟨hent, hsome, hnone⟩ := Tree.findGreatestLessThan_spec c hA.ordered
    have hfree : (∀ k e, A k = some e → k ≤ c → e.to_ < c) → ∀ v, d'.zone.get 0 v = true ↔ Added calls c v := by
      intro hout v
      rw [hext.get 0 hA.exists_empty, hA.empty]
      refine ⟨fun hv => (nomatch hv), fun hv => ?_⟩
      obtain ⟨k, e, hk, h₁, h₂⟩ := hA.covers.covered hv
      grind
    rw [DispatchTable.get]
    generalize d.tree.findGreatestLessThan c = r at hent hsome hnone
    obtain ⟨tree, _ | ⟨k, e⟩⟩ := r
    · refine ⟨hA.exists_empty, hfree fun k e hk hkc => ?_⟩
      have := hnone rfl (k, e) ((hA.represents k e).1 hk)
      omega
    · obtain ⟨hmem, hkc, hgreatest⟩ := hsome (k, e) rfl
      have hk : A k = some e := (hA.represents k e).2 hmem
      by_cases hc : c ≤ e.to_
      · simp only [if_pos hc]
        refine ⟨hA.covers.set hk, fun v => ?_⟩
        rw [hext.get _ (hA.covers.set hk)]
        exact hA.covers.values hk hkc hc v
      · simp only [if_neg hc]
        refine ⟨hA.exists_empty, hfree fun i y hi hic => ?_⟩
        -- an entry with the character would contain the key that was found
        by_contra hto
        have hle : i ≤ k := hgreatest (i, y) ((hA.represents i y).1 hi) hic
        have hke : k ≤ e.to_ := by
          rw [← hA.covers.key hk]
          exact hA.covers.nonempty hk
        have hik := hA.covers.disjoint hi hk hle (by omega) (Nat.le_refl k) hke
        grind
  · obtain ⟨visited, hvisit, hperm⟩ := d.tree.forEach_spec
    have hentry : ∀ x ∈ visited, A x.1 = some x.2 ∧ x.2.from_ = x.1 := by
      intro x hx
      have hx' := (hA.represents x.1 x.2).2 (hperm.mem_iff.1 hx)
      exact ⟨hx', hA.covers.key hx'⟩
    have hdist : visited.Pairwise fun x y => x.1 ≠ y.1 :=
      (hperm.pairwise_iff fun h => h.symm).2 (hA.ordered.imp ne_of_lt)
    refine ⟨visited, hvisit, ?_, fun f t => ⟨fun hpart => ?_, ?_⟩, fun x hx => ?_⟩
    · refine hdist.imp_of_mem fun {x y} hx hy hne => ?_
      obtain ⟨hx, hxf⟩ := hentry x hx
      obtain ⟨hy, hyf⟩ := hentry y hy
      have hxle := hA.covers.nonempty hx
      have hyle := hA.covers.nonempty hy
      by_contra hmeet
      exact hne (hA.covers.disjoint (c := max x.1 y.1) hx hy (by omega) (by omega) (by omega) (by omega))
    · obtain ⟨v, hv⟩ := hpart.added
      obtain ⟨k, e, hk, h₁, h₂⟩ := hA.covers.covered hv
      obtain ⟨hkf, het⟩ := hpart.eq hvalid (hA.maximalPart hvalid hk) (Nat.le_refl f) hpart.le h₁ h₂
      exact ⟨(k, e), hperm.mem_iff.2 ((hA.represents k e).1 hk), (hA.covers.key hk).trans hkf, het⟩
    · rintro ⟨x, hx, rfl, rfl⟩
      obtain ⟨hx, hxf⟩ := hentry x hx
      rw [hxf]
      exact hA.maximalPart hvalid hx
    · obtain ⟨hx, hxf⟩ := hentry x hx
      have hle := hA.covers.nonempty hx
      exact hA.covers.values hx (by omega) hle

/-- A dispatch table maps characters to the values added for them, as long as ranges for
different values from 32 on do not meet. -/
theorem run_shows (before after : List Op) (hvalid : Valid (added (before ++ after)))
    (hapart : (added (before ++ after)).Pairwise Apart) :
    ∃ d d', run .initial before = some d ∧ run d after = some d' ∧ Shows d d' (added before) := by
  rw [added_append] at hvalid hapart
  obtain ⟨d, hrun, hreached, -⟩ := reached_initial.run before
    (fun x hx => hvalid x (mem_append_left _ hx)) (pairwise_append.1 hapart).1
  obtain ⟨d', hrun', -, hext⟩ := hreached.run after hvalid hapart
  exact ⟨d, d', hrun, hrun', hreached.shows (fun x hx => hvalid x (mem_append_left _ hx)) hext⟩

/-- Ranges for a small value and for two large ones that do not meet. -/
theorem run_shows_small : let before : List Op := [.addRange ⟨0, 10⟩ 1, .addRange ⟨5, 20⟩ 40]
    let after : List Op := [.get 7, .addRange ⟨30, 31⟩ 41]
    ∃ d d', run .initial before = some d ∧ run d after = some d' ∧ Shows d d' (added before) :=
  run_shows _ _ (show ∀ x ∈ [_, _, _], _ by decide) (by simp [added, Apart, kFirstLimit])

/-- Two ranges for large values meet. The set of the first one shares its list with the set
that extends it, and all of its characters get both values. -/
theorem shared_list_changes : ∃ d, run .initial [.addRange ⟨0, 10⟩ 32, .addRange ⟨0, 5⟩ 33] = some d ∧
      d.zone.get (d.get 7).2 33 = true ∧ ¬Added [(⟨0, 10⟩, 32), (⟨0, 5⟩, 33)] 7 33 := by
  refine ⟨_, rfl, by decide, ?_⟩
  rintro ⟨x, hx, hv, h₁, h₂⟩
  grind

end W16.DispatchTables
