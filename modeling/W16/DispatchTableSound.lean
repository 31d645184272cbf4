import W16.DispatchTable

/-!
# What adding a range does

The table is followed as the map `A` from keys to entries that its tree represents. A range
is added part by part: a free part gets an entry, an entry is split, or an entry gets a
value.
-/
namespace W16.DispatchTables

open Option Function

open SplayTrees (Tree Represents OrderedMap)

set_option linter.dupNamespace false

variable {t : Tree Nat Entry} {A : OrderedMap Nat Entry} {z z' : Zone}

/-! ## References to entries -/

theorem entryAt_eq (ht : t.Ordered) (hA : Represents t A) (k : Nat) : entryAt t k = A k := by
  rw [entryAt]
  cases h : A k with
  | none =>
    rw [map_eq_none_iff, List.find?_eq_none]
    intro x hx hk
    have hsome := (hA x.1 x.2).2 hx
    grind
  | some e =>
    have hmem := (hA k e).1 h
    cases hfind : t.entries.find? fun x => x.1 = k with
    | none =>
      grind
    | some x =>
      have hx := List.mem_of_find?_eq_some hfind
      have hk : x.1 = k := by simpa using List.find?_some hfind
      rw [ht.eq_of_key hx hmem hk]
      rfl

theorem represents_setValue (ht : t.Ordered) (hA : Represents t A) {k : Nat} {e : Entry}
    (hk : A k = some e) (e' : Entry) :
    Represents (t.setValue k e') (Function.update A k (some e')) ∧ (t.setValue k e').Ordered :=
  hA.write ht ((hA k e).1 hk) (some e')

/-- Insertion does not change the entries of other keys, and the new entry may then be set. -/
structure Inserted (t : Tree Nat Entry) (A : OrderedMap Nat Entry) (key : Nat) : Prop where
  ordered : (insertKey t key).Ordered
  entryAt : ∀ k ≠ key, entryAt (insertKey t key) k = A k
  setRoot : ∀ e, Represents (setRoot (insertKey t key) e) (Function.update A key (some e)) ∧
    (setRoot (insertKey t key) e).Ordered

theorem inserted (ht : t.Ordered) (hA : Represents t A) (key : Nat) : Inserted t A key := by
  obtain ⟨hord, hcases⟩ := Tree.insert_spec kNoValue key ht
  have hord : (insertKey t key).Ordered := hord
  have hA' : ∃ e, (insertKey t key).root = some (key, e) ∧ (key, e) ∈ (insertKey t key).entries ∧
      Represents (insertKey t key) (Function.update A key (some e)) := by
    rcases hcases with ⟨-, hnew, hroot, hmem⟩ | ⟨-, hent, e, hroot, he⟩
    · refine ⟨kNoValue, hroot, (hmem _).2 (.inl rfl), hA.update fun x => (hmem x).trans ?_⟩
      grind
    · refine ⟨e, hroot, hent.symm ▸ he, ?_⟩
      rw [← (hA key e).2 he, update_eq_self]
      exact hA.of_entries hent
  obtain ⟨e₀, hroot, hmem, hrep⟩ := hA'
  refine ⟨hord, fun k hk => ?_, fun e => ?_⟩
  · rw [entryAt_eq hord hrep, update_of_ne hk]
  · have := represents_setValue hord hrep (update_self ..) e
    simp_all [W16.DispatchTables.setRoot]

/-! ## Tables of ranges -/

/-- The table says of each character for which values it has been added. No entry has a cut
in it, and all begin and end where they may. -/
structure Covers (A : OrderedMap Nat Entry) (z : Zone) (P : Nat → Nat → Prop) (Cut End : Nat → Prop) :
    Prop where
  key : ∀ {k e}, A k = some e → e.from_ = k
  nonempty : ∀ {k e}, A k = some e → e.from_ ≤ e.to_
  bound : ∀ {k e}, A k = some e → e.to_ < 2 ^ 16
  set : ∀ {k e}, A k = some e → e.outSet < z.sets.length
  disjoint : ∀ {k k' e e' c}, A k = some e → A k' = some e' → k ≤ c → c ≤ e.to_ → k' ≤ c → c ≤ e'.to_ → k = k'
  values : ∀ {k e c}, A k = some e → k ≤ c → c ≤ e.to_ → ∀ v, z.get e.outSet v = true ↔ P c v
  covered : ∀ {c v}, P c v → ∃ k e, A k = some e ∧ k ≤ c ∧ c ≤ e.to_
  used : ∀ {k e}, A k = some e → ∃ v, P k v
  cut : ∀ {k e p}, A k = some e → k < p → p ≤ e.to_ → ¬Cut p
  ends : ∀ {k e}, A k = some e → End k ∧ End (e.to_ + 1)

variable {P P' : Nat → Nat → Prop} {Cut Cut' End End' : Nat → Prop} {f g k v : Nat} {e : Entry}

theorem Covers.mono (h : Covers A z P Cut End) (hP : ∀ c v, P' c v ↔ P c v)
    (hcut : ∀ p, Cut' p → Cut p) (hend : ∀ p, End p → End' p) : Covers A z P' Cut' End' where
  key := h.key
  nonempty := h.nonempty
  bound := h.bound
  set := h.set
  disjoint := h.disjoint
  values he h₁ h₂ v := (h.values he h₁ h₂ v).trans (hP _ v).symm
  covered hc := h.covered ((hP _ _).1 hc)
  used he := (h.used he).imp fun v hv => (hP _ v).2 hv
  cut he h₁ h₂ hp := h.cut he h₁ h₂ (hcut _ hp)
  ends he := ⟨hend _ (h.ends he).1, hend _ (h.ends he).2⟩

/-- No entry goes over the place before `p`. -/
def Clear (A : OrderedMap Nat Entry) (p : Nat) : Prop := ∀ k e, A k = some e → k < p → e.to_ < p

theorem Covers.cut_of_clear (h : Covers A z P Cut End) {p : Nat} (hp : Clear A p) :
    Covers A z P (fun q => Cut q ∨ q = p) End := by
  refine { h with cut := ?_ }
  rintro k e q he h₁ h₂ (hq | rfl)
  · exact h.cut he h₁ h₂ hq
  · exact Nat.not_lt.2 h₂ (hp k e he h₁)

/-- An entry is split. -/
theorem Covers.split (h : Covers A z P Cut End) (hk : A k = some e) (hkf : k < f) (hfe : f ≤ e.to_)
    (hf : End f) :
    Covers (Function.update (Function.update A k (some { e with to_ := f - 1 })) f
      (some ⟨f, e.to_, e.outSet⟩)) z P (fun q => Cut q ∨ q = f) End := by
  have hkey := h.key hk
  -- an entry of the new map is a part of an entry of the old one
  have hpart : ∀ {i x}, Function.update (Function.update A k (some { e with to_ := f - 1 })) f
      (some ⟨f, e.to_, e.outSet⟩) i = some x →
      (i = f ∧ x = ⟨f, e.to_, e.outSet⟩) ∨ (i = k ∧ x = { e with to_ := f - 1 }) ∨
        (i ≠ f ∧ i ≠ k ∧ A i = some x) := by
    grind
  constructor
  · intro i x hi
    rcases hpart hi with ⟨rfl, rfl⟩ | ⟨rfl, rfl⟩ | ⟨-, -, ho⟩
    · rfl
    · exact hkey
    · exact h.key ho
  · intro i x hi
    rcases hpart hi with ⟨rfl, rfl⟩ | ⟨rfl, rfl⟩ | ⟨-, -, ho⟩
    · exact hfe
    · show e.from_ ≤ f - 1
      omega
    · exact h.nonempty ho
  · intro i x hi
    have hbound := h.bound hk
    rcases hpart hi with ⟨rfl, rfl⟩ | ⟨rfl, rfl⟩ | ⟨-, -, ho⟩
    · exact hbound
    · show f - 1 < 2 ^ 16
      omega
    · exact h.bound ho
  · intro i x hi
    rcases hpart hi with ⟨rfl, rfl⟩ | ⟨rfl, rfl⟩ | ⟨-, -, ho⟩
    · show e.outSet < z.sets.length
      exact h.set hk
    · show e.outSet < z.sets.length
      exact h.set hk
    · exact h.set ho
  · intro i j x y c hi hj h₁ h₂ h₃ h₄
    rcases hpart hi with ⟨rfl, rfl⟩ | ⟨rfl, rfl⟩ | ⟨hif, hik, ho⟩ <;>
      rcases hpart hj with ⟨rfl, rfl⟩ | ⟨rfl, rfl⟩ | ⟨hjf, hjk, hp⟩
    · rfl
    · simp only at h₄
      omega
    · exact absurd (h.disjoint hk hp (by omega) h₂ h₃ h₄).symm hjk
    · simp only at h₂
      omega
    · rfl
    · simp only at h₂
      exact absurd (h.disjoint hk hp h₁ (by omega) h₃ h₄).symm hjk
    · exact absurd (h.disjoint hk ho (by omega) h₄ h₁ h₂).symm hik
    · simp only at h₄
      exact absurd (h.disjoint hk ho h₃ (by omega) h₁ h₂).symm hik
    · exact h.disjoint ho hp h₁ h₂ h₃ h₄
  · intro i x c hi h₁ h₂
    rcases hpart hi with ⟨rfl, rfl⟩ | ⟨rfl, rfl⟩ | ⟨-, -, ho⟩
    · show ∀ v, z.get e.outSet v = true ↔ P c v
      exact h.values hk (by omega) h₂
    · simp only at h₂
      show ∀ v, z.get e.outSet v = true ↔ P c v
      exact h.values hk h₁ (by omega)
    · exact h.values ho h₁ h₂
  · intro c w hc
    obtain ⟨i, x, hi, h₁, h₂⟩ := h.covered hc
    by_cases hik : i = k
    · subst hik
      obtain rfl := some.inj (hi.symm.trans hk)
      by_cases hcf : c < f
      · grind
      · exact ⟨f, ⟨f, x.to_, x.outSet⟩, update_self .., by omega, h₂⟩
    · have hif : i ≠ f := by
        rintro rfl
        exact hik (h.disjoint hi hk (le_rfl) (by omega) (by omega) hfe)
      grind
  · intro i x hi
    obtain ⟨w, hw⟩ := h.used hk
    rcases hpart hi with ⟨rfl, rfl⟩ | ⟨rfl, rfl⟩ | ⟨-, -, ho⟩
    · have hget := (h.values hk (Nat.le_refl k) (by omega) w).2 hw
      exact ⟨w, (h.values hk (by omega) hfe w).1 hget⟩
    · exact ⟨w, hw⟩
    · exact h.used ho
  · intro i x p hi h₁ h₂ hp
    rcases hpart hi with ⟨rfl, rfl⟩ | ⟨rfl, rfl⟩ | ⟨hif, hik, ho⟩
    · rcases hp with hp | rfl
      · exact h.cut hk (by omega) h₂ hp
      · exact lt_irrefl _ h₁
    · simp only at h₂
      rcases hp with hp | rfl
      · exact h.cut hk h₁ (by omega) hp
      · omega
    · rcases hp with hp | rfl
      · exact h.cut ho h₁ h₂ hp
      · exact hik (h.disjoint ho hk (by omega) h₂ (by omega) hfe)
  · intro i x hi
    rcases hpart hi with ⟨rfl, rfl⟩ | ⟨rfl, rfl⟩ | ⟨-, -, ho⟩
    · exact ⟨hf, (h.ends hk).2⟩
    · refine ⟨(h.ends hk).1, ?_⟩
      rw [Nat.sub_add_cancel (by omega)]
      exact hf
    · exact h.ends ho

/-- The relation with one value more for a range. -/
def Plus (P : Nat → Nat → Prop) (f g v : Nat) : Nat → Nat → Prop := fun c w =>
  P c w ∨ (f ≤ c ∧ c ≤ g ∧ w = v)

/-- An entry gets a value. -/
theorem Covers.mark (h : Covers A z P Cut End) (hk : A k = some e) {r : Zone × Nat}
    (hr : Extended z e.outSet v r) :
    Covers (Function.update A k (some { e with outSet := r.2 })) r.1 (Plus P k e.to_ v) Cut End := by
  have hpart : ∀ {i x}, Function.update A k (some { e with outSet := r.2 }) i = some x →
      (i = k ∧ x = { e with outSet := r.2 }) ∨ (i ≠ k ∧ A i = some x) := by
    grind
  -- an entry of the new map is one of the old map with the same range
  have hold : ∀ {i x}, Function.update A k (some { e with outSet := r.2 }) i = some x →
      ∃ y, A i = some y ∧ y.from_ = x.from_ ∧ y.to_ = x.to_ := by
    grind
  constructor
  · intro i x hi
    obtain ⟨y, hy, hfrom, -⟩ := hold hi
    rw [← hfrom]
    exact h.key hy
  · intro i x hi
    obtain ⟨y, hy, hfrom, hto⟩ := hold hi
    rw [← hfrom, ← hto]
    exact h.nonempty hy
  · intro i x hi
    obtain ⟨y, hy, -, hto⟩ := hold hi
    rw [← hto]
    exact h.bound hy
  · intro i x hi
    rcases hpart hi with ⟨rfl, rfl⟩ | ⟨-, ho⟩
    · exact hr.lt
    · exact lt_of_lt_of_le (h.set ho) hr.extends_zone.length
  · intro i j x y c hi hj h₁ h₂ h₃ h₄
    obtain ⟨x', hx, -, hxto⟩ := hold hi
    obtain ⟨y', hy, -, hyto⟩ := hold hj
    exact h.disjoint hx hy h₁ (hxto ▸ h₂) h₃ (hyto ▸ h₄)
  · intro i x c hi h₁ h₂ w
    rcases hpart hi with ⟨rfl, rfl⟩ | ⟨hik, ho⟩
    · have hvalue := h.values hk h₁ h₂ w
      rw [Plus, ← hvalue, hr.get, Bool.or_eq_true, decide_eq_true_iff]
      grind
    · have hvalue := h.values ho h₁ h₂ w
      rw [Plus, ← hvalue, hr.extends_zone.get _ (h.set ho)]
      refine ⟨.inl, ?_⟩
      rintro (hw | ⟨h₃, h₄, -⟩)
      · exact hw
      · exact absurd (h.disjoint ho hk h₁ h₂ h₃ h₄) hik
  · intro c w hc
    have hexists : ∃ i y, A i = some y ∧ i ≤ c ∧ c ≤ y.to_ := by
      rcases hc with hc | ⟨h₁, h₂, -⟩
      · exact h.covered hc
      · exact ⟨k, e, hk, h₁, h₂⟩
    grind
  · intro i x hi
    obtain ⟨y, hy, -, -⟩ := hold hi
    exact (h.used hy).imp fun _ hw => .inl hw
  · intro i x p hi h₁ h₂
    obtain ⟨y, hy, -, hto⟩ := hold hi
    exact h.cut hy h₁ (hto ▸ h₂)
  · intro i x hi
    obtain ⟨y, hy, -, hto⟩ := hold hi
    rw [← hto]
    exact h.ends hy

/-- A free range gets an entry. -/
theorem Covers.add (h : Covers A z P Cut End) (hfg : f ≤ g) (hg : g < 2 ^ 16)
    (hfree : ∀ k e, A k = some e → e.to_ < f ∨ g < k) {r : Zone × Nat} (hr : Extended z 0 v r)
    (hempty : ∀ w, z.get 0 w = false) (hcut : ∀ p, f < p → p ≤ g → ¬Cut p) (hf : End f)
    (hend : End (g + 1)) :
    Covers (Function.update A f (some ⟨f, g, r.2⟩)) r.1 (Plus P f g v) Cut End := by
  have hpart : ∀ {i x}, Function.update A f (some ⟨f, g, r.2⟩) i = some x →
      (i = f ∧ x = ⟨f, g, r.2⟩) ∨ (i ≠ f ∧ A i = some x) := by
    grind
  have hnone : ∀ {i y c}, A i = some y → i ≤ c → c ≤ y.to_ → f ≤ c → c ≤ g → False := by
    grind
  constructor
  · intro i x hi
    rcases hpart hi with ⟨rfl, rfl⟩ | ⟨-, ho⟩
    · rfl
    · exact h.key ho
  · intro i x hi
    rcases hpart hi with ⟨rfl, rfl⟩ | ⟨-, ho⟩
    · exact hfg
    · exact h.nonempty ho
  · intro i x hi
    rcases hpart hi with ⟨rfl, rfl⟩ | ⟨-, ho⟩
    · exact hg
    · exact h.bound ho
  · intro i x hi
    rcases hpart hi with ⟨rfl, rfl⟩ | ⟨-, ho⟩
    · exact hr.lt
    · exact lt_of_lt_of_le (h.set ho) hr.extends_zone.length
  · intro i j x y c hi hj h₁ h₂ h₃ h₄
    rcases hpart hi with ⟨rfl, rfl⟩ | ⟨-, ho⟩ <;> rcases hpart hj with ⟨rfl, rfl⟩ | ⟨-, hp⟩
    · rfl
    · exact (hnone hp h₃ h₄ h₁ h₂).elim
    · exact (hnone ho h₁ h₂ h₃ h₄).elim
    · exact h.disjoint ho hp h₁ h₂ h₃ h₄
  · intro i x c hi h₁ h₂ w
    rcases hpart hi with ⟨rfl, rfl⟩ | ⟨-, ho⟩
    · have hnot : ¬P c w := by
        intro hc
        obtain ⟨j, y, hy, h₃, h₄⟩ := h.covered hc
        exact hnone hy h₃ h₄ h₁ h₂
      rw [Plus, or_iff_right hnot, hr.get, hempty, Bool.false_or, decide_eq_true_iff]
      grind
    · rw [Plus, hr.extends_zone.get _ (h.set ho), h.values ho h₁ h₂]
      grind
  · intro c w hc
    rcases hc with hc | ⟨h₁, h₂, -⟩
    · obtain ⟨i, y, hy, h₁, h₂⟩ := h.covered hc
      grind
    · exact ⟨f, _, update_self .., h₁, h₂⟩
  · intro i x hi
    rcases hpart hi with ⟨rfl, rfl⟩ | ⟨-, ho⟩
    · exact ⟨v, .inr ⟨le_rfl, hfg, rfl⟩⟩
    · exact (h.used ho).imp fun _ hw => .inl hw
  · intro i x p hi h₁ h₂
    rcases hpart hi with ⟨rfl, rfl⟩ | ⟨-, ho⟩
    · exact hcut p h₁ h₂
    · exact h.cut ho h₁ h₂
  · intro i x hi
    rcases hpart hi with ⟨rfl, rfl⟩ | ⟨-, ho⟩
    · exact ⟨hf, hend⟩
    · exact h.ends ho

/-! ## The steps of the code -/

/-- A table, the map that its tree represents, and what it says of characters. -/
structure Sound (d : DispatchTable) (A : OrderedMap Nat Entry) (P : Nat → Nat → Prop)
    (Cut End : Nat → Prop) : Prop where
  ordered : d.tree.Ordered
  represents : Represents d.tree A
  covers : Covers A d.zone P Cut End
  good : Good d.zone
  exists_empty : 0 < d.zone.sets.length
  empty : ∀ w, d.zone.get 0 w = false

variable {d : DispatchTable} {a b : Nat}

theorem uc16_pred (hf : 0 < f) (hle : f ≤ 2 ^ 16) : uc16 (f + (2 ^ 16 - 1)) = f - 1 := by
  unfold uc16
  omega

theorem uc16_succ (hb : b + 1 < 2 ^ 16) : uc16 (b + 1) = b + 1 := Nat.mod_eq_of_lt hb

theorem Sound.mono (h : Sound d A P Cut End) (hP : ∀ c v, P' c v ↔ P c v)
    (hcut : ∀ p, Cut' p → Cut p) (hend : ∀ p, End p → End' p) : Sound d A P' Cut' End' :=
  { h with covers := h.covers.mono hP hcut hend }

/-- Searching changes only the shape of the tree. -/
theorem Sound.of_entries (h : Sound d A P Cut End) (ht : t.entries = d.tree.entries) :
    Sound { d with tree := t } A P Cut End :=
  { h with
    ordered := by
      rw [Tree.Ordered, ht]
      exact h.ordered
    represents := h.represents.of_entries ht }

theorem Sound.addFree (h : Sound d A P Cut End) (hfg : f ≤ g) (hg : g < 2 ^ 16)
    (hfree : ∀ k e, A k = some e → e.to_ < f ∨ g < k) (hcut : ∀ p, f < p → p ≤ g → ¬Cut p)
    (hf : End f) (hend : End (g + 1)) :
    ∃ o, Sound (d.addFree ⟨f, g⟩ v) (Function.update A f (some ⟨f, g, o⟩)) (Plus P f g v) Cut End ∧
      Extends d.zone (d.addFree ⟨f, g⟩ v).zone := by
  have hr : Extended d.zone 0 v (d.zone.extend 0 v) :=
    extend_spec h.good h.exists_empty fun _ w hw => by rw [h.empty] at hw; cases hw
  obtain ⟨hrep, hord⟩ := (inserted h.ordered h.represents f).setRoot ⟨f, g, (d.zone.extend 0 v).2⟩
  refine ⟨_, ⟨hord, hrep, h.covers.add hfg hg hfree hr h.empty hcut hf hend, hr.good, ?_, ?_⟩,
    hr.extends_zone⟩
  · exact lt_of_lt_of_le h.exists_empty hr.extends_zone.length
  · exact fun w => (hr.extends_zone.get 0 h.exists_empty w).trans (h.empty w)

theorem Sound.addValue (h : Sound d A P Cut End) (hk : A k = some e)
    (hlarge : kFirstLimit ≤ v → ∀ w, d.zone.get e.outSet w = true → kFirstLimit ≤ w → w = v) :
    ∃ d' o, d.addValue k v = some d' ∧ Sound d' (Function.update A k (some { e with outSet := o }))
      (Plus P k e.to_ v) Cut End ∧ Extends d.zone d'.zone := by
  have hr := extend_spec h.good (h.covers.set hk) hlarge
  obtain ⟨hrep, hord⟩ := represents_setValue h.ordered h.represents hk
    { e with outSet := (d.zone.extend e.outSet v).2 }
  refine ⟨⟨d.tree.setValue k { e with outSet := (d.zone.extend e.outSet v).2 },
    (d.zone.extend e.outSet v).1⟩, _, ?_, ⟨hord, hrep, h.covers.mark hk hr, hr.good, ?_, ?_⟩,
    hr.extends_zone⟩
  · rw [DispatchTable.addValue, entryAt_eq h.ordered h.represents, hk]
    rfl
  · exact lt_of_lt_of_le h.exists_empty hr.extends_zone.length
  · exact fun w => (hr.extends_zone.get 0 h.exists_empty w).trans (h.empty w)

theorem Sound.splitRight (h : Sound d A P Cut End) (hk : A k = some e) (hkb : k ≤ b) (hb : End (b + 1)) :
    ∃ d' A' e', d.splitRight k b = some d' ∧ d'.zone = d.zone ∧ Sound d' A' P Cut End ∧
      A' k = some e' ∧ e'.to_ ≤ b ∧ k ≤ e'.to_ ∧ e'.outSet = e.outSet := by
  have hbound := h.covers.bound hk
  have hentry := entryAt_eq h.ordered h.represents k
  rw [hk] at hentry
  by_cases hsplit : e.to_ > b
  · have hne : k ≠ b + 1 := by omega
    have hins := inserted h.ordered h.represents (b + 1)
    obtain ⟨hrep, hord⟩ := hins.setRoot ⟨b + 1, e.to_, e.outSet⟩
    have hk' : Function.update A (b + 1) (some ⟨b + 1, e.to_, e.outSet⟩) k = some e := by
      rw [update_of_ne hne, hk]
    obtain ⟨hrep', hord'⟩ := represents_setValue hord hrep hk' { e with to_ := b }
    have hcov := h.covers.split hk (by omega : k < b + 1) hsplit hb
    rw [Nat.add_sub_cancel, update_comm hne] at hcov
    refine ⟨⟨(setRoot (insertKey d.tree (b + 1)) ⟨b + 1, e.to_, e.outSet⟩).setValue k
      { e with to_ := b }, d.zone⟩, _, { e with to_ := b }, ?_, rfl, ⟨hord', hrep', ?_, h.good,
      h.exists_empty, h.empty⟩, update_self .., le_rfl, hkb, rfl⟩
    · have hafter := entryAt_eq hord hrep k
      rw [hk'] at hafter
      have hbtw := hins.entryAt k hne
      rw [hk] at hbtw
      rw [DispatchTable.splitRight, hentry]
      simp only [bind_eq_bind, bind_some, if_pos hsplit, uc16_succ (by omega : b + 1 < 2 ^ 16),
        hbtw, hafter]
    · exact hcov.mono (fun _ _ => Iff.rfl) (fun _ hp => .inl hp) fun _ hp => hp
  · refine ⟨d, A, e, ?_, rfl, h, hk, Nat.not_lt.1 hsplit, ?_, rfl⟩
    · rw [DispatchTable.splitRight, hentry]
      grind
    · rw [← h.covers.key hk]
      exact h.covers.nonempty hk

theorem Sound.splitLeft (h : Sound d A P Cut End) (hf : f < 2 ^ 16) (hend : End f) :
    ∃ d' A', d.splitLeft f = some d' ∧ d'.zone = d.zone ∧ Sound d' A' P Cut End ∧ Clear A' f := by
  obtain ⟨hent, hsome, hnone⟩ := Tree.findGreatestLessThan_spec f h.ordered
  have h' := h.of_entries hent
  rw [DispatchTable.splitLeft]
  generalize d.tree.findGreatestLessThan f = r at hent hsome hnone h'
  obtain ⟨tree, loc⟩ := r
  cases loc with
  | none =>
    refine ⟨_, A, rfl, rfl, h', fun k e he hk => ?_⟩
    have := hnone rfl (k, e) ((h.represents k e).1 he)
    omega
  | some x =>
    obtain ⟨k, e⟩ := x
    obtain ⟨hmem, hkf, hgreatest⟩ := hsome (k, e) rfl
    have hk : A k = some e := (h.represents k e).2 hmem
    have hkey := h.covers.key hk
    by_cases hover : e.from_ < f ∧ e.to_ ≥ f
    · have hne : k ≠ f := by omega
      have hpred : uc16 (f + (2 ^ 16 - 1)) = f - 1 := uc16_pred (by omega) (by omega)
      obtain ⟨hrep, hord⟩ := represents_setValue h'.ordered h'.represents hk { e with to_ := f - 1 }
      have hins := inserted hord hrep f
      obtain ⟨hrep', hord'⟩ := hins.setRoot ⟨f, e.to_, e.outSet⟩
      have hbtw := hins.entryAt k hne
      rw [update_self] at hbtw
      have hcov := h.covers.split hk (by omega) hover.2 hend
      refine ⟨⟨setRoot (insertKey (tree.setValue k { e with to_ := f - 1 }) f) ⟨f, e.to_, e.outSet⟩,
        d.zone⟩, _, ?_, rfl, ⟨hord', hrep', ?_, h.good, h.exists_empty, h.empty⟩, ?_⟩
      · grind
      · exact hcov.mono (fun _ _ => Iff.rfl) (fun _ hp => .inl hp) fun _ hp => hp
      · intro i y hi hif
        by_contra hto
        exact hcov.cut hi hif (Nat.not_lt.1 hto) (.inr rfl)
    · refine ⟨{ d with tree := tree }, A, by simp only [if_neg hover], rfl, h', fun i y hi hif => ?_⟩
      -- an entry over the place would contain the key that was found
      by_contra hto
      have hle := hgreatest (i, y) ((h.represents i y).1 hi) (le_of_lt hif)
      have hi' : i = k := h.covers.disjoint hi hk hle (by omega) (le_rfl) (hkey ▸ h.covers.nonempty hk)
      grind

/-! ## The loop -/

/-- A relation with the part of a range that has been added. -/
def Upto (P : Nat → Nat → Prop) (a f v : Nat) : Nat → Nat → Prop := fun c w =>
  P c w ∨ (a ≤ c ∧ c < f ∧ w = v)

theorem plus_upto (haf : a ≤ f) (hfg : f ≤ g) (c w : Nat) :
    Plus (Upto P a f v) f g v c w ↔ Upto P a (g + 1) v c w := by
  constructor
  · rintro ((h | ⟨h₁, h₂, rfl⟩) | ⟨h₁, h₂, rfl⟩)
    · exact .inl h
    · exact .inr ⟨h₁, by omega, rfl⟩
    · exact .inr ⟨by omega, by omega, rfl⟩
  · rintro (h | ⟨h₁, h₂, rfl⟩)
    · exact .inl (.inl h)
    · by_cases hcf : c < f
      · exact .inl (.inr ⟨h₁, hcf, rfl⟩)
      · exact .inr ⟨by omega, by omega, rfl⟩

/-- The range that is added, and what is known of it: the cuts inside are beside characters
that were added before, and so are its large values the value itself. -/
structure Adding (P : Nat → Nat → Prop) (Cut End : Nat → Prop) (a b v : Nat) : Prop where
  bound : b < 2 ^ 16
  cuts : ∀ p, a < p → p ≤ b → Cut p → ∃ w, P p w ∨ P (p - 1) w
  stop : End (b + 1)
  large : kFirstLimit ≤ v → ∀ c, a ≤ c → c ≤ b → ∀ w, P c w → kFirstLimit ≤ w → w = v

/-- A free part of the range is added. -/
theorem Sound.addPart (hadd : Adding P Cut End a b v) (h : Sound d A (Upto P a f v) Cut End)
    (haf : a ≤ f) (hfg : f ≤ g) (hgb : g ≤ b) (hfree : ∀ k e, A k = some e → e.to_ < f ∨ g < k)
    (hf : End f) (hg : End (g + 1)) :
    ∃ o, Sound (d.addFree ⟨f, g⟩ v) (Function.update A f (some ⟨f, g, o⟩)) (Upto P a (g + 1) v)
      Cut End ∧ Extends d.zone (d.addFree ⟨f, g⟩ v).zone := by
  have hcut : ∀ p, f < p → p ≤ g → ¬Cut p := by
    intro p h₁ h₂ hp
    obtain ⟨w, hw⟩ := hadd.cuts p (by omega) (by omega) hp
    have hexists : ∃ c, f ≤ c ∧ c ≤ g ∧ Upto P a f v c w := by
      rcases hw with hw | hw
      · exact ⟨p, by omega, h₂, .inl hw⟩
      · exact ⟨p - 1, by omega, by omega, .inl hw⟩
    obtain ⟨c, h₃, h₄, hc⟩ := hexists
    obtain ⟨k, e, hk, h₅, h₆⟩ := h.covers.covered hc
    rcases hfree k e hk with hlt | hlt <;> omega
  obtain ⟨o, hsound, hext⟩ := h.addFree hfg (lt_of_le_of_lt hgb hadd.bound) hfree hcut hf hg
  exact ⟨o, hsound.mono (fun c w => (plus_upto haf hfg c w).symm) (fun _ hp => hp) fun _ hp => hp, hext⟩

/-- The entry at `k`, where the range now begins, is cut off behind the range and gets the
value. -/
theorem Sound.addEntry (hadd : Adding P Cut End a b v) (h : Sound d A (Upto P a k v) Cut End)
    (hak : a ≤ k) (hkb : k ≤ b) (hk : A k = some e) :
    ∃ d₁ d₂ A' e', d.splitRight k b = some d₁ ∧ d₁.addValue k v = some d₂ ∧
      Sound d₂ A' (Upto P a (e'.to_ + 1) v) Cut End ∧ A' k = some e' ∧ k ≤ e'.to_ ∧ e'.to_ ≤ b ∧
      Extends d.zone d₂.zone := by
  obtain ⟨d₁, A₁, e₁, hsplit, hzone, h₁, hk₁, hto, hfrom, hset⟩ := h.splitRight hk hkb hadd.stop
  have hlarge : kFirstLimit ≤ v → ∀ w, d₁.zone.get e₁.outSet w = true → kFirstLimit ≤ w → w = v := by
    intro hv w hw hwl
    have hP := (h₁.covers.values hk₁ (Nat.le_refl k) hfrom w).1 hw
    rcases hP with hP | ⟨-, -, hwv⟩
    · exact hadd.large hv k hak hkb w hP hwl
    · exact hwv
  obtain ⟨d₂, o, hvalue, h₂, hext⟩ := h₁.addValue hk₁ hlarge
  refine ⟨d₁, d₂, Function.update A₁ k (some { e₁ with outSet := o }), { e₁ with outSet := o }, hsplit,
    hvalue, ?_, update_self .., hfrom, hto, hzone ▸ hext⟩
  exact h₂.mono (fun c w => (plus_upto hak hfrom c w).symm) (fun _ hp => hp) fun _ hp => hp

/-- After an entry no other one goes over its end. -/
theorem Covers.clear_after (h : Covers A z P Cut End) (hk : A k = some e) : Clear A (e.to_ + 1) := by
  intro i y hi hlt
  by_contra hto
  have hfrom : k ≤ e.to_ := by
    rw [← h.key hk]
    exact h.nonempty hk
  have hik := h.disjoint hi hk (by omega) (by omega) hfrom (le_rfl)
  grind

theorem addRangeLoop_spec (hadd : Adding P Cut End a b v) {fuel : Nat} (haf : a ≤ f) (hfb : f ≤ b + 1)
    (hfuel : b + 1 - f < fuel) (h : Sound d A (Upto P a f v) Cut End) (hclear : Clear A f)
    (hf : End f) :
    ∃ d' A', DispatchTable.addRangeLoop v fuel ⟨f, b⟩ d = some d' ∧
      Sound d' A' (Upto P a (b + 1) v) Cut End ∧ Clear A' (b + 1) ∧ Extends d.zone d'.zone := by
  induction fuel generalizing f d A with
  | zero => omega
  | succ fuel ih =>
    rw [DispatchTable.addRangeLoop]
    by_cases hvalid : f ≤ b
    · rw [if_pos hvalid]
      obtain ⟨hent, hsome, hnone⟩ := Tree.findLeastGreaterThan_spec f h.ordered
      have h' := h.of_entries hent
      generalize d.tree.findLeastGreaterThan f = r at hent hsome hnone h'
      obtain ⟨tree, loc⟩ := r
      -- where no entry begins in the range, what is left of it is free
      have hrest : (∀ i y, A i = some y → f ≤ i → b < i) → ∃ d' A',
          some (DispatchTable.addFree { d with tree := tree } ⟨f, b⟩ v) = some d' ∧
            Sound d' A' (Upto P a (b + 1) v) Cut End ∧ Clear A' (b + 1) ∧ Extends d.zone d'.zone := by
        intro hlater
        have hfree : ∀ i y, A i = some y → y.to_ < f ∨ b < i := by
          intro i y hi
          by_cases hif : i < f
          · exact .inl (hclear i y hi hif)
          · exact .inr (hlater i y hi (Nat.not_lt.1 hif))
        obtain ⟨o, hsound, hext⟩ := h'.addPart hadd haf hvalid (Nat.le_refl b) hfree hf hadd.stop
        exact ⟨_, _, rfl, hsound, hsound.covers.clear_after (update_self ..), hext⟩
      cases loc with
      | none =>
        refine hrest fun i y hi hfi => ?_
        have := hnone rfl (i, y) ((h.represents i y).1 hi)
        omega
      | some x =>
        obtain ⟨k, e⟩ := x
        obtain ⟨hmem, hfk, hleast⟩ := hsome (k, e) rfl
        have hk : A k = some e := (h.represents k e).2 hmem
        have hkey := h.covers.key hk
        have hke := h.covers.nonempty hk
        by_cases hover : e.from_ ≤ b ∧ e.to_ ≥ f
        · simp only [if_pos hover]
          -- the part before the entry is free
          have hbefore : ∃ A₀, Sound (if f < e.from_ then DispatchTable.addFree
              { d with tree := tree } ⟨f, uc16 (e.from_ + (2 ^ 16 - 1))⟩ v
              else { d with tree := tree }) A₀ (Upto P a k v) Cut End ∧ A₀ k = some e ∧
              Extends d.zone (if f < e.from_ then DispatchTable.addFree
                { d with tree := tree } ⟨f, uc16 (e.from_ + (2 ^ 16 - 1))⟩ v
                else { d with tree := tree } : DispatchTable).zone := by
            by_cases hlt : f < e.from_
            · have hbound := hadd.bound
              rw [if_pos hlt, uc16_pred (by omega) (by omega)]
              have hend := (h.covers.ends hk).1
              have hsucc : e.from_ - 1 + 1 = k := by omega
              obtain ⟨o, hsound, hext⟩ := h'.addPart hadd haf (by omega : f ≤ e.from_ - 1) (by omega)
                (fun i y hi => by
                  by_cases hif : i < f
                  · exact .inl (hclear i y hi hif)
                  · have hki : k ≤ i := hleast (i, y) ((h.represents i y).1 hi) (Nat.not_lt.1 hif)
                    exact .inr (by omega)) hf (by rw [hsucc]; exact hend)
              grind
            · have hfk' : f = k := by omega
              rw [if_neg hlt]
              subst hfk'
              exact ⟨A, h', hk, .refl _⟩
          obtain ⟨A₀, h₀, hk₀, hext₀⟩ := hbefore
          obtain ⟨d₁, d₂, A₂, e₂, hsplit, hvalue, h₂, hk₂, hke₂, hto₂, hext₂⟩ :=
            h₀.addEntry hadd (by omega) (by omega) hk₀
          have hentry := entryAt_eq h₂.ordered h₂.represents k
          rw [hk₂] at hentry
          have hext := hext₀.trans hext₂
          have hbound := hadd.bound
          simp only [hsplit, hvalue, hentry, bind_eq_bind, bind_some]
          have hafter := h₂.covers.clear_after hk₂
          by_cases hmax : e₂.to_ = kMaxUC16CharCode
          · have hb : e₂.to_ = b := by
              unfold kMaxUC16CharCode at hmax
              omega
            grind
          · rw [if_neg hmax]
            have hlt : e₂.to_ + 1 < 2 ^ 16 := by
              unfold kMaxUC16CharCode at hmax
              omega
            rw [uc16_succ hlt]
            obtain ⟨d', A', hres, hsound, hclear', hext'⟩ := ih (by omega) (by omega) (by omega) h₂
              hafter (h₂.covers.ends hk₂).2
            exact ⟨d', A', hres, hsound, hclear', hext.trans hext'⟩
        · simp only [if_neg hover]
          refine hrest fun i y hi hfi => ?_
          have := hleast (i, y) ((h.represents i y).1 hi) hfi
          omega
    · rw [if_neg hvalid]
      have hfb : f = b + 1 := by omega
      subst hfb
      exact ⟨d, A, rfl, h, hclear, .refl _⟩

/-- `AddRange` adds the value for the characters of the range. -/
theorem Sound.addRange (h : Sound d A P Cut End) (hab : a ≤ b)
    (hadd : Adding P Cut (fun p => End p ∨ p = a ∨ p = b + 1) a b v) :
    ∃ d' A', d.addRange ⟨a, b⟩ v = some d' ∧
      Sound d' A' (Upto P a (b + 1) v) (fun p => Cut p ∨ p = a ∨ p = b + 1)
        (fun p => End p ∨ p = a ∨ p = b + 1) ∧ Extends d.zone d'.zone := by
  let End' : Nat → Prop := fun p => End p ∨ p = a ∨ p = b + 1
  have hadd' : Adding P (fun p => Cut p ∨ p = a) End' a b v := by
    refine { hadd with cuts := ?_ }
    rintro p h₁ h₂ (hp | rfl)
    · exact hadd.cuts p h₁ h₂ hp
    · exact absurd h₁ (lt_irrefl _)
  have hstart : ∀ {d : DispatchTable} {A : OrderedMap Nat Entry}, Sound d A P Cut End' → Clear A a →
      Sound d A (Upto P a a v) (fun p => Cut p ∨ p = a) End' := by
    intro d A h hclear
    have hsame : ∀ c w, Upto P a a v c w ↔ P c w := by
      intro c w
      refine ⟨?_, .inl⟩
      rintro (hc | ⟨h₁, h₂, -⟩)
      · exact hc
      · omega
    have hcov := h.covers.cut_of_clear hclear
    exact { h with covers := hcov.mono hsame (fun _ hp => hp) fun _ hp => hp }
  have hfin : ∀ {d : DispatchTable} {A : OrderedMap Nat Entry},
      Sound d A (Upto P a (b + 1) v) (fun p => Cut p ∨ p = a) End' → Clear A (b + 1) →
      Sound d A (Upto P a (b + 1) v) (fun p => Cut p ∨ p = a ∨ p = b + 1) End' := by
    intro d A h hclear
    have hcov := h.covers.cut_of_clear hclear
    exact { h with covers := hcov.mono (fun _ _ => Iff.rfl) (fun _ hp => or_assoc.2 hp) fun _ hp => hp }
  have h' : Sound d A P Cut End' := h.mono (fun _ _ => Iff.rfl) (fun _ hp => hp) fun _ hp => .inl hp
  rw [DispatchTable.addRange]
  cases htree : d.tree with
  | nil =>
    have hnone : ∀ i y, A i = some y → False := by
      intro i y hi
      have := (h.represents i y).1 hi
      rw [htree] at this
      cases this
    obtain ⟨o, hsound, hext⟩ := (hstart h' fun i y hi => (hnone i y hi).elim).addPart hadd'
      (Nat.le_refl a) hab (Nat.le_refl b) (fun i y hi => (hnone i y hi).elim) (.inr (.inl rfl))
      (.inr (.inr rfl))
    exact ⟨_, _, rfl, hfin hsound (hsound.covers.clear_after (update_self ..)), hext⟩
  | node l k e r =>
    have hbound := hadd.bound
    obtain ⟨d₁, A₁, hsplit, hzone, h₁, hclear⟩ := h'.splitLeft (by omega) (.inr (.inl rfl))
    obtain ⟨d', A', hloop, hsound, hclear', hext⟩ := addRangeLoop_spec hadd' (Nat.le_refl a)
      (by omega) (by omega : b + 1 - a < 2 ^ 16 + 1) (hstart h₁ hclear) hclear (.inr (.inl rfl))
    grind

end W16.DispatchTables
