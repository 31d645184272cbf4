import W16.SplayTree

/-!
# The operations of a splay tree

What each operation does to the entries of an ordered tree.
-/
namespace W16.SplayTrees.Tree

open List Option

set_option linter.dupNamespace false

variable {K V : Type} [LinearOrder K] {key k : K} {v : V} {t l r : Tree K V}

omit [LinearOrder K] in
theorem eq_nil_of_entries (h : t.entries = []) : t = .nil := by
  cases t with
  | nil => rfl
  | node l k v r => simp at h

/-- Two entries of an ordered tree with one key are the same. -/
theorem Ordered.eq_of_key (h : t.Ordered) {x y : K × V} (hx : x ∈ t.entries) (hy : y ∈ t.entries)
    (hkey : x.1 = y.1) : x = y := by
  have hlt : t.entries.Pairwise fun x y => x.1 = y.1 → x = y :=
    h.imp fun hlt heq => absurd heq (ne_of_lt hlt)
  have hgt : t.entries.Pairwise (flip fun x y => x.1 = y.1 → x = y) :=
    h.imp fun hlt heq => absurd heq (ne_of_gt hlt)
  exact Pairwise.forall_of_forall_of_flip (fun _ _ _ => rfl) hlt hgt hx hy hkey

/-- The root after splaying, with the key between the two subtrees. -/
structure Root (key : K) (t l : Tree K V) (k : K) (v : V) (r : Tree K V) : Prop where
  splay : splay key t = .node l k v r
  entries : (Tree.node l k v r).entries = t.entries
  ordered : (Tree.node l k v r).Ordered
  left : ∀ x ∈ l.entries, x.1 < key
  right : ∀ x ∈ r.entries, key < x.1

theorem splay_cases (key : K) (h : t.Ordered) :
    (t = .nil ∧ splay key t = .nil) ∨ ∃ l k v r, Root key t l k v r := by
  obtain ⟨hent, hnil, hsides⟩ := splay_spec key h
  cases hs : splay key t with
  | nil => exact .inl ⟨hnil hs, rfl⟩
  | node l k v r =>
    obtain ⟨hl, hr⟩ := hsides hs
    refine .inr ⟨l, k, v, r, hs, hs ▸ hent, ?_, hl, hr⟩
    rw [Ordered, ← hs, hent]
    exact h

namespace Root

variable (h : Root key t l k v r)
include h

theorem mem (x : K × V) : x ∈ t.entries ↔ x ∈ l.entries ∨ x = (k, v) ∨ x ∈ r.entries := by
  rw [← h.entries, entries_node, mem_append, mem_cons]

/-- The key is in the tree just when it is in the root. -/
theorem ne_of_mem (hk : key ≠ k) {x : K × V} (hx : x ∈ t.entries) : x.1 ≠ key := by
  rcases (h.mem x).1 hx with hx | rfl | hx
  · exact ne_of_lt (h.left x hx)
  · exact hk.symm
  · exact ne_of_gt (h.right x hx)

end Root

/-! ## Searching -/

/-- A lookup keeps the entries; a result is the entry with the key. -/
theorem find_spec (key : K) (h : t.Ordered) : (find key t).1.entries = t.entries ∧
      (∀ x, (find key t).2 = some x → x ∈ t.entries ∧ x.1 = key) ∧
      ((find key t).2 = none → ∀ x ∈ t.entries, x.1 ≠ key) := by
  rcases splay_cases key h with ⟨rfl, hs⟩ | ⟨l, k, v, r, hroot⟩
  · exact ⟨rfl, fun x hx => (nomatch hx), fun _ x hx => nomatch hx⟩
  · rw [find, findInternal, hroot.splay]
    by_cases hk : key = k
    · subst hk
      simp only [compare_eq_iff_eq.2 rfl, decide_true]
      refine ⟨hroot.entries, fun x hx => ?_, fun hn => nomatch hn⟩
      obtain rfl := some.inj hx
      exact ⟨(hroot.mem _).2 (.inr (.inl rfl)), rfl⟩
    · have hne : compare key k ≠ .eq := fun heq => hk (compare_eq_iff_eq.1 heq)
      simp only [hne, decide_false]
      exact ⟨hroot.entries, fun x hx => (nomatch hx), fun _ x hx => hroot.ne_of_mem hk hx⟩

theorem findGreatest_spec (h : t.Ordered) :
    (∀ x, findGreatest t = some x → x ∈ t.entries ∧ ∀ y ∈ t.entries, y.1 ≤ x.1) ∧
      (findGreatest t = none → t = .nil) := by
  fun_induction findGreatest t with
  | case1 => simp
  | case2 l k v =>
    refine ⟨fun x hx => ?_, fun hn => nomatch hn⟩
    obtain rfl := some.inj hx
    obtain ⟨-, -, hl, -⟩ := ordered_node.1 h
    refine ⟨by simp, fun y hy => ?_⟩
    simp only [entries_node, entries_nil, mem_append, mem_singleton] at hy
    grind
  | case3 l k v r hr ih =>
    obtain ⟨-, hor, hl, hkr⟩ := ordered_node.1 h
    obtain ⟨hsome, hnone⟩ := ih hor
    refine ⟨fun x hx => ?_, fun hn => absurd (hnone hn) hr⟩
    obtain ⟨hmem, hgreatest⟩ := hsome x hx
    refine ⟨by simp [hmem], fun y hy => ?_⟩
    rw [entries_node, mem_append, mem_cons] at hy
    grind

theorem findLeast_spec (h : t.Ordered) :
    (∀ x, findLeast t = some x → x ∈ t.entries ∧ ∀ y ∈ t.entries, x.1 ≤ y.1) ∧
      (findLeast t = none → t = .nil) := by
  fun_induction findLeast t with
  | case1 => simp
  | case2 k v r =>
    refine ⟨fun x hx => ?_, fun hn => nomatch hn⟩
    obtain rfl := some.inj hx
    obtain ⟨-, -, -, hr⟩ := ordered_node.1 h
    refine ⟨by simp, fun y hy => ?_⟩
    simp only [entries_node, entries_nil, nil_append, mem_cons] at hy
    grind
  | case3 l k v r hl ih =>
    obtain ⟨hol, -, hlk, hkr⟩ := ordered_node.1 h
    obtain ⟨hsome, hnone⟩ := ih hol
    refine ⟨fun x hx => ?_, fun hn => absurd (hnone hn) hl⟩
    obtain ⟨hmem, hleast⟩ := hsome x hx
    refine ⟨by simp [hmem], fun y hy => ?_⟩
    rw [entries_node, mem_append, mem_cons] at hy
    grind

/-- The greatest key that is not above the given one. -/
theorem findGreatestLessThan_spec (key : K) (h : t.Ordered) :
    (findGreatestLessThan key t).1.entries = t.entries ∧ (∀ x, (findGreatestLessThan key t).2 = some x →
        x ∈ t.entries ∧ x.1 ≤ key ∧ ∀ y ∈ t.entries, y.1 ≤ key → y.1 ≤ x.1) ∧
      ((findGreatestLessThan key t).2 = none → ∀ x ∈ t.entries, key < x.1) := by
  rcases splay_cases key h with ⟨rfl, hs⟩ | ⟨l, k, v, r, hroot⟩
  · exact ⟨rfl, fun x hx => (nomatch hx), fun _ x hx => nomatch hx⟩
  · rw [findGreatestLessThan, hroot.splay]
    obtain ⟨hol, -, hlk, -⟩ := ordered_node.1 hroot.ordered
    by_cases hk : compare k key ≠ .gt
    · have hle : k ≤ key := compare_le_iff_le.1 hk
      simp only [if_pos hk]
      refine ⟨hroot.entries, fun x hx => ?_, fun hn => nomatch hn⟩
      obtain rfl := some.inj hx
      refine ⟨(hroot.mem _).2 (.inr (.inl rfl)), hle, fun y hy hyk => ?_⟩
      rcases (hroot.mem y).1 hy with hy | rfl | hy
      · exact le_of_lt (hlk y hy)
      · exact le_refl _
      · exact absurd hyk (not_le_of_gt (hroot.right y hy))
    · have hlt : key < k := compare_gt_iff_gt.1 (not_not.1 hk)
      simp only [if_neg hk]
      obtain ⟨hsome, hnone⟩ := findGreatest_spec hol
      refine ⟨hroot.entries, fun x hx => ?_, fun hn x hx => ?_⟩
      · obtain ⟨hmem, hgreatest⟩ := hsome x hx
        refine ⟨(hroot.mem x).2 (.inl hmem), le_of_lt (hroot.left x hmem), fun y hy hyk => ?_⟩
        rcases (hroot.mem y).1 hy with hy | rfl | hy
        · exact hgreatest y hy
        · exact absurd hyk (not_le_of_gt hlt)
        · exact absurd hyk (not_le_of_gt (hroot.right y hy))
      · obtain rfl := hnone hn
        rcases (hroot.mem x).1 hx with hx | rfl | hx
        · cases hx
        · exact hlt
        · exact hroot.right x hx

/-- The least key that is not below the given one. -/
theorem findLeastGreaterThan_spec (key : K) (h : t.Ordered) :
    (findLeastGreaterThan key t).1.entries = t.entries ∧ (∀ x, (findLeastGreaterThan key t).2 = some x →
        x ∈ t.entries ∧ key ≤ x.1 ∧ ∀ y ∈ t.entries, key ≤ y.1 → x.1 ≤ y.1) ∧
      ((findLeastGreaterThan key t).2 = none → ∀ x ∈ t.entries, x.1 < key) := by
  rcases splay_cases key h with ⟨rfl, hs⟩ | ⟨l, k, v, r, hroot⟩
  · exact ⟨rfl, fun x hx => (nomatch hx), fun _ x hx => nomatch hx⟩
  · rw [findLeastGreaterThan, hroot.splay]
    obtain ⟨-, hor, -, hkr⟩ := ordered_node.1 hroot.ordered
    by_cases hk : compare k key ≠ .lt
    · have hle : key ≤ k := compare_ge_iff_ge.1 hk
      simp only [if_pos hk]
      refine ⟨hroot.entries, fun x hx => ?_, fun hn => nomatch hn⟩
      obtain rfl := some.inj hx
      refine ⟨(hroot.mem _).2 (.inr (.inl rfl)), hle, fun y hy hyk => ?_⟩
      rcases (hroot.mem y).1 hy with hy | rfl | hy
      · exact absurd hyk (not_le_of_gt (hroot.left y hy))
      · exact le_refl _
      · exact le_of_lt (hkr y hy)
    · have hlt : k < key := compare_lt_iff_lt.1 (not_not.1 hk)
      simp only [if_neg hk]
      obtain ⟨hsome, hnone⟩ := findLeast_spec hor
      refine ⟨hroot.entries, fun x hx => ?_, fun hn x hx => ?_⟩
      · obtain ⟨hmem, hleast⟩ := hsome x hx
        refine ⟨(hroot.mem x).2 (.inr (.inr hmem)), le_of_lt (hroot.right x hmem), fun y hy hyk => ?_⟩
        rcases (hroot.mem y).1 hy with hy | rfl | hy
        · exact absurd hyk (not_le_of_gt (hroot.left y hy))
        · exact absurd hyk (not_le_of_gt hlt)
        · exact hleast y hy
      · obtain rfl := hnone hn
        rcases (hroot.mem x).1 hx with hx | rfl | hx
        · exact hroot.left x hx
        · exact hlt
        · cases hx

/-! ## Insertion -/

/-- A new node takes the place of the root, on the side that `Compare` says. -/
theorem Root.insertInternal (h : Root key t l k v r) (hk : key ≠ k) (value : V) :
    (insertInternal (compare key k) key value (.node l k v r)).Ordered ∧
      (insertInternal (compare key k) key value (.node l k v r)).root = some (key, value) ∧
      ∀ x, x ∈ (insertInternal (compare key k) key value (.node l k v r)).entries ↔
        x = (key, value) ∨ x ∈ t.entries := by
  obtain ⟨hl, hr, hlk, hkr⟩ := ordered_node.1 h.ordered
  rw [Tree.insertInternal]
  split
  · next hgt =>
    have hlt : k < key := compare_gt_iff_gt.1 hgt
    refine ⟨?_, rfl, fun x => ?_⟩
    · refine ordered_node.2 ⟨ordered_node.2 ⟨hl, Pairwise.nil, hlk, fun x hx => nomatch hx⟩, hr,
        fun x hx => ?_, h.right⟩
      grind [entries_node, entries_nil]
    · rw [h.mem]
      simp only [entries_node, entries_nil, mem_append, mem_cons, not_mem_nil, or_false]
      grind
  · next hgt =>
    have hlt : key < k := lt_of_le_of_ne (compare_le_iff_le.1 hgt) hk
    refine ⟨?_, rfl, fun x => ?_⟩
    · refine ordered_node.2 ⟨hl, ordered_node.2 ⟨Pairwise.nil, hr, fun x hx => (nomatch hx), hkr⟩,
        h.left, fun x hx => ?_⟩
      simp only [entries_node, entries_nil, nil_append, mem_cons] at hx
      grind
    · rw [h.mem]
      simp only [entries_node, entries_nil, nil_append, mem_append, mem_cons]
      grind

/-- `Insert` brings the entry of the key to the root, a new one if there is none. -/
theorem insert_spec (noValue : V) (key : K) (h : t.Ordered) : (insert noValue key t).1.Ordered ∧
      (((insert noValue key t).2 = true ∧ (∀ x ∈ t.entries, x.1 ≠ key) ∧
          (insert noValue key t).1.root = some (key, noValue) ∧
          ∀ x, x ∈ (insert noValue key t).1.entries ↔ x = (key, noValue) ∨ x ∈ t.entries) ∨
        ((insert noValue key t).2 = false ∧ (insert noValue key t).1.entries = t.entries ∧
          ∃ v, (insert noValue key t).1.root = some (key, v) ∧ (key, v) ∈ t.entries)) := by
  rcases splay_cases key h with ⟨rfl, hs⟩ | ⟨l, k, v, r, hroot⟩
  · rw [insert]
    refine ⟨ordered_node.2 ⟨.nil, .nil, fun x hx => (nomatch hx), fun x hx => nomatch hx⟩, .inl ?_⟩
    exact ⟨rfl, fun x hx => (nomatch hx), rfl, fun x => by simp⟩
  · have ht : t ≠ .nil := by
      rintro rfl
      have := hroot.entries
      simp at this
    rw [insert.eq_2 noValue key t ht, hroot.splay]
    by_cases hk : key = k
    · subst hk
      simp only [compare_eq_iff_eq.2 rfl, if_true]
      exact ⟨hroot.ordered, .inr ⟨trivial, hroot.entries, v, rfl, (hroot.mem _).2 (.inr (.inl rfl))⟩⟩
    · have hne : compare key k ≠ .eq := fun heq => hk (compare_eq_iff_eq.1 heq)
      simp only [if_neg hne]
      obtain ⟨hord, hnew, hmem⟩ := hroot.insertInternal hk noValue
      exact ⟨hord, .inl ⟨trivial, fun x hx => hroot.ne_of_mem hk hx, hnew, hmem⟩⟩

/-! ## Removal -/

/-- The root is removed: splaying its left child for the key leaves no right child there. -/
theorem Root.removeRootNode (h : Root key t l key v r) :
    (Tree.removeRootNode key (.node l key v r)).entries = l.entries ++ r.entries := by
  obtain ⟨hl, -, -, -⟩ := ordered_node.1 h.ordered
  cases l with
  | nil => rfl
  | node a b c d =>
    rcases splay_cases key hl with ⟨hnil, -⟩ | ⟨l', k', v', r', hroot⟩
    · cases hnil
    · have hr' : r'.entries = [] := by
        rw [eq_nil_iff_forall_not_mem]
        intro x hx
        have hmem := (hroot.mem x).2 (.inr (.inr hx))
        exact lt_asymm (h.left x hmem) (hroot.right x hx)
      have hent := hroot.entries
      rw [entries_node, hr'] at hent
      simp only [Tree.removeRootNode, hroot.splay]
      rw [← hent, entries_node, append_assoc]
      rfl

theorem Root.mem_removeRootNode (h : Root key t l key v r) (x : K × V) :
    x ∈ (Tree.removeRootNode key (.node l key v r)).entries ↔ x ∈ t.entries ∧ x.1 ≠ key := by
  rw [h.removeRootNode, mem_append, h.mem]
  constructor
  · rintro (hx | hx)
    · exact ⟨.inl hx, ne_of_lt (h.left x hx)⟩
    · exact ⟨.inr (.inr hx), ne_of_gt (h.right x hx)⟩
  grind

theorem Root.ordered_removeRootNode (h : Root key t l key v r) :
    (Tree.removeRootNode key (.node l key v r)).Ordered := by
  rw [Tree.Ordered, h.removeRootNode]
  have hord := h.ordered
  exact hord.sublist (Sublist.append_left (sublist_cons_self _ _) _)

/-- `FindInternal` of a key brings its entry to the root. -/
theorem findInternal_cases (key : K) (h : t.Ordered) :
    ((∀ x ∈ t.entries, x.1 ≠ key) ∧ (findInternal key t).1.entries = t.entries ∧
      (findInternal key t).2 = false) ∨
    ∃ l v r, Root key t l key v r ∧ findInternal key t = (.node l key v r, true) := by
  rcases splay_cases key h with ⟨rfl, hs⟩ | ⟨l, k, v, r, hroot⟩
  · exact .inl ⟨fun x hx => (nomatch hx), rfl, rfl⟩
  · rw [findInternal, hroot.splay]
    by_cases hk : key = k
    · grind
    · exact .inl ⟨fun x hx => hroot.ne_of_mem hk hx, hroot.entries, by simp [hk]⟩

theorem remove_spec (key : K) (h : t.Ordered) :
    (remove key t).1.Ordered ∧ ((remove key t).2 = true ↔ ∃ x ∈ t.entries, x.1 = key) ∧
      ∀ x, x ∈ (remove key t).1.entries ↔ x ∈ t.entries ∧ x.1 ≠ key := by
  rcases findInternal_cases key h with ⟨hnone, hent, hfalse⟩ | ⟨l, v, r, hroot, hfind⟩
  · rw [remove, ← Prod.mk.eta (p := findInternal key t), hfalse]
    refine ⟨by rw [Ordered, hent]; exact h, ?_, fun x => ?_⟩
    · grind
    grind
  · rw [remove, hfind]
    exact ⟨hroot.ordered_removeRootNode,
      ⟨fun _ => ⟨(key, v), (hroot.mem _).2 (.inr (.inl rfl)), rfl⟩, fun _ => rfl⟩,
      hroot.mem_removeRootNode⟩

/-! ## Moving -/

/-- `Move` of an entry that is not the only one. When the new key has a node the entry is
gone. -/
theorem move_spec (oldKey newKey : K) (h : t.Ordered)
    (hother : (∃ x ∈ t.entries, x.1 = oldKey) → ∃ x ∈ t.entries, x.1 ≠ oldKey) :
    ∃ t' b, move oldKey newKey t = some (t', b) ∧ t'.Ordered ∧
      ((b = false ∧ (∀ x ∈ t.entries, x.1 ≠ oldKey) ∧ t'.entries = t.entries) ∨
        (b = false ∧ newKey ≠ oldKey ∧ (∃ x ∈ t.entries, x.1 = oldKey) ∧
          (∃ x ∈ t.entries, x.1 = newKey) ∧ ∀ x, x ∈ t'.entries ↔ x ∈ t.entries ∧ x.1 ≠ oldKey) ∨
        ∃ v, b = true ∧ (oldKey, v) ∈ t.entries ∧ (∀ x ∈ t.entries, x.1 ≠ oldKey → x.1 ≠ newKey) ∧
          ∀ x, x ∈ t'.entries ↔ x = (newKey, v) ∨ (x ∈ t.entries ∧ x.1 ≠ oldKey)) := by
  rcases findInternal_cases oldKey h with ⟨hnone, hent, hfalse⟩ | ⟨l, v, r, hroot, hfind⟩
  · rw [move, ← Prod.mk.eta (p := findInternal oldKey t), hfalse]
    refine ⟨_, _, rfl, by rw [Ordered, hent]; exact h, .inl ⟨rfl, hnone, hent⟩⟩
  · have hv : (oldKey, v) ∈ t.entries := (hroot.mem _).2 (.inr (.inl rfl))
    have hrest := hroot.mem_removeRootNode
    obtain ⟨y, hy, hyk⟩ := hother ⟨_, hv, rfl⟩
    rw [move, hfind]
    rcases splay_cases newKey hroot.ordered_removeRootNode with ⟨hnil, -⟩ | ⟨l', k', v', r', hnew⟩
    · have := (hrest y).2 ⟨hy, hyk⟩
      rw [hnil] at this
      cases this
    · simp only [hnew.splay]
      by_cases hk : newKey = k'
      · subst hk
        have hmem := (hrest _).1 ((hnew.mem (newKey, v')).2 (.inr (.inl rfl)))
        simp only [compare_eq_iff_eq.2 rfl, if_true]
        refine ⟨_, _, rfl, hnew.ordered, .inr (.inl ⟨rfl, hmem.2, ⟨_, hv, rfl⟩, ⟨_, hmem.1, rfl⟩, ?_⟩)⟩
        intro x
        rw [hnew.entries]
        exact hrest x
      · have hne : compare newKey k' ≠ .eq := fun heq => hk (compare_eq_iff_eq.1 heq)
        simp only [if_neg hne]
        obtain ⟨hord, -, hmem⟩ := hnew.insertInternal hk v
        refine ⟨_, _, rfl, hord, .inr (.inr ⟨v, rfl, hv, ?_, fun x => ?_⟩)⟩
        · exact fun x hx hxk => hnew.ne_of_mem hk ((hrest x).2 ⟨hx, hxk⟩)
        · rw [hmem, hrest]

/-! ## Values -/

theorem entries_setValue (key : K) (value : V) (t : Tree K V) : (setValue key value t).entries =
      t.entries.map fun x => if x.1 = key then (x.1, value) else x := by
  induction t with
  | nil => rfl
  | node l k v r ihl ihr =>
    grind [setValue, entries_node]

theorem ordered_setValue (key : K) (value : V) (h : t.Ordered) : (setValue key value t).Ordered := by
  grind [Ordered, entries_setValue]

/-! ## Visiting all entries -/

omit [LinearOrder K] in
theorem children_cases (t : Tree K V) : ∀ c ∈ t.children, c ≠ .nil := by
  intro c hc
  cases t with
  | nil => cases hc
  | node l k v r =>
    rintro rfl
    exact nomatch (mem_filter.1 hc).2

omit [LinearOrder K] in
theorem flatMap_children (l : Tree K V) (k : K) (v : V) (r : Tree K V) :
    (Tree.node l k v r).children.flatMap entries = l.entries ++ r.entries := by
  cases l <;> cases r <;> simp [children]

omit [LinearOrder K] in
theorem sum_children (l : Tree K V) (k : K) (v : V) (r : Tree K V) :
    ((Tree.node l k v r).children.map size).sum = l.size + r.size := by
  cases l <;> cases r <;> simp [children, size]

omit [LinearOrder K] in
/-- The nodes to visit, each once. -/
theorem visit_spec {fuel : Nat} {nodes : List (Tree K V)} (hnodes : ∀ t ∈ nodes, t ≠ .nil)
    (hfuel : (nodes.map size).sum ≤ fuel) :
    ∃ visited, visit fuel nodes = some visited ∧ visited.Perm (nodes.flatMap entries) := by
  induction fuel generalizing nodes with
  | zero =>
    cases nodes with
    | nil => exact ⟨[], rfl, .refl _⟩
    | cons t rest =>
      cases t with
      | nil => exact absurd rfl (hnodes _ mem_cons_self)
      | node l k v r => simp [size] at hfuel
  | succ fuel ih =>
    cases nodes with
    | nil => exact ⟨[], rfl, .refl _⟩
    | cons t rest =>
      cases t with
      | nil => exact absurd rfl (hnodes _ mem_cons_self)
      | node l k v r =>
        have hrest : ∀ t ∈ rest ++ (Tree.node l k v r).children, t ≠ .nil := by
          intro t ht
          rcases mem_append.1 ht with ht | ht
          · exact hnodes t (mem_cons_of_mem _ ht)
          · exact children_cases _ t ht
        have hsum : ((rest ++ (Tree.node l k v r).children).map size).sum ≤ fuel := by
          rw [map_append, sum_append, sum_children]
          simp only [map_cons, sum_cons, size] at hfuel
          omega
        obtain ⟨visited, hvisit, hperm⟩ := ih hrest hsum
        refine ⟨(k, v) :: visited, by rw [visit, hvisit]; rfl, ?_⟩
        rw [flatMap_append, flatMap_children] at hperm
        rw [flatMap_cons, entries_node]
        refine (hperm.cons (k, v)).trans ?_
        rw [append_assoc, cons_append]
        refine .trans (.cons (k, v) ?_) perm_middle.symm
        rw [← append_assoc l.entries]
        exact perm_append_comm

omit [LinearOrder K] in
theorem forEach_spec (t : Tree K V) : ∃ visited, t.forEach = some visited ∧ visited.Perm t.entries := by
  cases t with
  | nil => exact ⟨[], rfl, .refl _⟩
  | node l k v r =>
    obtain ⟨visited, hvisit, hperm⟩ := @visit_spec K V (Tree.node l k v r).size [.node l k v r]
      (fun t ht => by grind) (by simp)
    exact ⟨visited, hvisit, by simpa using hperm⟩

end W16.SplayTrees.Tree
