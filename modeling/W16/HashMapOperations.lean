import W16.HashMap

/-!
# The operations of a hash map

What `Lookup`, `Remove`, `Clear` and an iteration do to the keys and values that a map
holds.
-/
namespace W16.HashMaps

open List Option

open W16.Circle (next dist)

variable {K V : Type} {keys : Keys K} {m m' : HashMap K V}

instance : Inhabited (Entry K V) := ⟨kEmpty⟩

/-- The number of entries with a key. -/
def live (m : HashMap K V) : Nat := m.map.countP fun e => e.key.isSome

/-- The map has an entry for the key with the value. -/
def Holds (m : HashMap K V) (a : K) (v : Option V) : Prop :=
  ∃ i, (m.entry i).key = some a ∧ (m.entry i).value = v

/-- An entry other than the one at `p`. -/
def HoldsBut (m : HashMap K V) (p : Nat) (a : K) (v : Option V) : Prop :=
  ∃ i ≠ p, (m.entry i).key = some a ∧ (m.entry i).value = v

theorem key_isSome {i : Nat} : (m.entry i).key.isSome = true ↔ Taken m i := by
  rw [Taken, isSome_iff_ne_none]

theorem getElem_map {i : Nat} (hi : i < m.map.length) : m.map[i] = m.entry i := by
  simp [HashMap.entry, hi]

open Classical in
theorem live_set {p : Nat} (hp : p < m.capacity) (e : Entry K V) :
    (m.map.set p e).countP (fun e => e.key.isSome) + (if Taken m p then 1 else 0) =
      live m + if e.key.isSome then 1 else 0 := by
  have hpos : Taken m p → 0 < live m := by
    intro h
    rw [live, countP_pos_iff]
    exact ⟨m.entry p, getElem_map hp ▸ getElem_mem hp, key_isSome.2 h⟩
  have hlt : p < m.map.length := hp
  rw [countP_set hlt, getElem_map hlt, ← live]
  by_cases h : Taken m p
  · have := hpos h
    simp only [key_isSome.2 h, h, if_true]
    omega
  · simp [key_isSome, h]

/-- A map that is not full has an empty entry. -/
theorem exists_free (h : live m < m.capacity) : ∃ i < m.capacity, ¬Taken m i := by
  obtain ⟨e, he, hnone⟩ := countP_lt_length_iff.1 h
  obtain ⟨i, hi, rfl⟩ := getElem_of_mem he
  refine ⟨i, hi, fun ht => ?_⟩
  rw [getElem_map, key_isSome.2 ht] at hnone
  cases hnone

theorem live_moveEntry {p q : Nat} (hp : Taken m p) (hq : Taken m q) : live (moveEntry m p q) = live m := by
  have h := live_set hp.lt (m.entry q)
  simp only [hp, key_isSome.2 hq, if_true] at h
  exact Nat.add_right_cancel h

theorem live_clearAt {p : Nat} (hp : Taken m p) : live (m.clearAt p) + 1 = live m := by
  have h := live_set hp.lt { m.entry p with key := none }
  simp only [hp, if_true, isSome_none, Bool.false_eq_true, if_false] at h
  rw [live, HashMap.clearAt, modify_eq_set]
  exact h

theorem live_insertAt {p : Nat} (hp : p < m.capacity) (hfree : (m.entry p).key = none) (key : K)
    (hash : BitVec 32) : live (m.insertAt p key hash) = live m + 1 := by
  have h := live_set hp ⟨some key, none, hash⟩
  have hnot : ¬Taken m p := fun ht => ht hfree
  simp only [hnot, if_false, isSome_some, if_true] at h
  exact h

theorem live_setValue (p : Nat) (hp : p < m.capacity) (v : Option V) : live (m.setValue p v) = live m := by
  have h := live_set hp { m.entry p with value := v }
  rw [live, HashMap.setValue, modify_eq_set]
  by_cases ht : Taken m p
  · simp only [ht, key_isSome.2 ht, if_true] at h
    exact Nat.add_right_cancel h
  · have hsome : ¬(m.entry p).key.isSome = true := fun hs => ht (key_isSome.1 hs)
    simp only [ht, hsome, Bool.false_eq_true, if_false] at h
    exact h

/-! ## Removal -/

/-- What the loop of `Remove` has done. -/
structure Moved (m : HashMap K V) (p : Nat) (m' : HashMap K V) (p' : Nat) : Prop where
  taken : Taken m' p'
  capacity : m'.capacity = m.capacity
  occupancy : m'.occupancy = m.occupancy
  live : live m' = live m
  holds : ∀ a v, HoldsBut m' p' a v ↔ HoldsBut m p a v

theorem Moved.refl {p : Nat} (hp : Taken m p) : Moved m p m p := ⟨hp, rfl, rfl, rfl, fun _ _ => Iff.rfl⟩

theorem Moved.moveEntry {p q p' : Nat} (hp : Taken m p) (hq : Taken m q) (hne : q ≠ p)
    (h : Moved (moveEntry m p q) q m' p') : Moved m p m' p' := by
  refine ⟨h.taken, by rw [h.capacity, capacity_moveEntry], h.occupancy,
    by rw [h.live, live_moveEntry hp hq], fun a v => (h.holds a v).trans ?_⟩
  have hentry := entry_moveEntry hp.lt q
  constructor
  · rintro ⟨i, hi, hk, hv⟩
    rw [hentry] at hk hv
    split at hk
    · next hip =>
      rw [if_pos hip] at hv
      exact ⟨q, hne, hk, hv⟩
    · next hip =>
      rw [if_neg hip] at hv
      exact ⟨i, hip, hk, hv⟩
  · rintro ⟨i, hi, hk, hv⟩
    by_cases hiq : i = q
    · subst hiq
      exact ⟨p, hne.symm, by rw [hentry, if_pos rfl, hk], by rw [hentry, if_pos rfl, hv]⟩
    · exact ⟨i, hiq, by rw [hentry, if_neg hi, hk], by rw [hentry, if_neg hi, hv]⟩

/-- The loop of `Remove` ends, and its candidate can be cleared. -/
theorem moveBack_spec {fuel p q e : Nat} (h : Hole keys m p q) (he : e < m.capacity)
    (hfree : ¬Taken m e) (hfuel : dist m.capacity q e ≤ fuel) :
    ∃ m' p', HashMap.moveBack fuel m p q = some (m', p') ∧ Table keys (m'.clearAt p') ∧ Moved m p m' p' := by
  have hqe : q ≠ e := by
    rintro rfl
    exact hfree (h.run q he (Nat.le_refl _))
  have hstep := Circle.dist_next_left h.scanLt he hqe
  induction fuel generalizing m p q with
  | zero => omega
  | succ fuel ih =>
    rw [HashMap.moveBack]
    by_cases hq : Taken m (next m.capacity q)
    · have hne := h.next_ne he hfree
      have hnone : ¬(m.entry (next m.capacity q)).key.isNone = true := by
        rw [isNone_iff_eq_none]
        exact hq
      have hnext : next m.capacity q ≠ e := by
        intro heq
        exact hfree (heq ▸ hq)
      have hiff := moves_iff h.lt hq.lt (home_lt h.capacity (m.entry (next m.capacity q)).hash)
      simp only [hnone, Bool.false_eq_true, if_false]
      split
      · next hmove =>
        have hmove := h.move hq hne (hiff.1 hmove)
        have hcap : (moveEntry m p (next m.capacity q)).capacity = m.capacity :=
          capacity_moveEntry p (next m.capacity q)
        obtain ⟨m', p', hres, htable, hmoved⟩ := ih hmove (by rw [hcap]; exact he)
          (fun ht => hfree ((taken_moveEntry h.taken hq e).1 ht)) (by rw [hcap]; omega) hnext
          (by rw [hcap]; exact Circle.dist_next_left hq.lt he hnext)
        exact ⟨m', p', hres, htable, hmoved.moveEntry h.taken hq hne⟩
      · next hstay =>
        exact ih (h.stay hq hne (fun hlt => hstay (hiff.2 hlt))) he hfree (by omega) hnext
          (Circle.dist_next_left hq.lt he hnext)
    · have hnone : (m.entry (next m.capacity q)).key.isNone = true := by
        rw [isNone_iff_eq_none]
        exact not_not.1 hq
      simp only [hnone, if_true]
      exact ⟨m, p, rfl, h.clear hq, .refl h.taken⟩

theorem holds_clearAt {p : Nat} (hp : p < m.capacity) (a : K) (v : Option V) :
    Holds (m.clearAt p) a v ↔ HoldsBut m p a v := by
  have hentry := HashMap.entry_modify (fun e : Entry K V => { e with key := none }) hp
  constructor
  · rintro ⟨i, hk, hv⟩
    rw [HashMap.clearAt, hentry] at hk hv
    split at hk
    · cases hk
    · next hip =>
      rw [if_neg hip] at hv
      exact ⟨i, hip, hk, hv⟩
  · rintro ⟨i, hip, hk, hv⟩
    exact ⟨i, by rw [HashMap.clearAt, hentry, if_neg hip, hk], by rw [HashMap.clearAt, hentry, if_neg hip, hv]⟩

/-- The entries other than the one of the key. -/
theorem Table.holdsBut (h : Table keys m) {key k : K} {p : Nat} (hp : (m.entry p).key = some k)
    (hmatch : keys.isMatch key k) (a : K) (v : Option V) :
    HoldsBut m p a v ↔ Holds m a v ∧ ¬keys.isMatch key a := by
  constructor
  · rintro ⟨i, hip, hk, hv⟩
    exact ⟨⟨i, hk, hv⟩, fun ha => hip (h.unique hk hp (keys.trans (keys.symm ha) hmatch))⟩
  · rintro ⟨⟨i, hk, hv⟩, hnot⟩
    refine ⟨i, ?_, hk, hv⟩
    grind

/-- What holds between two operations. -/
structure Valid (keys : Keys K) (m : HashMap K V) : Prop where
  table : Table keys m
  occupancy : m.occupancy = live m
  room : m.occupancy < m.capacity

theorem Valid.remove (h : Valid keys m) (key : K) :
    ∃ m', m.remove keys key (keys.hash key) = some m' ∧ Valid keys m' ∧ m'.capacity = m.capacity ∧
      ∀ a v, Holds m' a v ↔ Holds m a v ∧ ¬keys.isMatch key a := by
  have hfree := exists_free (h.occupancy ▸ h.room)
  obtain ⟨p, hp, hfound⟩ := h.table.probe hfree key
  rw [HashMap.remove, hp]
  cases hk : (m.entry p).key with
  | none =>
    refine ⟨m, by simp [hk], h, rfl, fun a v => ⟨fun hav => ⟨hav, ?_⟩, And.left⟩⟩
    obtain ⟨i, hi, -⟩ := hav
    exact hfound.absent hk hi
  | some k =>
    obtain ⟨e, he, hfree⟩ := hfree
    have htaken := taken_of_key hk
    obtain ⟨m', p', hres, htable, hmoved⟩ := moveBack_spec (h.table.hole htaken) he hfree
      (Nat.le_of_lt (Circle.dist_lt hfound.lt he))
    refine ⟨{ m'.clearAt p' with occupancy := m'.occupancy - 1 }, by simp [hk, hres],
      ⟨⟨htable.capacity, htable.hash, htable.unique, htable.chain⟩, ?_, ?_⟩, ?_, fun a v => ?_⟩
    · have hlive := live_clearAt hmoved.taken
      have hocc := hmoved.occupancy
      rw [hmoved.live, ← h.occupancy] at hlive
      show m'.occupancy - 1 = live (m'.clearAt p')
      omega
    · have hcap := hmoved.capacity
      have hocc := hmoved.occupancy
      have hroom := h.room
      show m'.occupancy - 1 < (m'.clearAt p').capacity
      rw [HashMap.capacity_clearAt]
      omega
    · show (m'.clearAt p').capacity = m.capacity
      rw [HashMap.capacity_clearAt, hmoved.capacity]
    · exact (holds_clearAt hmoved.taken.lt a v).trans ((hmoved.holds a v).trans
        (h.table.holdsBut hk (hfound.isMatch hk) a v))

/-! ## Insertion -/

/-- No key of the map matches. -/
def Absent (keys : Keys K) (m : HashMap K V) (key : K) : Prop :=
  ∀ a v, Holds m a v → ¬keys.isMatch key a

theorem Found.absent_iff {key : K} {p : Nat} (h : Found keys m key p) :
    (m.entry p).key = none ↔ Absent keys m key := by
  constructor
  · rintro hnone a v ⟨i, hk, -⟩
    exact h.absent hnone hk
  · intro habs
    by_contra hsome
    obtain ⟨k, hk⟩ := ne_none_iff_exists'.1 hsome
    exact habs k _ ⟨p, hk, rfl⟩ (h.isMatch hk)

theorem holds_insertAt {p : Nat} (hp : p < m.capacity) (hfree : (m.entry p).key = none) (key : K)
    (hash : BitVec 32) (a : K) (v : Option V) :
    Holds (m.insertAt p key hash) a v ↔ Holds m a v ∨ (a = key ∧ v = none) := by
  have hentry := HashMap.entry_insertAt hp key hash
  constructor
  · rintro ⟨i, hk, hv⟩
    rw [hentry] at hk hv
    split at hk
    · grind
    · next hip =>
      rw [if_neg hip] at hv
      exact .inl ⟨i, hk, hv⟩
  · rintro (⟨i, hk, hv⟩ | ⟨rfl, rfl⟩)
    · have hip : i ≠ p := by
        grind
      exact ⟨i, by rw [hentry, if_neg hip, hk], by rw [hentry, if_neg hip, hv]⟩
    · exact ⟨p, by rw [hentry, if_pos rfl], by rw [hentry, if_pos rfl]⟩

theorem holds_setValue {p : Nat} (hp : p < m.capacity) (w : Option V) (a : K) (v : Option V) :
    Holds (m.setValue p w) a v ↔ HoldsBut m p a v ∨ ((m.entry p).key = some a ∧ v = w) := by
  have hentry := HashMap.entry_modify (fun e : Entry K V => { e with value := w }) hp
  constructor
  · rintro ⟨i, hk, hv⟩
    rw [HashMap.setValue, hentry] at hk hv
    split at hk
    · grind
    · next hip =>
      rw [if_neg hip] at hv
      exact .inl ⟨i, hip, hk, hv⟩
  · rintro (⟨i, hip, hk, hv⟩ | ⟨hk, rfl⟩)
    · exact ⟨i, by rw [HashMap.setValue, hentry, if_neg hip, hk],
        by rw [HashMap.setValue, hentry, if_neg hip, hv]⟩
    · exact ⟨p, by rw [HashMap.setValue, hentry, if_pos rfl, hk], by rw [HashMap.setValue, hentry, if_pos rfl]⟩

theorem Valid.setValue (h : Valid keys m) {p : Nat} (hp : p < m.capacity) (v : Option V) :
    Valid keys (m.setValue p v) where
  table := h.table.setValue hp v
  occupancy := h.occupancy.trans (live_setValue p hp v).symm
  room := by
    rw [HashMap.capacity_setValue]
    exact h.room

/-- `Lookup` of a key that the map has, or without insertion. -/
theorem Valid.lookup_here (h : Valid keys m) (key : K) (insert : Bool) (depth : Nat)
    (hkey : insert = true → ¬Absent keys m key) :
    ∃ p, HashMap.lookupWithin keys (depth + 1) m key (keys.hash key) insert = some (m, p) ∧
      (∀ q, p = some q → ∃ a, (m.entry q).key = some a ∧ keys.isMatch key a) ∧
      (p = none ↔ Absent keys m key) := by
  obtain ⟨p, hp, hfound⟩ := h.table.probe (exists_free (h.occupancy ▸ h.room)) key
  rw [HashMap.lookupWithin, hp]
  cases hk : (m.entry p).key with
  | none =>
    have habs := hfound.absent_iff.1 hk
    simp_all
  | some a =>
    have hhere : ¬Absent keys m key := by
      rw [← hfound.absent_iff, hk]
      exact some_ne_none a
    refine ⟨some p, by simp [hk], ?_, by simp [hhere]⟩
    rintro q hq
    obtain rfl := some.inj hq
    exact ⟨a, hk, hfound.isMatch hk⟩

/-- The entry for a new key. -/
structure Inserted (keys : Keys K) (m : HashMap K V) (key : K) (p : Nat) : Prop where
  table : Table keys (m.insertAt p key (keys.hash key))
  occupancy : (m.insertAt p key (keys.hash key)).occupancy = live (m.insertAt p key (keys.hash key))
  lt : p < m.capacity
  free : (m.entry p).key = none
  probe : m.probe keys key (keys.hash key) = some p

theorem Valid.exists_inserted (h : Valid keys m) {key : K} (habs : Absent keys m key) :
    ∃ p, Inserted keys m key p := by
  obtain ⟨p, hp, hfound⟩ := h.table.probe (exists_free (h.occupancy ▸ h.room)) key
  have hfree := hfound.absent_iff.2 habs
  refine ⟨p, h.table.insertAt hfound hfree, ?_, hfound.lt, hfree, hp⟩
  rw [live_insertAt hfound.lt hfree, ← h.occupancy]
  rfl

/-- `Lookup` that inserts and need not grow the map. -/
theorem Inserted.lookup {key : K} {p : Nat} (h : Inserted keys m key p)
    (hroom : m.occupancy + 1 + (m.occupancy + 1) / 4 < m.capacity) (depth : Nat) :
    HashMap.lookupWithin keys (depth + 1) m key (keys.hash key) true =
      some (m.insertAt p key (keys.hash key), some p) ∧
    Valid keys (m.insertAt p key (keys.hash key)) := by
  constructor
  · rw [HashMap.lookupWithin, h.probe]
    have hnot : ¬(m.insertAt p key (keys.hash key)).occupancy +
        (m.insertAt p key (keys.hash key)).occupancy / 4 ≥
        (m.insertAt p key (keys.hash key)).capacity := by
      rw [HashMap.capacity_insertAt, ge_iff_le, Nat.not_le]
      exact hroom
    simp only [h.free, isSome_none, Bool.false_eq_true, if_false, if_true, if_neg hnot]
  · refine ⟨h.table, h.occupancy, ?_⟩
    rw [HashMap.capacity_insertAt]
    show m.occupancy + 1 < m.capacity
    omega

/-! ## Growth -/

/-- What `Resize` makes of the entries that are still to be entered. -/
structure Pending (keys : Keys K) (m : HashMap K V) (l : List (Entry K V)) : Prop where
  hash : ∀ e ∈ l, ∀ a, e.key = some a → e.hash = keys.hash a
  distinct : l.Pairwise fun e f => ∀ a b, e.key = some a → f.key = some b → ¬keys.isMatch a b
  fresh : ∀ e ∈ l, ∀ a, e.key = some a → Absent keys m a

theorem rehash_spec (depth : Nat) (l : List (Entry K V)) (hm : Valid keys m) (h : Pending keys m l)
    (hroom : m.occupancy + l.countP (fun e => e.key.isSome) +
      (m.occupancy + l.countP (fun e => e.key.isSome)) / 4 < m.capacity) :
    ∃ m', HashMap.rehash (fun m key hash => HashMap.lookupWithin keys (depth + 1) m key hash true) l
        (l.countP fun e => e.key.isSome) m = some m' ∧
      Valid keys m' ∧ m'.capacity = m.capacity ∧
      ∀ a v, Holds m' a v ↔ Holds m a v ∨ ∃ e ∈ l, e.key = some a ∧ e.value = v := by
  induction l generalizing m with
  | nil => exact ⟨m, by simp [HashMap.rehash], hm, rfl, by simp⟩
  | cons e l ih =>
    obtain ⟨hdist, hdistinct⟩ := pairwise_cons.1 h.distinct
    cases hk : e.key with
    | none =>
      have hcount : (e :: l).countP (fun e => e.key.isSome) = l.countP fun e => e.key.isSome := by
        simp [hk]
      rw [hcount] at hroom ⊢
      obtain ⟨m', hres, hvalid, hcap, hholds⟩ := ih hm
        ⟨fun f hf => h.hash f (mem_cons_of_mem e hf), hdistinct,
          fun f hf => h.fresh f (mem_cons_of_mem e hf)⟩ hroom
      refine ⟨m', ?_, hvalid, hcap, fun a v => (hholds a v).trans ?_⟩
      · cases hn : l.countP fun e => e.key.isSome with
        | zero =>
          rw [hn] at hres
          simpa [HashMap.rehash] using hres
        | succ n =>
          rw [HashMap.rehash, hk, ← hn]
          exact hres
      · simp [hk]
    | some k =>
      have hcount : (e :: l).countP (fun e => e.key.isSome) = l.countP (fun e => e.key.isSome) + 1 := by
        simp [hk]
      rw [hcount] at hroom ⊢
      have hhash := h.hash e mem_cons_self k hk
      have habs := h.fresh e mem_cons_self k hk
      obtain ⟨p, hins⟩ := hm.exists_inserted habs
      obtain ⟨hlook, hvalid⟩ := hins.lookup (by omega) depth
      have hp : p < (m.insertAt p k (keys.hash k)).capacity := by
        rw [HashMap.capacity_insertAt]
        exact hins.lt
      have hvalid := hvalid.setValue hp e.value
      have hentry := HashMap.entry_insertAt hins.lt k (keys.hash k)
      have hstep : ∀ a v, Holds ((m.insertAt p k (keys.hash k)).setValue p e.value) a v ↔
          Holds m a v ∨ (a = k ∧ v = e.value) := by
        intro a v
        rw [holds_setValue hp, hentry, if_pos rfl, eq_comm (a := a), some_inj]
        refine or_congr_left ⟨?_, ?_⟩
        · rintro ⟨i, hip, hi⟩
          rw [hentry, if_neg hip] at hi
          exact ⟨i, hi⟩
        · rintro ⟨i, hki, hvi⟩
          have hip : i ≠ p := by
            rintro rfl
            rw [hins.free] at hki
            cases hki
          exact ⟨i, hip, by rw [hentry, if_neg hip, hki], by rw [hentry, if_neg hip, hvi]⟩
      have hocc : ((m.insertAt p k (keys.hash k)).setValue p e.value).occupancy = m.occupancy + 1 := rfl
      have hcap : ((m.insertAt p k (keys.hash k)).setValue p e.value).capacity = m.capacity := by
        rw [HashMap.capacity_setValue, HashMap.capacity_insertAt]
      have hpend : Pending keys ((m.insertAt p k (keys.hash k)).setValue p e.value) l := by
        refine ⟨fun f hf => h.hash f (mem_cons_of_mem e hf), hdistinct, ?_⟩
        intro f hf a ha b v hb
        rcases (hstep b v).1 hb with hb | ⟨rfl, -⟩
        · exact h.fresh f (mem_cons_of_mem e hf) a ha b v hb
        · exact fun hmatch => hdist f hf b a hk ha (keys.symm hmatch)
      obtain ⟨m', hres, hvalid', hcap', hholds⟩ := ih hvalid hpend (by omega)
      refine ⟨m', ?_, hvalid', hcap'.trans hcap, fun a v => (hholds a v).trans ?_⟩
      · rw [HashMap.rehash, hk]
        simp only [hhash, hlook]
        exact hres
      grind

theorem holds_iff_mem {a : K} {v : Option V} : Holds m a v ↔ ∃ e ∈ m.map, e.key = some a ∧ e.value = v := by
  constructor
  · rintro ⟨i, hk, hv⟩
    have hi : i < m.map.length := (taken_of_key hk).lt
    exact ⟨m.entry i, getElem_map hi ▸ getElem_mem hi, hk, hv⟩
  · rintro ⟨e, he, hk, hv⟩
    obtain ⟨i, hi, rfl⟩ := getElem_of_mem he
    exact ⟨i, getElem_map hi ▸ hk, getElem_map hi ▸ hv⟩

theorem entry_initializeMap (capacity i : Nat) :
    (HashMap.initializeMap capacity : HashMap K V).entry i = kEmpty := by
  grind [HashMap.entry, HashMap.initializeMap]

theorem valid_initializeMap {capacity : Nat} (h : ∃ k < 32, capacity = 2 ^ k) :
    Valid keys (HashMap.initializeMap capacity : HashMap K V) := by
  refine ⟨table_initializeMap h, ?_, ?_⟩
  · show 0 = countP _ (replicate _ _)
    rw [countP_replicate]
    rfl
  · obtain ⟨k, -, rfl⟩ := h
    show 0 < (replicate _ _).length
    grind

theorem not_holds_initializeMap (capacity : Nat) (a : K) (v : Option V) :
    ¬Holds (HashMap.initializeMap capacity : HashMap K V) a v := by
  rintro ⟨i, hk, -⟩
  rw [entry_initializeMap] at hk
  cases hk

/-- All entries of a map are entered in one that has none. -/
theorem Table.pending (h : Table keys m) (capacity : Nat) :
    Pending keys (HashMap.initializeMap capacity : HashMap K V) m.map := by
  refine ⟨?_, ?_, fun e _ a _ b v hb => absurd hb (not_holds_initializeMap capacity b v)⟩
  · intro e he a ha
    obtain ⟨i, hi, rfl⟩ := getElem_of_mem he
    rw [getElem_map hi] at ha ⊢
    exact h.hash ha
  · rw [pairwise_iff_getElem]
    intro i j hi hj hij a b ha hb hmatch
    rw [getElem_map] at ha hb
    have := h.unique ha hb hmatch
    omega

/-- `Resize` doubles a capacity that is small enough. -/
theorem resize_spec (h : Table keys m) (hocc : m.occupancy = live m) (hsmall : m.capacity < 2 ^ 31)
    (depth : Nat) :
    ∃ m', (m.resize fun m key hash => HashMap.lookupWithin keys (depth + 1) m key hash true) =
        some m' ∧ Valid keys m' ∧ ∀ a v, Holds m' a v ↔ Holds m a v := by
  obtain ⟨k, hk, hcap⟩ := h.capacity
  have hk' : k < 31 := (Nat.pow_lt_pow_iff_right (by decide)).1 (hcap ▸ hsmall)
  have hdouble : m.capacity * 2 % 2 ^ 32 = m.capacity * 2 := Nat.mod_eq_of_lt (by omega)
  have hpos : 0 < m.capacity := hcap ▸ Nat.two_pow_pos k
  have hnew : ∃ k < 32, m.capacity * 2 = 2 ^ k := ⟨k + 1, by omega, by rw [hcap, Nat.pow_succ]⟩
  have hle : live m ≤ m.capacity := countP_le_length
  have hlen : (HashMap.initializeMap (m.capacity * 2) : HashMap K V).capacity = m.capacity * 2 :=
    length_replicate
  obtain ⟨m', hres, hvalid, -, hholds⟩ := rehash_spec depth m.map (valid_initializeMap hnew) (h.pending _) (by
      show 0 + live m + (0 + live m) / 4 < _
      omega)
  refine ⟨m', ?_, hvalid, fun a v => (hholds a v).trans ?_⟩
  · rw [HashMap.resize, hdouble, hocc]
    exact hres
  · rw [holds_iff_mem (m := m)]
    exact or_iff_right (not_holds_initializeMap _ a v)

/-- `Lookup` that inserts a new key. -/
theorem Valid.lookup_new (h : Valid keys m) {key : K} (habs : Absent keys m key)
    (hsmall : m.occupancy + 1 + (m.occupancy + 1) / 4 < 2 ^ 31) :
    ∃ m' p, m.lookup keys key (keys.hash key) true = some (m', some p) ∧ Valid keys m' ∧
      (∃ a, (m'.entry p).key = some a ∧ keys.isMatch key a) ∧
      ∀ a v, Holds m' a v ↔ Holds m a v ∨ (a = key ∧ v = none) := by
  obtain ⟨p, hins⟩ := h.exists_inserted habs
  have hholds := holds_insertAt hins.lt hins.free key (keys.hash key)
  by_cases hroom : m.occupancy + 1 + (m.occupancy + 1) / 4 < m.capacity
  · obtain ⟨hlook, hvalid⟩ := hins.lookup hroom 1
    refine ⟨_, p, hlook, hvalid, ⟨key, ?_, keys.refl key⟩, hholds⟩
    rw [HashMap.entry_insertAt hins.lt, if_pos rfl]
  · have hcap : (m.insertAt p key (keys.hash key)).capacity < 2 ^ 31 := by
      rw [HashMap.capacity_insertAt]
      omega
    obtain ⟨m', hres, hvalid, hholds'⟩ := resize_spec hins.table hins.occupancy hcap 0
    obtain ⟨q, hq, hfound⟩ := hvalid.table.probe (exists_free (hvalid.occupancy ▸ hvalid.room)) key
    have hkey : Holds m' key none := (hholds' key none).2 ((hholds key none).2 (.inr ⟨rfl, rfl⟩))
    have hsome : (m'.entry q).key ≠ none := by
      rw [ne_eq, hfound.absent_iff]
      exact fun hnot => hnot key none hkey (keys.refl key)
    obtain ⟨a, ha⟩ := ne_none_iff_exists'.1 hsome
    refine ⟨m', q, ?_, hvalid, ⟨a, ha, hfound.isMatch ha⟩, fun a v => (hholds' a v).trans (hholds a v)⟩
    have hge : (m.insertAt p key (keys.hash key)).occupancy + (m.insertAt p key (keys.hash key)).occupancy / 4 ≥
        (m.insertAt p key (keys.hash key)).capacity := by
      rw [HashMap.capacity_insertAt]
      exact Nat.not_lt.1 hroom
    rw [HashMap.lookup, HashMap.lookupWithin, hins.probe]
    simp only [hins.free, isSome_none, Bool.false_eq_true, if_false, if_true, if_pos hge,
      hres, bind_eq_bind, bind_some, hq]

/-! ## Clearing and iteration -/

theorem Valid.clear (h : Valid keys m) : Valid keys m.clear ∧ ∀ a v, ¬Holds m.clear a v := by
  have hkey : ∀ i, (m.clear.entry i).key = none := by
    intro i
    rw [HashMap.entry, HashMap.clear, getD_eq_getElem?_getD, List.getElem?_map]
    cases m.map[i]? <;> rfl
  have hcap : m.clear.capacity = m.capacity := length_map _
  refine ⟨⟨⟨hcap ▸ h.table.capacity, ?_, ?_, ?_⟩, ?_, ?_⟩, ?_⟩
  · intro i k hk
    rw [hkey] at hk
    cases hk
  · intro i j a b ha
    rw [hkey] at ha
    cases ha
  · intro i j hi
    exact absurd (hkey i) hi
  · show 0 = countP _ (List.map _ _)
    exact (countP_eq_zero.2 (by simp)).symm
  · rw [hcap]
    exact Nat.zero_lt_of_lt h.room
  · rintro a v ⟨i, hk, -⟩
    rw [hkey] at hk
    cases hk

theorem iterateFrom_eq (l : List (Entry K V)) {p fuel : Nat} (hl : m.map.drop p = l)
    (hfuel : (l.filter fun e => e.key.isSome).length ≤ fuel) :
    m.iterateFrom fuel (m.nextFrom l.length p) = some (l.filter fun e => e.key.isSome) := by
  induction l generalizing p fuel with
  | nil => cases fuel <;> rfl
  | cons e l ih =>
    have hp : m.entry p = e := by
      have hget : (m.map.drop p)[0]? = some e := by rw [hl]; rfl
      rw [List.getElem?_drop, Nat.add_zero] at hget
      rw [HashMap.entry, getD_eq_getElem?_getD, hget]
      rfl
    have hrest : m.map.drop (p + 1) = l := by
      rw [← tail_drop, hl]
      rfl
    have hlen : m.capacity - (p + 1) = l.length := by
      rw [← hrest, length_drop]
      rfl
    rw [length_cons, HashMap.nextFrom, hp]
    by_cases hkey : e.key.isSome = true
    · rw [if_pos hkey]
      have hfilter : (e :: l).filter (fun e => e.key.isSome) = e :: l.filter fun e => e.key.isSome :=
        filter_cons_of_pos hkey
      rw [hfilter] at hfuel ⊢
      cases fuel with
      | zero => exact absurd hfuel (by simp)
      | succ fuel =>
        simp_all [HashMap.iterateFrom, HashMap.nextEntry]
    simp_all

/-- The entries with keys are visited once each, in the order of the array. -/
theorem iterate_eq : m.iterate = some (m.map.filter fun e => e.key.isSome) :=
  iterateFrom_eq m.map (p := 0) rfl (length_filter_le _ _)

end W16.HashMaps
