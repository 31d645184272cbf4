import W16.HashMapOperations

/-!
# Runs on a hash map

A run of operations shows what a finite map would, as long as the map need not grow
beyond `2 ^ 31` entries: the capacity is a `uint32_t`, and doubling this one gives zero.
-/
namespace W16.HashMaps

open List Option

variable {K V : Type}

/-- What clients do: `assign` writes the value of the entry that `Lookup` gives. -/
inductive Op (K V : Type) where
  | lookup (key : K) (insert : Bool)
  | assign (key : K) (insert : Bool) (value : Option V)
  | remove (key : K)
  | clear
  | iterate

/-- What clients see. -/
inductive Out (K V : Type) where
  | done
  | entry (e : Option (K × Option V))
  | entries (l : List (K × Option V))

/-- The key and value of an entry with a key. -/
def Entry.pair (e : Entry K V) : Option (K × Option V) := e.key.map (·, e.value)

def step (keys : Keys K) (m : HashMap K V) : Op K V → Option (HashMap K V × Out K V)
  | .lookup key insert =>
    (m.lookup keys key (keys.hash key) insert).map fun (m, p) =>
      (m, .entry (p.bind fun p => (m.entry p).pair))
  | .assign key insert value =>
    (m.lookup keys key (keys.hash key) insert).map fun (m, p) =>
      ((p.map fun p => m.setValue p value).getD m, .done)
  | .remove key => (m.remove keys key (keys.hash key)).map (·, .done)
  | .clear => some (m.clear, .done)
  | .iterate => m.iterate.map fun l => (m, .entries (l.filterMap Entry.pair))

def run (keys : Keys K) : HashMap K V → List (Op K V) → Option (HashMap K V × List (Out K V))
  | m, [] => some (m, [])
  | m, op :: ops => do
    let (m, out) ← step keys m op
    let (m, outs) ← run keys m ops
    some (m, out :: outs)

/-! ## Finite maps -/

/-- A finite map gives for a key the key that was first inserted and the last value. -/
abbrev FiniteMap (K V : Type) := K → Option (K × Option V)

namespace FiniteMap

variable (keys : Keys K) (A : FiniteMap K V)

def insert (key : K) : FiniteMap K V := fun k =>
  if (A key).isNone ∧ keys.isMatch k key then some (key, none) else A k

def assign (key : K) (value : Option V) : FiniteMap K V := fun k =>
  if keys.isMatch k key then (A k).map fun x => (x.1, value) else A k

def erase (key : K) : FiniteMap K V := fun k => if keys.isMatch k key then none else A k

/-- A list of all entries, each one once. -/
structure Enumerates (l : List (K × Option V)) : Prop where
  mem : ∀ k a v, A k = some (a, v) ↔ (a, v) ∈ l ∧ keys.isMatch k a
  once : l.Pairwise fun x y => ¬keys.isMatch x.1 y.1

/-- A step of a finite map. -/
def Step : Op K V → Out K V → FiniteMap K V → Prop
  | .lookup key i, out, A' => A' = (if i then A.insert keys key else A) ∧ out = .entry (A' key)
  | .assign key i value, out, A' =>
    A' = (if i then A.insert keys key else A).assign keys key value ∧ out = .done
  | .remove key, out, A' => A' = A.erase keys key ∧ out = .done
  | .clear, out, A' => A' = (fun _ => none) ∧ out = .done
  | .iterate, out, A' => A' = A ∧ ∃ l, out = .entries l ∧ Enumerates keys A l

inductive Run : FiniteMap K V → List (Op K V) → List (Out K V) → FiniteMap K V → Prop
  | nil (A : FiniteMap K V) : Run A [] [] A
  | cons {A A' A'' : FiniteMap K V} {op : Op K V} {out : Out K V} {ops : List (Op K V)}
      {outs : List (Out K V)} :
      Step keys A op out A' → Run A' ops outs A'' → Run A (op :: ops) (out :: outs) A''

end FiniteMap

/-! ## Refinement -/

variable {keys : Keys K} {m m' : HashMap K V} {A : FiniteMap K V}

def Represents (keys : Keys K) (m : HashMap K V) (A : FiniteMap K V) : Prop :=
  ∀ k a v, A k = some (a, v) ↔ Holds m a v ∧ keys.isMatch k a

theorem Represents.absent_iff (h : Represents keys m A) (key : K) : Absent keys m key ↔ A key = none := by
  constructor
  · intro habs
    by_contra hsome
    obtain ⟨⟨a, v⟩, hav⟩ := ne_none_iff_exists'.1 hsome
    obtain ⟨hholds, hmatch⟩ := (h key a v).1 hav
    exact habs a v hholds hmatch
  · intro hnone a v hav hmatch
    have := (h key a v).2 ⟨hav, hmatch⟩
    rw [hnone] at this
    cases this

/-- The entry at a position with a matching key. -/
theorem Represents.entry (h : Represents keys m A) {key a : K} {p : Nat}
    (hp : (m.entry p).key = some a) (hmatch : keys.isMatch key a) :
    (m.entry p).pair = A key := by
  rw [Entry.pair, hp]
  exact ((h key a (m.entry p).value).2 ⟨⟨p, hp, rfl⟩, hmatch⟩).symm

theorem Represents.insert (h : Represents keys m A) {key : K} (habs : Absent keys m key)
    (hholds : ∀ a v, Holds m' a v ↔ Holds m a v ∨ (a = key ∧ v = none)) :
    Represents keys m' (A.insert keys key) := by
  have hnone := (h.absent_iff key).1 habs
  intro k a v
  rw [FiniteMap.insert, hholds, hnone]
  by_cases hk : keys.isMatch k key
  · rw [if_pos ⟨rfl, hk⟩]
    constructor
    · grind
    · rintro ⟨hav | ⟨rfl, rfl⟩, hmatch⟩
      · exact absurd (keys.trans (keys.symm hk) hmatch) (habs a v hav)
      · rfl
  · rw [if_neg fun hboth => hk hboth.2, h]
    grind

theorem Represents.insert_here (h : Represents keys m A) {key : K} (hhere : ¬Absent keys m key) :
    A.insert keys key = A := by
  funext k
  rw [FiniteMap.insert, if_neg]
  rintro ⟨hnone, -⟩
  exact hhere ((h.absent_iff key).2 (isNone_iff_eq_none.1 hnone))

theorem Represents.setValue (h : Represents keys m A) (ht : Table keys m) {key a : K} {p : Nat}
    (hp : (m.entry p).key = some a) (hmatch : keys.isMatch key a) (value : Option V) :
    Represents keys (m.setValue p value) (A.assign keys key value) := by
  intro k b v
  rw [FiniteMap.assign, holds_setValue (taken_of_key hp).lt, ht.holdsBut hp hmatch]
  by_cases hk : keys.isMatch k key
  · have hentry := h.entry hp (keys.trans hk hmatch)
    rw [Entry.pair, hp] at hentry
    rw [if_pos hk, ← hentry, hp]
    constructor
    · intro heq
      obtain ⟨rfl, rfl⟩ : a = b ∧ value = v := by simpa using heq
      exact ⟨.inr ⟨rfl, rfl⟩, keys.trans hk hmatch⟩
    · rintro ⟨⟨-, hnot⟩ | ⟨hab, rfl⟩, hkb⟩
      · exact absurd (keys.trans (keys.symm hk) hkb) hnot
      · rw [some.inj hab]
        rfl
  · rw [if_neg hk, h]
    constructor
    · rintro ⟨hav, hkb⟩
      exact ⟨.inl ⟨hav, fun hkey => hk (keys.trans hkb (keys.symm hkey))⟩, hkb⟩
    · rintro ⟨⟨hav, -⟩ | ⟨hab, rfl⟩, hkb⟩
      · exact ⟨hav, hkb⟩
      · obtain rfl := some.inj (hp.symm.trans hab)
        exact absurd (keys.trans hkb (keys.symm hmatch)) hk

/-- The entries of an iteration. -/
theorem Represents.enumerates (h : Represents keys m A) (ht : Table keys m) :
    A.Enumerates keys ((m.map.filter fun e => e.key.isSome).filterMap Entry.pair) := by
  have hmem : ∀ a v, (a, v) ∈ (m.map.filter fun e => e.key.isSome).filterMap Entry.pair ↔ Holds m a v := by
    intro a v
    rw [holds_iff_mem, mem_filterMap]
    constructor
    · grind [Entry.pair, map_eq_some_iff]
    · rintro ⟨e, he, hk, rfl⟩
      exact ⟨e, mem_filter.2 ⟨he, by simp [hk]⟩, by simp [Entry.pair, hk]⟩
  refine ⟨fun k a v => ?_, ?_⟩
  · rw [hmem]
    exact h k a v
  · rw [pairwise_filterMap]
    refine ((ht.pending 0).distinct.sublist filter_sublist).imp ?_
    intro e f hdist x hx y hy
    obtain ⟨a, ha, rfl⟩ := map_eq_some_iff.1 hx
    obtain ⟨b, hb, rfl⟩ := map_eq_some_iff.1 hy
    exact hdist a b ha hb

theorem length_entries (m : HashMap K V) :
    ((m.map.filter fun e => e.key.isSome).filterMap Entry.pair).length = live m := by
  simp [live, countP_eq_length_filter, Entry.pair]

/-- The key that an operation inserts if it is absent. -/
def Op.inserts : Op K V → Option K
  | .lookup key true => some key
  | .assign key true _ => some key
  | _ => none

/-- The operation does not grow a map of `2 ^ 31` entries. -/
def Roomy (keys : Keys K) (m : HashMap K V) (op : Op K V) : Prop :=
  ∀ key, op.inserts = some key → Absent keys m key → m.occupancy + 1 + (m.occupancy + 1) / 4 < 2 ^ 31

/-- All steps of a run are roomy. -/
def RoomyRun (keys : Keys K) : HashMap K V → List (Op K V) → Prop
  | _, [] => True
  | m, op :: ops => Roomy keys m op ∧ ∀ m' out, step keys m op = some (m', out) → RoomyRun keys m' ops

/-- `Lookup` is the lookup of the finite map, which has the key inserted before if asked to. -/
theorem Valid.lookup (h : Valid keys m) (hA : Represents keys m A) (key : K) (insert : Bool)
    (hroomy : insert = true → Absent keys m key → m.occupancy + 1 + (m.occupancy + 1) / 4 < 2 ^ 31) :
    ∃ m' p, m.lookup keys key (keys.hash key) insert = some (m', p) ∧ Valid keys m' ∧
      Represents keys m' (if insert then A.insert keys key else A) ∧
      (∀ q, p = some q → ∃ a, (m'.entry q).key = some a ∧ keys.isMatch key a) ∧
      (p = none → Absent keys m' key) := by
  by_cases hnew : insert = true ∧ Absent keys m key
  · obtain ⟨rfl, habs⟩ := hnew
    obtain ⟨m', p, hres, hvalid, hkey, hholds⟩ := h.lookup_new habs (hroomy rfl habs)
    refine ⟨m', some p, hres, hvalid, hA.insert habs hholds, ?_, fun hp => (nomatch hp)⟩
    rintro q hq
    exact some.inj hq ▸ hkey
  · obtain ⟨p, hres, hkey, hnone⟩ := h.lookup_here key insert 1 fun hi habs => hnew ⟨hi, habs⟩
    refine ⟨m, p, hres, h, ?_, hkey, hnone.1⟩
    split
    · next hi =>
      rw [hA.insert_here fun habs => hnew ⟨hi, habs⟩]
      exact hA
    · exact hA

theorem step_spec (h : Valid keys m) (hA : Represents keys m A) {op : Op K V} (hroomy : Roomy keys m op) :
    ∃ m' out A', step keys m op = some (m', out) ∧ A.Step keys op out A' ∧ Valid keys m' ∧
      Represents keys m' A' := by
  cases op with
  | lookup key insert =>
    obtain ⟨m', p, hres, hvalid, hA', hkey, hnone⟩ := h.lookup hA key insert
      fun hi => hroomy key (by subst hi; rfl)
    refine ⟨m', _, _, by rw [step, hres]; rfl, ⟨rfl, ?_⟩, hvalid, hA'⟩
    cases p with
    | none => rw [(hA'.absent_iff key).1 (hnone rfl)]; rfl
    | some q =>
      obtain ⟨a, ha, hmatch⟩ := hkey q rfl
      rw [← hA'.entry ha hmatch]
      rfl
  | assign key insert value =>
    obtain ⟨m', p, hres, hvalid, hA', hkey, hnone⟩ := h.lookup hA key insert
      fun hi => hroomy key (by subst hi; rfl)
    refine ⟨_, _, _, by rw [step, hres]; rfl, ⟨rfl, rfl⟩, ?_⟩
    cases p with
    | none =>
      refine ⟨hvalid, ?_⟩
      have hnone := (hA'.absent_iff key).1 (hnone rfl)
      intro k a v
      rw [FiniteMap.assign]
      split
      · next hk =>
        have hkn : (if insert then A.insert keys key else A) k = none := by
          refine (hA'.absent_iff k).1 fun b w hb hmatch => ?_
          exact (hA'.absent_iff key).2 hnone b w hb (keys.trans (keys.symm hk) hmatch)
        have hiff := hA' k a v
        rw [hkn] at hiff ⊢
        exact hiff
      · exact hA' k a v
    | some q =>
      obtain ⟨a, ha, hmatch⟩ := hkey q rfl
      exact ⟨hvalid.setValue (taken_of_key ha).lt value, hA'.setValue hvalid.table ha hmatch value⟩
  | remove key =>
    obtain ⟨m', hres, hvalid, -, hholds⟩ := h.remove key
    refine ⟨m', _, _, by rw [step, hres]; rfl, ⟨rfl, rfl⟩, hvalid, fun k a v => ?_⟩
    rw [FiniteMap.erase, hholds]
    split
    · next hk =>
      refine ⟨fun hn => (nomatch hn), ?_⟩
      rintro ⟨⟨-, hnot⟩, hka⟩
      exact absurd (keys.trans (keys.symm hk) hka) hnot
    · next hk =>
      rw [hA]
      constructor
      · rintro ⟨hav, hka⟩
        exact ⟨⟨hav, fun hkey => hk (keys.trans hka (keys.symm hkey))⟩, hka⟩
      grind
  | clear =>
    obtain ⟨hvalid, hnone⟩ := h.clear
    refine ⟨m.clear, _, _, rfl, ⟨rfl, rfl⟩, hvalid, fun k a v => ?_⟩
    grind
  | iterate =>
    refine ⟨m, _, A, by rw [step, iterate_eq]; rfl, ⟨rfl, _, rfl, hA.enumerates h.table⟩, h, hA⟩

theorem run_spec {ops : List (Op K V)} (h : Valid keys m) (hA : Represents keys m A)
    (hroomy : RoomyRun keys m ops) :
    ∃ m' outs A', run keys m ops = some (m', outs) ∧ FiniteMap.Run keys A ops outs A' ∧
      Valid keys m' ∧ Represents keys m' A' := by
  induction ops generalizing m A with
  | nil => exact ⟨m, [], A, rfl, .nil A, h, hA⟩
  | cons op ops ih =>
    obtain ⟨m', out, A', hstep, hspec, hvalid, hA'⟩ := step_spec h hA hroomy.1
    obtain ⟨m'', outs, A'', hrun, hspecs, hvalid', hA''⟩ := ih hvalid hA' (hroomy.2 m' out hstep)
    exact ⟨m'', out :: outs, A'', by rw [run, hstep]; simp [hrun], .cons hspec hspecs, hvalid', hA''⟩

theorem represents_initializeMap (capacity : Nat) :
    Represents keys (HashMap.initializeMap capacity : HashMap K V) fun _ => none := by
  intro k a v
  simp [not_holds_initializeMap]

/-- A hash map refines a finite map in every run that does not grow a map of `2 ^ 31`
entries. -/
theorem hashMap_refines (keys : Keys K) {k : Nat} (hk : k < 32) (ops : List (Op K V))
    (hroomy : RoomyRun keys (HashMap.initializeMap (2 ^ k)) ops) :
    ∃ m outs A, run keys (HashMap.initializeMap (2 ^ k)) ops = some (m, outs) ∧
      FiniteMap.Run keys (fun _ => none) ops outs A ∧
      (∃ l, A.Enumerates keys l ∧ m.occupancy = l.length) ∧ m.occupancy < m.capacity := by
  obtain ⟨m, outs, A, hrun, hspec, hvalid, hA⟩ :=
    run_spec (valid_initializeMap ⟨k, hk, rfl⟩) (represents_initializeMap _) hroomy
  exact ⟨m, outs, A, hrun, hspec, ⟨_, hA.enumerates hvalid.table,
    hvalid.occupancy.trans (length_entries m).symm⟩, hvalid.room⟩

/-- Numbers that are their own hashes. -/
def numbers : Keys Nat where
  isMatch a b := a == b
  hash a := BitVec.ofNat 32 a
  refl := by simp
  symm := by simp
  trans := by simp
  hash_eq := by simp

/-- Two numbers with the same place, the first of which is removed. -/
theorem hashMap_refines_numbers :
    let ops : List (Op Nat Nat) := [.assign 1 true (some 7), .lookup 3 true, .remove 1, .iterate]
    ∃ m outs A, run numbers (HashMap.initializeMap (2 ^ 1)) ops = some (m, outs) ∧
      FiniteMap.Run numbers (fun _ => none) ops outs A ∧
      (∃ l, A.Enumerates numbers l ∧ m.occupancy = l.length) ∧ m.occupancy < m.capacity := by
  refine hashMap_refines numbers (by decide) _ ⟨fun _ _ _ => by decide, ?_⟩
  rintro m out h
  obtain ⟨rfl, -⟩ := Prod.mk.inj (some.inj h)
  refine ⟨fun _ _ _ => by decide, ?_⟩
  rintro m out h
  obtain ⟨rfl, -⟩ := Prod.mk.inj (some.inj h)
  refine ⟨fun _ _ _ => by decide, ?_⟩
  rintro m out h
  obtain ⟨rfl, -⟩ := Prod.mk.inj (some.inj h)
  exact ⟨fun _ _ _ => by decide, fun _ _ _ => trivial⟩

/-! ## The largest map -/

theorem run_append (keys : Keys K) (ops ops' : List (Op K V)) (m : HashMap K V) :
    run keys m (ops ++ ops') = (run keys m ops).bind fun (m, outs) =>
      (run keys m ops').map fun (m, outs') => (m, outs ++ outs') := by
  induction ops generalizing m with
  | nil => simp [run]
  | cons op ops ih =>
    rw [cons_append, run, run]
    cases step keys m op with
    | none => rfl
    | some r =>
      simp only [bind_eq_bind, bind_some, ih]
      cases run keys r.1 ops with
      | none => rfl
      | some r' =>
        simp only [bind_some]
        cases run keys r'.1 ops' <;> rfl

/-- A map without an array has no place for an entry. -/
theorem rehash_initializeMap_zero (depth : Nat) (l : List (Entry K V)) (n : Nat) :
    HashMap.rehash (fun m key hash => HashMap.lookupWithin keys depth m key hash true) l (n + 1)
      (HashMap.initializeMap 0) = none := by
  induction l with
  | nil => rfl
  | cons e l ih =>
    rw [HashMap.rehash]
    cases e.key with
    | none => exact ih
    | some k => cases depth <;> rfl

/-- So many numbers are entered in a map of `2 ^ 31` entries without growing it. -/
theorem run_numbers {n : Nat} (hn : n + n / 4 < 2 ^ 31) :
    ∃ m outs, run numbers (HashMap.initializeMap (2 ^ 31) : HashMap Nat Nat)
        ((List.range n).map fun i => .lookup i true) = some (m, outs) ∧
      Valid numbers m ∧ m.capacity = 2 ^ 31 ∧ m.occupancy = n ∧ ∀ a v, Holds m a v → a < n := by
  induction n with
  | zero =>
    exact ⟨_, [], rfl, valid_initializeMap ⟨31, by decide, rfl⟩, length_replicate, rfl,
      fun a v h => absurd h (not_holds_initializeMap _ a v)⟩
  | succ n ih =>
    obtain ⟨m, outs, hrun, hvalid, hcap, hocc, hholds⟩ := ih (by omega)
    have habs : Absent numbers m n := by
      intro a v hav hmatch
      grind [numbers]
    obtain ⟨p, hins⟩ := hvalid.exists_inserted habs
    obtain ⟨hlook, hvalid'⟩ := hins.lookup (by rw [hocc, hcap]; exact hn) 1
    refine ⟨m.insertAt p n (numbers.hash n),
      outs ++ [Out.entry ((m.insertAt p n (numbers.hash n)).entry p).pair], ?_, hvalid', ?_, ?_, ?_⟩
    · rw [range_succ, map_append, run_append, hrun]
      simp [run, step, HashMap.lookup, hlook]
    · rw [HashMap.capacity_insertAt, hcap]
    · show m.occupancy + 1 = n + 1
      rw [hocc]
    · intro a v hav
      rcases (holds_insertAt hins.lt hins.free n _ a v).1 hav with h | ⟨rfl, -⟩
      · exact Nat.lt_succ_of_lt (hholds a v h)
      · exact Nat.lt_succ_self a

/-- One number more doubles the capacity to zero, and the insertion has no result. -/
theorem run_numbers_none {n : Nat} (hn : n + n / 4 < 2 ^ 31) (hnext : 2 ^ 31 ≤ n + 1 + (n + 1) / 4) :
    run numbers (HashMap.initializeMap (2 ^ 31) : HashMap Nat Nat)
      ((List.range (n + 1)).map fun i => .lookup i true) = none := by
  obtain ⟨m, outs, hrun, hvalid, hcap, hocc, hholds⟩ := run_numbers hn
  have habs : Absent numbers m n := by
    intro a v hav hmatch
    grind [numbers]
  obtain ⟨p, hins⟩ := hvalid.exists_inserted habs
  have hge : (m.insertAt p n (numbers.hash n)).occupancy + (m.insertAt p n (numbers.hash n)).occupancy / 4 ≥
      (m.insertAt p n (numbers.hash n)).capacity := by
    rw [HashMap.capacity_insertAt, hcap]
    show m.occupancy + 1 + (m.occupancy + 1) / 4 ≥ 2 ^ 31
    rw [hocc]
    exact hnext
  have hresize : ((m.insertAt p n (numbers.hash n)).resize fun m key hash =>
      HashMap.lookupWithin numbers 1 m key hash true) = none := by
    rw [HashMap.resize, HashMap.capacity_insertAt, hcap]
    exact rehash_initializeMap_zero 1 _ _
  have hlook : m.lookup numbers n (numbers.hash n) true = none := by
    rw [HashMap.lookup, HashMap.lookupWithin, hins.probe]
    simp only [hins.free, isSome_none, Bool.false_eq_true, if_false, if_true, if_pos hge, hresize]
    rfl
  rw [range_succ, map_append, run_append, hrun]
  simp only [bind_some, map_cons, map_nil, run, step, hlook]
  rfl

/-- In a map of initially `2 ^ 31` entries the 1717986919th insertion has no result. -/
theorem largest_map_fails : run numbers (HashMap.initializeMap (2 ^ 31) : HashMap Nat Nat)
      ((List.range (1717986918 + 1)).map fun i => .lookup i true) = none :=
  run_numbers_none (by decide) (by decide)

end W16.HashMaps
