import Mathlib
import W16.Circle

/-!
# Hash maps

`HashMap` of the runtime: open addressing with linear probing, removal that moves entries
back, and growth that enters all entries again. The target has 64-bit sizes, so an array of
any `uint32_t` capacity can be asked for; it is taken to be granted.
-/
namespace W16.HashMaps

open List

open W16.Circle (next dist)

/-- The match function and the hashes of the keys. -/
structure Keys (K : Type) where
  isMatch : K → K → Bool
  hash : K → BitVec 32
  refl : ∀ k, isMatch k k
  symm : ∀ {a b}, isMatch a b → isMatch b a
  trans : ∀ {a b c}, isMatch a b → isMatch b c → isMatch a c
  hash_eq : ∀ {a b}, isMatch a b → hash a = hash b

/-- No key and no value stand for `NULL`. -/
structure Entry (K V : Type) where
  key : Option K
  value : Option V
  hash : BitVec 32

/-- `capacity_` is the length of the array. -/
structure HashMap (K V : Type) where
  map : List (Entry K V)
  occupancy : Nat

variable {K V : Type}

def kEmpty : Entry K V := ⟨none, none, 0⟩

namespace HashMap

variable (keys : Keys K) (m : HashMap K V)

def capacity : Nat := m.map.length

/-- The entry at a position, which is only asked for inside of the array. -/
def entry (i : Nat) : Entry K V := m.map.getD i kEmpty

/-- `hash & (capacity_ - 1)`. -/
def home (capacity : Nat) (hash : BitVec 32) : Nat := (hash &&& (BitVec.ofNat 32 capacity - 1)).toNat

/-- The loop of `Probe`. It has no result where it leaves the array or does not end. -/
def probeFrom (key : K) (hash : BitVec 32) : Nat → Nat → Option Nat
  | 0, _ => none
  | fuel + 1, p =>
    match m.map[p]? with
    | none => none
    | some e =>
      match e.key with
      | none => some p
      | some k =>
        if hash ≠ e.hash || !keys.isMatch key k then probeFrom key hash fuel (next m.capacity p)
        else some p

def probe (key : K) (hash : BitVec 32) : Option Nat :=
  m.probeFrom keys key hash m.capacity (home m.capacity hash)

/-- `Initialize`; what the new array holds is not read before `Clear`. -/
def initializeMap (capacity : Nat) : HashMap K V := ⟨replicate capacity kEmpty, 0⟩

/-- `p->value = value`. -/
def setValue (p : Nat) (value : Option V) : HashMap K V :=
  { m with map := m.map.modify p fun e => { e with value := value } }

/-- The loop of `Resize` over the old array; `n` entries are left. -/
def rehash (lookup : HashMap K V → K → BitVec 32 → Option (HashMap K V × Option Nat)) :
    List (Entry K V) → Nat → HashMap K V → Option (HashMap K V)
  | _, 0, m => some m
  | [], _ + 1, _ => none
  | e :: rest, n + 1, m =>
    match e.key with
    | none => rehash lookup rest (n + 1) m
    | some k => do
      let (m, p) ← lookup m k e.hash
      let p ← p
      rehash lookup rest n (m.setValue p e.value)

/-- `Resize`; the doubled capacity is a `uint32_t`. -/
def resize (lookup : HashMap K V → K → BitVec 32 → Option (HashMap K V × Option Nat)) : Option (HashMap K V) :=
  rehash lookup m.map m.occupancy (initializeMap (m.capacity * 2 % 2 ^ 32))

/-- The entry that `Lookup` writes at an empty position. -/
def insertAt (p : Nat) (key : K) (hash : BitVec 32) : HashMap K V where
  map := m.map.set p ⟨some key, none, hash⟩
  occupancy := m.occupancy + 1

/-- `Lookup`, where `depth` bounds how often `Lookup` and `Resize` call each other. -/
def lookupWithin : Nat → HashMap K V → K → BitVec 32 → Bool → Option (HashMap K V × Option Nat)
  | 0, _, _, _, _ => none
  | depth + 1, m, key, hash, insert =>
    match m.probe keys key hash with
    | none => none
    | some p =>
      if (m.entry p).key.isSome then some (m, some p)
      else if insert then
        let m := m.insertAt p key hash
        if m.occupancy + m.occupancy / 4 ≥ m.capacity then do
          let m ← m.resize fun m key hash => lookupWithin depth m key hash true
          let p ← m.probe keys key hash
          some (m, some p)
        else some (m, some p)
      else some (m, none)

def lookup (key : K) (hash : BitVec 32) (insert : Bool) : Option (HashMap K V × Option Nat) :=
  lookupWithin keys 2 m key hash insert

/-- The loop of `Remove`: `p` is the candidate to clear, `q` scans forwards. The result is
the entry to clear. -/
def moveBack : Nat → HashMap K V → Nat → Nat → Option (HashMap K V × Nat)
  | 0, _, _, _ => none
  | fuel + 1, m, p, q =>
    let q := next m.capacity q
    if (m.entry q).key.isNone then some (m, p)
    else
      let r := home m.capacity (m.entry q).hash
      if (p < q && (r ≤ p || q < r)) || (q < p && (r ≤ p && q < r)) then
        moveBack fuel { m with map := m.map.set p (m.entry q) } q q
      else moveBack fuel m p q

/-- `p->key = NULL`. -/
def clearAt (p : Nat) : HashMap K V :=
  { m with map := m.map.modify p fun e => { e with key := none } }

def remove (key : K) (hash : BitVec 32) : Option (HashMap K V) := do
  let p ← m.probe keys key hash
  if (m.entry p).key.isNone then some m
  else do
    let (m, p) ← moveBack m.capacity m p p
    some { m.clearAt p with occupancy := m.occupancy - 1 }

def clear : HashMap K V := ⟨m.map.map fun e => { e with key := none }, 0⟩

/-- The loop of `Next`: the first entry with a key from `p` on. -/
def nextFrom : Nat → Nat → Option Nat
  | 0, _ => none
  | fuel + 1, p => if (m.entry p).key.isSome then some p else nextFrom fuel (p + 1)

/-- `Start`, which is `Next(map_ - 1)`. -/
def start : Option Nat := m.nextFrom m.capacity 0

/-- `Next`. -/
def nextEntry (p : Nat) : Option Nat := m.nextFrom (m.capacity - (p + 1)) (p + 1)

/-- `for (Entry* p = map.Start(); p != NULL; p = map.Next(p))`: the entries it visits. -/
def iterateFrom : Nat → Option Nat → Option (List (Entry K V))
  | _, none => some []
  | 0, some _ => none
  | fuel + 1, some p => (iterateFrom fuel (m.nextEntry p)).map (m.entry p :: ·)

def iterate : Option (List (Entry K V)) := m.iterateFrom m.capacity m.start

end HashMap

/-! ## Entries of a map -/

variable {keys : Keys K} {m m' : HashMap K V}

namespace HashMap

@[simp] theorem capacity_setValue (p : Nat) (v : Option V) : (m.setValue p v).capacity = m.capacity := by
  simp [setValue, capacity]

@[simp] theorem capacity_insertAt (p : Nat) (key : K) (hash : BitVec 32) :
    (m.insertAt p key hash).capacity = m.capacity := by simp [insertAt, capacity]

@[simp] theorem capacity_clearAt (p : Nat) : (m.clearAt p).capacity = m.capacity := by
  simp [clearAt, capacity]

theorem entry_insertAt {p : Nat} (hp : p < m.capacity) (key : K) (hash : BitVec 32) (i : Nat) :
    (m.insertAt p key hash).entry i = if i = p then ⟨some key, none, hash⟩ else m.entry i := by
  rw [entry, entry, insertAt, getD_eq_getElem?_getD, getElem?_set, getD_eq_getElem?_getD]
  by_cases h : i = p
  · subst h
    rw [if_pos rfl, if_pos rfl, if_pos (show i < m.map.length from hp)]
    rfl
  · rw [if_neg (Ne.symm h), if_neg h]

theorem entry_modify (f : Entry K V → Entry K V) {p : Nat} (hp : p < m.capacity) (i : Nat) :
    HashMap.entry { m with map := m.map.modify p f } i = if i = p then f (m.entry p) else m.entry i := by
  rw [entry, entry, entry, getD_eq_getElem?_getD, getElem?_modify,
    getD_eq_getElem?_getD, getD_eq_getElem?_getD]
  by_cases h : i = p
  · subst h
    rw [if_pos rfl, getElem?_eq_getElem hp]
    simp
  · rw [if_neg h]
    simp [Ne.symm h]

theorem entry_outside {i : Nat} (hi : m.capacity ≤ i) : m.entry i = kEmpty := by
  rw [entry, getD_eq_getElem?_getD, getElem?_eq_none hi]
  rfl

end HashMap

/-- A position is taken if its entry has a key. -/
def Taken (m : HashMap K V) (i : Nat) : Prop := (m.entry i).key ≠ none

theorem taken_of_key {i : Nat} {k : K} (h : (m.entry i).key = some k) : Taken m i := by
  rw [Taken, h]
  exact Option.some_ne_none k

theorem Taken.lt {i : Nat} (h : Taken m i) : i < m.capacity := by
  by_contra hi
  exact h (by rw [m.entry_outside (Nat.le_of_not_lt hi)]; rfl)

/-- The entries carry the hashes of their keys, no two keys match, and from the first
position for its hash a taken position is reached over taken ones. -/
structure Table (keys : Keys K) (m : HashMap K V) : Prop where
  capacity : ∃ k < 32, m.capacity = 2 ^ k
  hash : ∀ {i k}, (m.entry i).key = some k → (m.entry i).hash = keys.hash k
  unique : ∀ {i j a b}, (m.entry i).key = some a → (m.entry j).key = some b → keys.isMatch a b → i = j
  chain : ∀ {i j}, Taken m i → j < m.capacity → dist m.capacity (HashMap.home m.capacity (m.entry i).hash) j <
      dist m.capacity (HashMap.home m.capacity (m.entry i).hash) i → Taken m j

/-! ## Probing -/

theorem home_lt {capacity : Nat} (h : ∃ k < 32, capacity = 2 ^ k) (hash : BitVec 32) :
    HashMap.home capacity hash < capacity := by
  obtain ⟨k, hk, rfl⟩ := h
  have hpow : 2 ^ k < 2 ^ 32 := Nat.pow_lt_pow_right (by decide) hk
  have hpos : 0 < 2 ^ k := Nat.two_pow_pos k
  have hmask : (BitVec.ofNat 32 (2 ^ k) - 1).toNat = 2 ^ k - 1 := by
    grind -linarith
  exact Nat.lt_of_le_of_lt Nat.and_le_right (by omega)

/-- Where the loop of `Probe` ends. -/
def Stops (keys : Keys K) (m : HashMap K V) (key : K) (hash : BitVec 32) (i : Nat) : Prop :=
  ∀ k, (m.entry i).key = some k → hash = (m.entry i).hash ∧ keys.isMatch key k

theorem getElem?_map {i : Nat} (hi : i < m.capacity) : m.map[i]? = some (m.entry i) := by
  rw [HashMap.entry, getD_eq_getElem?_getD, getElem?_eq_getElem hi]
  rfl

theorem probeFrom_eq {key : K} {hash : BitVec 32} {s : Nat} (hs : s < m.capacity)
    (hstops : Stops keys m key hash s) {fuel i : Nat} (hi : i < m.capacity)
    (hfuel : dist m.capacity i s < fuel)
    (hbefore : ∀ j < m.capacity, dist m.capacity i j < dist m.capacity i s → ¬Stops keys m key hash j) :
    m.probeFrom keys key hash fuel i = some s := by
  induction fuel generalizing i with
  | zero => omega
  | succ fuel ih =>
    rw [HashMap.probeFrom, getElem?_map hi]
    by_cases his : i = s
    · subst his
      cases hkey : (m.entry i).key with
      | none => simp [hkey]
      | some k =>
        obtain ⟨heq, hmatch⟩ := hstops k hkey
        simp [hkey, heq, hmatch]
    · have hnear : dist m.capacity i i < dist m.capacity i s := by
        have := Circle.dist_eq_zero (b := s) hi
        rw [Circle.dist_self]
        omega
      have hgo := hbefore i hi hnear
      have hstep := fun j (hj : j < m.capacity) (h : i ≠ j) => Circle.dist_next_left hi hj h
      have hnext : m.probeFrom keys key hash fuel (next m.capacity i) = some s := by
        apply ih (Circle.next_lt hi)
        · have := hstep s hs his
          omega
        grind
      cases hkey : (m.entry i).key with
      | none => exact absurd (fun k hk => by rw [hkey] at hk; cases hk) hgo
      | some k =>
        have hne : (hash ≠ (m.entry i).hash || !keys.isMatch key k) = true := by
          rw [Bool.or_eq_true, decide_eq_true_iff]
          by_contra hboth
          push Not at hboth
          refine hgo fun k' hk' => ?_
          grind
        grind

/-- What `Probe` finds: the entry of the key, or the empty entry for it. -/
structure Found (keys : Keys K) (m : HashMap K V) (key : K) (p : Nat) : Prop where
  lt : p < m.capacity
  before : ∀ j < m.capacity, dist m.capacity (HashMap.home m.capacity (keys.hash key)) j <
    dist m.capacity (HashMap.home m.capacity (keys.hash key)) p → Taken m j
  isMatch : ∀ {k}, (m.entry p).key = some k → keys.isMatch key k
  absent : (m.entry p).key = none → ∀ {i k}, (m.entry i).key = some k → ¬keys.isMatch key k

theorem Table.probe (h : Table keys m) (hroom : ∃ i < m.capacity, ¬Taken m i) (key : K) :
    ∃ p, m.probe keys key (keys.hash key) = some p ∧ Found keys m key p := by
  have hhome := home_lt h.capacity (keys.hash key)
  have hsome : ∃ i < m.capacity, Stops keys m key (keys.hash key) i := by
    obtain ⟨i, hi, hfree⟩ := hroom
    exact ⟨i, hi, fun k hk => absurd (taken_of_key hk) hfree⟩
  obtain ⟨p, hp, hstops, hnearest⟩ :=
    Circle.exists_nearest (HashMap.home m.capacity (keys.hash key)) hsome
  refine ⟨p, probeFrom_eq hp hstops hhome (Circle.dist_lt hhome hp) hnearest, hp, ?_, ?_, ?_⟩
  · intro j hj hlt hfree
    exact hnearest j hj hlt fun k hk => by rw [hfree] at hk; cases hk
  · exact fun hk => (hstops _ hk).2
  · intro hnone i k hk hmatch
    -- the entry of the key would be reached before the empty one
    have hi : i < m.capacity := (taken_of_key hk).lt
    have hhash : (m.entry i).hash = keys.hash key := by rw [h.hash hk, keys.hash_eq hmatch]
    have hstop : Stops keys m key (keys.hash key) i := by
      intro k' hk'
      grind
    have hne : i ≠ p := by
      rintro rfl
      rw [hnone] at hk
      cases hk
    have hle : ¬dist m.capacity (HashMap.home m.capacity (keys.hash key)) i <
        dist m.capacity (HashMap.home m.capacity (keys.hash key)) p := fun hlt =>
      hnearest i hi hlt hstop
    have hdist : dist m.capacity (HashMap.home m.capacity (keys.hash key)) p ≠
        dist m.capacity (HashMap.home m.capacity (keys.hash key)) i := fun heq =>
      hne (Circle.dist_injective hhome hp hi heq).symm
    refine h.chain (i := i) (j := p) (taken_of_key hk) hp ?_ hnone
    rw [hhash]
    omega

/-! ## What the operations keep -/

theorem table_initializeMap {capacity : Nat} (h : ∃ k < 32, capacity = 2 ^ k) :
    Table keys (HashMap.initializeMap capacity : HashMap K V) := by
  have hentry : ∀ i, ((HashMap.initializeMap capacity : HashMap K V).entry i).key = none := by
    intro i
    rw [HashMap.entry, HashMap.initializeMap, getD_eq_getElem?_getD, getElem?_replicate]
    split <;> rfl
  refine ⟨by simpa [HashMap.initializeMap, HashMap.capacity] using h, ?_, ?_, ?_⟩
  · intro i k hk
    rw [hentry] at hk
    cases hk
  · grind
  · intro i j hi
    exact absurd (hentry i) hi

variable {p q : Nat}

theorem Table.insertAt (h : Table keys m) {key : K} (hfound : Found keys m key p)
    (hfree : (m.entry p).key = none) : Table keys (m.insertAt p key (keys.hash key)) := by
  have hentry := HashMap.entry_insertAt hfound.lt key (keys.hash key)
  have htaken : ∀ {j}, Taken m j → Taken (m.insertAt p key (keys.hash key)) j := by
    intro j hj
    rw [Taken, hentry]
    split
    · exact Option.some_ne_none key
    · exact hj
  have hnew := @hfound.absent hfree
  constructor
  · rw [HashMap.capacity_insertAt]
    exact h.capacity
  · intro i k hk
    rw [hentry] at hk ⊢
    split at hk
    · grind
    · next hi =>
      rw [if_neg hi]
      exact h.hash hk
  · intro i j a b ha hb hmatch
    rw [hentry] at ha hb
    split at ha <;> split at hb
    · next hi hj => exact hi.trans hj.symm
    · grind
    · obtain rfl := Option.some.inj hb
      exact absurd (keys.symm hmatch) (hnew ha)
    · exact h.unique ha hb hmatch
  · intro i j hi hj hlt
    rw [HashMap.capacity_insertAt] at hj hlt
    rw [hentry] at hlt
    split at hlt
    · next hip =>
      subst hip
      exact htaken (hfound.before j hj hlt)
    · next hip =>
      rw [Taken, hentry, if_neg hip] at hi
      exact htaken (h.chain hi hj hlt)

theorem Table.setValue (h : Table keys m) (hp : p < m.capacity) (v : Option V) :
    Table keys (m.setValue p v) := by
  have hentry := HashMap.entry_modify (fun e : Entry K V => { e with value := v }) hp
  have hkey : ∀ i, ((m.setValue p v).entry i).key = (m.entry i).key := by
    grind [HashMap.setValue]
  have hhash : ∀ i, ((m.setValue p v).entry i).hash = (m.entry i).hash := by
    grind [HashMap.setValue]
  constructor
  · rw [HashMap.capacity_setValue]
    exact h.capacity
  · intro i k hk
    rw [hkey] at hk
    rw [hhash, h.hash hk]
  · intro i j a b ha hb
    rw [hkey] at ha hb
    exact h.unique ha hb
  · intro i j hi hj hlt
    rw [HashMap.capacity_setValue] at hj hlt
    rw [hhash] at hlt
    rw [Taken, hkey] at hi ⊢
    exact h.chain hi hj hlt

/-! ## Removal -/

/-- The state of the loop of `Remove`: the entry at `p` is to be cleared, and the entries
that were reached over `p` lie behind `q`. -/
structure Hole (keys : Keys K) (m : HashMap K V) (p q : Nat) : Prop where
  capacity : ∃ k < 32, m.capacity = 2 ^ k
  lt : p < m.capacity
  scanLt : q < m.capacity
  hash : ∀ {i k}, (m.entry i).key = some k → (m.entry i).hash = keys.hash k
  unique : ∀ {i j a b}, i ≠ p → j ≠ p → (m.entry i).key = some a → (m.entry j).key = some b →
    keys.isMatch a b → i = j
  chain : ∀ {i j}, i ≠ p → Taken m i → j < m.capacity →
    dist m.capacity (HashMap.home m.capacity (m.entry i).hash) j <
      dist m.capacity (HashMap.home m.capacity (m.entry i).hash) i → Taken m j
  run : ∀ j < m.capacity, dist m.capacity p j ≤ dist m.capacity p q → Taken m j
  scanned : ∀ {i}, i ≠ p → Taken m i → dist m.capacity (HashMap.home m.capacity (m.entry i).hash) p <
      dist m.capacity (HashMap.home m.capacity (m.entry i).hash) i →
    dist m.capacity p q < dist m.capacity p i

theorem Table.hole (h : Table keys m) (hp : Taken m p) : Hole keys m p p := by
  refine ⟨h.capacity, hp.lt, hp.lt, h.hash, fun _ _ => h.unique, fun _ => h.chain, ?_, ?_⟩
  · intro j hj hle
    rw [Circle.dist_self, Nat.le_zero, Circle.dist_eq_zero hp.lt] at hle
    exact hle ▸ hp
  · intro i hne hi _
    have := (Circle.dist_eq_zero (b := i) hp.lt).not.2 hne.symm
    rw [Circle.dist_self]
    omega

theorem Hole.taken (h : Hole keys m p q) : Taken m p :=
  h.run p h.lt (by rw [Circle.dist_self]; exact Nat.zero_le _)

/-- The scan does not come back to the hole. -/
theorem Hole.next_ne {e : Nat} (h : Hole keys m p q) (he : e < m.capacity) (hfree : ¬Taken m e) :
    next m.capacity q ≠ p := by
  intro hback
  refine hfree (h.run e he ?_)
  have := Circle.dist_lt h.lt he
  have : dist m.capacity p q + 1 = m.capacity := by
    grind [Circle.next, Circle.dist]
  omega

/-- The entry where the scan is was reached over the hole. -/
theorem moves_iff {n r : Nat} (hp : p < n) (hq : q < n) (hr : r < n) :
    ((p < q && (r ≤ p || q < r)) || (q < p && (r ≤ p && q < r))) = true ↔ dist n r p < dist n r q := by
  simp only [Bool.or_eq_true, Bool.and_eq_true, decide_eq_true_iff]
  unfold Circle.dist
  split_ifs <;> omega

theorem Hole.stay (h : Hole keys m p q) (hq : Taken m (next m.capacity q)) (hne : next m.capacity q ≠ p)
    (hstay : ¬dist m.capacity (HashMap.home m.capacity (m.entry (next m.capacity q)).hash) p <
      dist m.capacity (HashMap.home m.capacity (m.entry (next m.capacity q)).hash)
        (next m.capacity q)) : Hole keys m p (next m.capacity q) := by
  have hdist := Circle.dist_next (b := q) h.lt hne
  refine ⟨h.capacity, h.lt, hq.lt, h.hash, h.unique, h.chain, ?_, ?_⟩
  · intro j hj hle
    by_cases hj' : dist m.capacity p j ≤ dist m.capacity p q
    · exact h.run j hj hj'
    · rw [Circle.dist_injective h.lt hj hq.lt (by omega)]
      exact hq
  · intro i hip hi hover
    have hbehind := h.scanned hip hi hover
    have hi' : i ≠ next m.capacity q := by
      rintro rfl
      exact hstay hover
    have hdi : dist m.capacity p i ≠ dist m.capacity p (next m.capacity q) := fun heq =>
      hi' (Circle.dist_injective h.lt hi.lt hq.lt heq)
    omega

/-- `*p = *q`. -/
def moveEntry (m : HashMap K V) (p q : Nat) : HashMap K V := { m with map := m.map.set p (m.entry q) }

@[simp] theorem capacity_moveEntry (p q : Nat) : (moveEntry m p q).capacity = m.capacity := by
  simp [moveEntry, HashMap.capacity]

theorem entry_moveEntry (hp : p < m.capacity) (q i : Nat) :
    (moveEntry m p q).entry i = if i = p then m.entry q else m.entry i := by
  rw [HashMap.entry, moveEntry, getD_eq_getElem?_getD, getElem?_set]
  by_cases h : i = p
  · subst h
    rw [if_pos rfl, if_pos rfl, if_pos (show i < m.map.length from hp)]
    rfl
  · rw [if_neg (Ne.symm h), if_neg h, HashMap.entry, getD_eq_getElem?_getD]

theorem taken_moveEntry (hp : Taken m p) (hq : Taken m q) (i : Nat) :
    Taken (moveEntry m p q) i ↔ Taken m i := by
  rw [Taken, entry_moveEntry hp.lt]
  split
  · next h => exact ⟨fun _ => h ▸ hp, fun _ => hq⟩
  · exact Iff.rfl

theorem Hole.move (h : Hole keys m p q) (hq : Taken m (next m.capacity q)) (hne : next m.capacity q ≠ p)
    (hmove : dist m.capacity (HashMap.home m.capacity (m.entry (next m.capacity q)).hash) p <
      dist m.capacity (HashMap.home m.capacity (m.entry (next m.capacity q)).hash) (next m.capacity q)) :
    Hole keys (moveEntry m p (next m.capacity q)) (next m.capacity q) (next m.capacity q) := by
  have hentry := entry_moveEntry h.lt (next m.capacity q)
  have htaken := fun i => taken_moveEntry h.taken hq i
  constructor
  · simpa using h.capacity
  · simpa using hq.lt
  · simpa using hq.lt
  · intro i k hk
    rw [hentry] at hk ⊢
    split at hk
    · next hi =>
      rw [if_pos hi]
      exact h.hash hk
    · next hi =>
      rw [if_neg hi]
      exact h.hash hk
  · intro i j a b hi hj ha hb hmatch
    rw [hentry] at ha hb
    split at ha <;> split at hb
    · next hip hjp => exact hip.trans hjp.symm
    · next hip hjp => exact absurd (h.unique hne hjp ha hb hmatch).symm hj
    · next hip hjp => exact absurd (h.unique hip hne ha hb hmatch) hi
    · next hip hjp => exact h.unique hip hjp ha hb hmatch
  · intro i j hi hit hj hlt
    rw [capacity_moveEntry] at hj hlt
    rw [hentry] at hlt
    rw [htaken] at hit ⊢
    split at hlt
    · next hip =>
      subst hip
      exact h.chain hne hq hj (Nat.lt_trans hlt hmove)
    · next hip => exact h.chain hip hit hj hlt
  · intro j hj hle
    rw [capacity_moveEntry] at hj hle
    rw [Circle.dist_self, Nat.le_zero, Circle.dist_eq_zero hq.lt] at hle
    exact (htaken j).2 (hle ▸ hq)
  · intro i hi hit _
    have := (Circle.dist_eq_zero (b := i) hq.lt).not.2 hi.symm
    rw [capacity_moveEntry, Circle.dist_self]
    omega

/-- When the next entry is empty no entry is reached over the hole. -/
theorem Hole.clear (h : Hole keys m p q) (hq : ¬Taken m (next m.capacity q)) : Table keys (m.clearAt p) := by
  have hne : next m.capacity q ≠ p := by
    intro heq
    exact hq (heq ▸ h.taken)
  have hover : ∀ {i}, i ≠ p → Taken m i → ¬dist m.capacity (HashMap.home m.capacity (m.entry i).hash) p <
        dist m.capacity (HashMap.home m.capacity (m.entry i).hash) i := by
    intro i hi hit hlt
    have hbehind := h.scanned hi hit hlt
    have hnext := Circle.next_lt h.scanLt
    have hdist := Circle.dist_next (b := q) h.lt hne
    have hin : i ≠ next m.capacity q := by
      rintro rfl
      exact hq hit
    have hdi : dist m.capacity p i ≠ dist m.capacity p (next m.capacity q) := fun heq =>
      hin (Circle.dist_injective h.lt hit.lt hnext heq)
    refine hq (h.chain hi hit hnext (Circle.dist_lt_of_between (home_lt h.capacity _) h.lt hnext hit.lt hlt ?_))
    omega
  have hentry := HashMap.entry_modify (fun e : Entry K V => { e with key := none }) h.lt
  have hkey : ∀ i, ((m.clearAt p).entry i).key = if i = p then none else (m.entry i).key := by
    intro i
    rw [HashMap.clearAt, hentry]
    split <;> rfl
  have hhash : ∀ i, ((m.clearAt p).entry i).hash = (m.entry i).hash := by
    grind [HashMap.clearAt]
  constructor
  · simpa using h.capacity
  · intro i k hk
    rw [hkey] at hk
    split at hk
    · cases hk
    · rw [hhash]
      exact h.hash hk
  · intro i j a b ha hb
    rw [hkey] at ha hb
    split at ha
    · cases ha
    split at hb
    · cases hb
    · next hi hj => exact h.unique hi hj ha hb
  · intro i j hi hj hlt
    rw [HashMap.capacity_clearAt] at hj hlt
    rw [hhash] at hlt
    rw [Taken, hkey] at hi ⊢
    split at hi
    · exact absurd rfl hi
    · next hip =>
      have hjp : j ≠ p := by
        rintro rfl
        exact hover hip hi hlt
      rw [if_neg hjp]
      exact h.chain hip hi hj hlt

end W16.HashMaps
