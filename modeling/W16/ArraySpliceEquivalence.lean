import Mathlib.Data.List.Basic
import W16.ArraySplice

/-!
# Both ways to splice

Slicing and moving by the keys of an array does what the simple loops do.
-/
namespace W16.Splices

open List

variable {V : Type}

section Loops

variable [DecidableEq V] {undefined : V}

theorem present_iff {a : JSArray V} {i : Nat} :
    present undefined a i = true ↔ ∃ v, a.elements i = some v ∧ a.get undefined i = v := by
  unfold present JSArray.get JSArray.has
  cases h : a.elements i with
  | none => simp
  | some v => simp

theorem elements_of_not_present {a : JSArray V} {i : Nat} (h : ¬present undefined a i = true) :
    a.elements i = none := by
  cases he : a.elements i with
  | none => rfl
  | some v => exact absurd (present_iff.2 ⟨v, he, by rw [JSArray.get, he]; rfl⟩) h

end Loops

/-! ## What a splice leaves -/

/-- The deleted elements. -/
def sliced (a : JSArray V) (start delCount i : Nat) : Option V :=
  if i < delCount then a.elements (start + i) else none

/-- The elements that stay, around those that are inserted. -/
def moved (a : JSArray V) (start delCount num i : Nat) : Option V :=
  if i < start then a.elements i
  else if start + num ≤ i then a.elements (i - num + delCount)
  else none

/-! ## What the keys cover -/

/-- A key or an interval of what `%GetArrayKeys` returns. -/
inductive Entry where
  | key (k : Nat)
  | interval (first limit : Nat)

def Entry.Has : Entry → Nat → Prop
  | key k, i => i = k
  | interval first limit, i => first ≤ i ∧ i < limit

def Entry.Below (n : Nat) : Entry → Prop
  | key k => k < n
  | interval _ limit => limit ≤ n

def Entry.run {S : Type} (onInterval : S → Nat → Nat → S) (onKey : S → Nat → S) (s : S) : Entry → S
  | key k => onKey s k
  | interval first limit => onInterval s first limit

/-- The entries that the loop over the keys finds. -/
def entries : List (Option Int) → List Entry
  | [] => []
  | none :: rest => entries rest
  | [some key] => if key < 0 then [] else [.key key.toNat]
  | some key :: count :: rest =>
    if key < 0 then
      match count with
      | none => entries rest
      | some count => .interval (-1 - key).toNat (-1 - key + count).toNat :: entries rest
    else .key key.toNat :: entries (count :: rest)

/-- An array of some length that has some of the elements of `T`, and all at the places `done`. -/
structure Filled (T : Nat → Option V) (L : Nat) (done : Nat → Prop) (s : JSArray V) : Prop where
  length_eq : s.length = L
  sound : ∀ j, s.elements j = none ∨ s.elements j = T j
  complete : ∀ j, done j → s.elements j = T j

variable {T : Nat → Option V} {L : Nat} {done : Nat → Prop} {s a : JSArray V}

theorem Filled.weaken {done' : Nat → Prop} (h : Filled T L done s) (himp : ∀ j, done' j → done j) :
    Filled T L done' s :=
  ⟨h.length_eq, h.sound, fun j hj => h.complete j (himp j hj)⟩

/-- Every entry fills the places of the indices that it has and that are kept. -/
theorem Filled.foldl {n : Nat} {Keep : Nat → Prop} {place : Nat → Nat} {f : JSArray V → Entry → JSArray V}
    (hf : ∀ (e : Entry) (done : Nat → Prop) (s : JSArray V), e.Below n → Filled T L done s →
      Filled T L (fun j => done j ∨ ∃ i, e.Has i ∧ Keep i ∧ place i = j) (f s e)) :
    ∀ (es : List Entry), (∀ e ∈ es, e.Below n) → ∀ {done : Nat → Prop} {s : JSArray V}, Filled T L done s →
      Filled T L (fun j => done j ∨ ∃ e ∈ es, ∃ i, e.Has i ∧ Keep i ∧ place i = j) (es.foldl f s) := by
  intro es
  induction es with
  | nil =>
    simp
  | cons e es ih =>
    intro hbelow done s h
    have hhead := hf e done s (hbelow e (mem_cons_self ..)) h
    refine (ih (fun e' he' => hbelow e' (mem_cons_of_mem _ he')) hhead).weaken ?_
    grind

/-- All is done once the keys cover the elements that are kept. -/
theorem Filled.elements_eq {Keep : Nat → Prop} {place : Nat → Nat} {es : List Entry}
    (h : Filled T L (fun j => False ∨ ∃ e ∈ es, ∃ i, e.Has i ∧ Keep i ∧ place i = j) s)
    (hT : ∀ j, (T j).isSome → ∃ e ∈ es, ∃ i, e.Has i ∧ Keep i ∧ place i = j) (j : Nat) :
    s.elements j = T j := by
  cases hj : T j with
  | none =>
    obtain hs | hs := h.sound j
    · exact hs
    · rw [hs, hj]
  | some v =>
    rw [h.complete j (Or.inr (hT j (by rw [hj]; rfl))), hj]

variable [DecidableEq V] {undefined : V}

theorem Filled.put {i k : Nat} (h : Filled T L done s) (hT : T k = a.elements i) (hk : k < L) :
    Filled T L (fun j => done j ∨ j = k)
      (if present undefined a i then s.set k (a.get undefined i) else s) := by
  by_cases hp : present undefined a i = true
  · obtain ⟨v, hv, hget⟩ := present_iff.1 hp
    rw [if_pos hp, hget]
    refine ⟨?_, fun j => ?_, fun j hj => ?_⟩
    · show (if k < kMaxArrayIndex ∧ s.length ≤ k then k + 1 else s.length) = L
      rw [if_neg (by have := h.length_eq; omega), h.length_eq]
    · show (if j = k then some v else s.elements j) = none ∨ (if j = k then some v else s.elements j) = T j
      by_cases hjk : j = k
      · grind
      · rw [if_neg hjk]
        exact h.sound j
    · show (if j = k then some v else s.elements j) = T j
      by_cases hjk : j = k
      · rw [if_pos hjk, hjk, hT, hv]
      · rw [if_neg hjk]
        exact h.complete j (hj.resolve_right hjk)
  · rw [if_neg hp]
    refine ⟨h.length_eq, h.sound, fun j hj => ?_⟩
    obtain hj | rfl := hj
    · exact h.complete j hj
    · have hnone : T j = none := hT.trans (elements_of_not_present hp)
      obtain hs | hs := h.sound j
      · rw [hs, hnone]
      · exact hs

theorem Filled.copyLoop (undefined : V) (place : Nat → Nat) : ∀ (n first : Nat) {done : Nat → Prop} {s : JSArray V},
    Filled T L done s →
    (∀ i, first ≤ i → i < first + n → T (place i) = a.elements i ∧ place i < L) →
    Filled T L (fun j => done j ∨ ∃ i, first ≤ i ∧ i < first + n ∧ place i = j)
      (copyLoop undefined a place n first s) := by
  intro n
  induction n with
  | zero =>
    intro first done s h _
    refine h.weaken fun j hj => hj.resolve_right ?_
    omega
  | succ n ih =>
    intro first done s h hplace
    obtain ⟨hT, hlt⟩ := hplace first (Nat.le_refl _) (by omega)
    refine (ih (first + 1) (h.put hT hlt) fun i h1 h2 => hplace i (by omega) (by omega)).weaken ?_
    grind

/-- The elements of the new array. -/
def movedWithin (a : JSArray V) (start delCount num j : Nat) : Option V :=
  if j < a.length - delCount + num then moved a start delCount num j else none

/-- One turn of `SmartMove`. -/
theorem Filled.moveEntry (undefined : V) {start delCount num : Nat} {e : Entry} (hle : start + delCount ≤ a.length)
    (hbelow : e.Below a.length)
    (hs : Filled (movedWithin a start delCount num) (a.length - delCount + num) done s) :
    Filled (movedWithin a start delCount num) (a.length - delCount + num)
      (fun j => done j ∨ ∃ i, e.Has i ∧ (i < start ∨ start + delCount ≤ i) ∧
        (if i < start then i else i - delCount + num) = j)
      (Entry.run (fun target j limit =>
          let target := Splices.copyLoop undefined a id (min start limit - j) j target
          Splices.copyLoop undefined a (· - delCount + num) (limit - (start + delCount))
            (start + delCount) target)
        (fun target key =>
          if key < start then
            if present undefined a key then target.set key (a.get undefined key) else target
          else if key ≥ start + delCount then
            if present undefined a key then
              target.set (key - delCount + num) (a.get undefined key)
            else target
          else target) s e) := by
  have hbefore : ∀ i, i < start →
      movedWithin a start delCount num i = a.elements i ∧ i < a.length - delCount + num := by
    intro i h
    rw [movedWithin, if_pos (by omega), moved, if_pos h]
    exact ⟨rfl, by omega⟩
  have hafter : ∀ i, start + delCount ≤ i → i < a.length →
      movedWithin a start delCount num (i - delCount + num) = a.elements i ∧
        i - delCount + num < a.length - delCount + num := by
    intro i h1 h2
    rw [movedWithin, if_pos (by omega), moved, if_neg (by omega), if_pos (by omega)]
    refine ⟨?_, by omega⟩
    congr 1
    omega
  cases e with
  | key k =>
    show Filled _ _ _ (if k < start then _ else if k ≥ start + delCount then _ else s)
    by_cases hk : k < start
    · rw [if_pos hk]
      obtain ⟨hT, hlt⟩ := hbefore k hk
      refine (hs.put hT hlt).weaken ?_
      rintro j (hj | ⟨i, rfl, _, rfl⟩)
      · exact Or.inl hj
      · exact Or.inr (if_pos hk)
    · rw [if_neg hk]
      by_cases hk' : k ≥ start + delCount
      · rw [if_pos hk']
        obtain ⟨hT, hlt⟩ := hafter k hk' hbelow
        refine (hs.put hT hlt).weaken ?_
        rintro j (hj | ⟨i, rfl, _, rfl⟩)
        · exact Or.inl hj
        · exact Or.inr (if_neg hk)
      · rw [if_neg hk']
        refine hs.weaken ?_
        rintro j (hj | ⟨i, rfl, hkeep, _⟩)
        · exact hj
        · omega
  | interval first limit =>
    have hlimit : limit ≤ a.length := hbelow
    have hfirst := Filled.copyLoop undefined id (min start limit - first) first hs
      fun i h1 h2 => hbefore i (by omega)
    refine (Filled.copyLoop undefined (fun i => i - delCount + num) (limit - (start + delCount)) (start + delCount) hfirst
      fun i h1 h2 => hafter i h1 (by omega)).weaken ?_
    rintro j (hj | ⟨i, ⟨h1, h2⟩, hkeep | hkeep, rfl⟩)
    · exact Or.inl (Or.inl hj)
    · exact Or.inl (Or.inr ⟨i, h1, by omega, (if_pos hkeep).symm⟩)
    · exact Or.inr ⟨i, hkeep, by omega, (if_neg (by omega)).symm⟩

/-- The length after the call. -/
def newLength (a : JSArray V) (args : Arguments V) : Nat :=
  a.length - args.delCount a.length + args.items.length

/-- One element at the last index. -/
def full : JSArray Nat where
  elements i := if i = 4294967294 then some 5 else none
  length := 4294967295
  length_lt := by decide
  inside := by
    intro i hi _
    exact hi

end W16.Splices
