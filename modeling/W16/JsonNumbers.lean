import W16.JsonStrings

/-!
# Scanning JSON numbers

The parts of a number are as long as they can be. The small integers that are read on the way are
those of their literals.
-/
namespace W16.JsonParsing

open Json List

variable {D : Type} {conversions : Conversions D} {source : Source} {pre rest : List Nat}

/-! ## Digits -/

def AllDigits (ds : List Nat) : Prop := ∀ c ∈ ds, IsDigit c

def NoDigit (rest : List Nat) : Prop := isDecimalDigit (front rest) = false

theorem isDecimalDigit_nat (c : Nat) : isDecimalDigit c = true ↔ IsDigit c := by
  unfold isDecimalDigit IsDigit
  rw [decide_eq_true_iff]
  omega

theorem noDigit_cons {c : Nat} (h : ¬IsDigit c) : NoDigit (c :: rest) := by
  unfold NoDigit
  rw [Bool.eq_false_iff]
  exact fun hc => h ((isDecimalDigit_nat c).1 hc)

theorem exists_digits : ∀ rest : List Nat, ∃ ds rest', rest = ds ++ rest' ∧ AllDigits ds ∧ NoDigit rest' := by
  intro rest
  induction rest with
  | nil => exact ⟨[], [], rfl, fun _ h => absurd h not_mem_nil, rfl⟩
  | cons c rest ih =>
    by_cases hc : IsDigit c
    · obtain ⟨ds, rest', rfl, hds, hno⟩ := ih
      exact ⟨c :: ds, rest', rfl, forall_mem_cons.2 ⟨hc, hds⟩, hno⟩
    · exact ⟨[], c :: rest, rfl, fun _ h => absurd h not_mem_nil, noDigit_cons hc⟩

/-- The value of digits after those that were read. -/
def decimalValue (v : Nat) (ds : List Nat) : Nat := ds.foldl (fun v c => v * 10 + (c - 48)) v

theorem decimalValue_lt : ∀ (ds : List Nat) (v : Nat), AllDigits ds →
    decimalValue v ds < (v + 1) * 10 ^ ds.length := by
  intro ds
  induction ds with
  | nil =>
    intro v _
    show v < (v + 1) * 10 ^ 0
    omega
  | cons c ds ih =>
    intro v hds
    obtain ⟨hc, hds'⟩ := forall_mem_cons.1 hds
    unfold IsDigit at hc
    have hlt := ih (v * 10 + (c - 48)) hds'
    have hle : (v * 10 + (c - 48) + 1) * 10 ^ ds.length ≤ (v + 1) * 10 * 10 ^ ds.length :=
      Nat.mul_le_mul_right _ (by omega)
    rw [length_cons, Nat.pow_succ, Nat.mul_comm (10 ^ ds.length), ← Nat.mul_assoc]
    exact Nat.lt_of_lt_of_le hlt hle

theorem le_decimalValue : ∀ (ds : List Nat) (v : Nat), v ≤ decimalValue v ds := by
  intro ds
  induction ds with
  | nil => exact fun v => Nat.le_refl v
  | cons c ds ih =>
    intro v
    exact le_trans (by omega) (ih (v * 10 + (c - 48)))

/-- The fraction ends before `rest`. -/
structure FractionEnds (f rest : List Nat) : Prop where
  fraction : Fraction f
  none : f = [] → front rest ≠ 46
  some : f ≠ [] → NoDigit rest

structure ExponentEnds (e rest : List Nat) : Prop where
  exponent : Exponent e
  none : e = [] → front rest ≠ 101 ∧ front rest ≠ 69
  some : e ≠ [] → NoDigit rest

variable {f s e : List Nat}

/-- The part after the integer is as long as it can be. -/
structure DoubleEnds (f e rest : List Nat) : Prop where
  fractionEnds : FractionEnds f (e ++ rest)
  exponentEnds : ExponentEnds e rest

/-- Doubles of literals with at most nine digits are those of the small integers. -/
structure Conversions.Exact (conversions : Conversions D) : Prop where
  positive : ∀ (d : Nat) (ds : List Nat), 49 ≤ d → d ≤ 57 → AllDigits ds → ds.length < 9 →
    conversions.stringToDouble (d :: ds) = conversions.smi (decimalValue 0 (d :: ds))
  negative : ∀ (d : Nat) (ds : List Nat), 49 ≤ d → d ≤ 57 → AllDigits ds → ds.length < 9 →
    conversions.stringToDouble (45 :: d :: ds) = conversions.smi (-(decimalValue 0 (d :: ds) : Int))

theorem DoubleEnds.eq_nil (h : DoubleEnds f e rest)
    (hpoint : front (f ++ (e ++ rest)) ≠ 46) (he : front (f ++ (e ++ rest)) ≠ 101)
    (hE : front (f ++ (e ++ rest)) ≠ 69) : f = [] ∧ e = [] := by
  obtain ⟨⟨hfraction, _, _⟩, hexp, _, _⟩ := h
  cases hfraction with
  | some _ => exact absurd rfl hpoint
  | none =>
    cases hexp with
    | none => exact ⟨rfl, rfl⟩
    | @some c s t hc _ _ =>
      obtain rfl | rfl := hc
      · exact absurd rfl he
      · exact absurd rfl hE

/-- Text that no number goes on with. -/
structure Follows (rest : List Nat) : Prop where
  noDigit : NoDigit rest
  noPoint : front rest ≠ 46
  noExponent : front rest ≠ 101 ∧ front rest ≠ 69

end W16.JsonParsing
