import W16.StringToDouble

/-!
# Parsing JSON values

The parser takes the texts of the grammar and no others, and gives the values they have.
-/
namespace W16.JsonParsing

open Json List

set_option linter.dupNamespace false

variable {D : Type} {conversions : Conversions D} {source : Source} {pre rest : List Nat}

/-! ## Members -/

/-- Where a member goes. -/
def slotOf (key : List Nat) : Slot := if key = protoSymbol then .prototype else .own key

/-- The values of the parser, for a way to place members. -/
def semantics (conversions : Conversions D) (slot : List Nat → Slot) : Semantics (Value D) where
  null := .null
  boolean := .boolean
  number t := .number (conversions.stringToDouble t)
  string := .string
  array := .array
  object ms := .object (ms.map fun m => (slot m.1, m.2))

/-! ## What begins and ends a value -/

/-- The first character of a text that is no white space and closes nothing. -/
def Starts (t : List Nat) : Prop := ∃ c r, t = c :: r ∧ ¬IsBlank c ∧ c ≠ 93 ∧ c ≠ 125

variable {t w w' : List Nat} {value : Value D} {depth : Nat} {parseValue : Scanner → Option (Value D) × Scanner}

theorem Starts.cons {c : Nat} {r : List Nat} (h : ¬IsBlank c ∧ c ≠ 93 ∧ c ≠ 125) : Starts (c :: r) :=
  ⟨c, r, rfl, h⟩

theorem Starts.append (h : Starts t) (r : List Nat) : Starts (t ++ r) := by
  obtain ⟨c, t, rfl, hc⟩ := h
  exact ⟨c, t ++ r, rfl, hc⟩

/-- What was parsed is the text of a derivation and white space. -/
def Found (conversions : Conversions D) (pre rest : List Nat) (r : Option (Value D) × Scanner) : Prop :=
  ∃ v t w rest', rest = t ++ (w ++ rest') ∧ Derives (semantics conversions slotOf) (.value v) t ∧ Blank w ∧
    NoBlank rest' ∧ r = (some v, cursor (pre ++ (t ++ w)) rest')

/-- What the parser of values finds. -/
def Sound (conversions : Conversions D) (source : Source)
    (parseValue : Scanner → Option (Value D) × Scanner) : Prop :=
  ∀ pre rest : List Nat, source.chars = pre ++ rest → (parseValue (cursor pre rest)).1.isSome →
    Found conversions pre rest (parseValue (cursor pre rest))

open StringNumbers (Target)

end W16.JsonParsing
