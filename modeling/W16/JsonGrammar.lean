import Mathlib.Data.List.Basic

/-!
# The grammar of JSON

Texts are lists of code units. What a value means is given by a `Semantics`, so that a derivation
assigns a value of any type.
-/
namespace W16.Json

/-! ## Tokens -/

/-- White space between tokens. -/
def IsBlank (c : Nat) : Prop := c = 9 ∨ c = 10 ∨ c = 13 ∨ c = 32

instance (c : Nat) : Decidable (IsBlank c) := inferInstanceAs (Decidable (_ ∨ _))

def Blank (w : List Nat) : Prop := ∀ c ∈ w, IsBlank c

instance (w : List Nat) : Decidable (Blank w) := inferInstanceAs (Decidable (∀ c ∈ w, IsBlank c))

def IsDigit (c : Nat) : Prop := 48 ≤ c ∧ c ≤ 57

instance (c : Nat) : Decidable (IsDigit c) := inferInstanceAs (Decidable (_ ∧ _))

/-- The value of a digit of hexadecimal numbers. -/
def hexDigit (c : Nat) : Option Nat :=
  if 48 ≤ c ∧ c ≤ 57 then some (c - 48)
  else if 65 ≤ c ∧ c ≤ 70 then some (c - 55)
  else if 97 ≤ c ∧ c ≤ 102 then some (c - 87)
  else none

/-- What the escapes of one character stand for. -/
def escape : Nat → Option Nat
  | 34 => some 34
  | 92 => some 92
  | 47 => some 47
  | 98 => some 8
  | 102 => some 12
  | 110 => some 10
  | 114 => some 13
  | 116 => some 9
  | _ => none

/-- One character of a string, with the code unit it stands for. -/
inductive Character : List Nat → Nat → Prop
  | plain {c : Nat} : 32 ≤ c → c ≠ 34 → c ≠ 92 → Character [c] c
  | escape {e c : Nat} : escape e = some c → Character [92, e] c
  | unicode {a b c d : Nat} {i j k l : Nat} : hexDigit a = some i → hexDigit b = some j →
      hexDigit c = some k → hexDigit d = some l →
      Character [92, 117, a, b, c, d] (((i * 16 + j) * 16 + k) * 16 + l)

/-- The characters between the quotes of a string. -/
inductive Characters : List Nat → List Nat → Prop
  | nil : Characters [] []
  | cons {t s u : List Nat} {c : Nat} : Character t c → Characters s u → Characters (t ++ s) (c :: u)

/-- At least one digit. -/
def Digits (t : List Nat) : Prop := t ≠ [] ∧ ∀ c ∈ t, IsDigit c

inductive IntegerLiteral : List Nat → Prop
  | zero : IntegerLiteral [48]
  | nonzero {d : Nat} {t : List Nat} : 49 ≤ d → d ≤ 57 → (∀ c ∈ t, IsDigit c) → IntegerLiteral (d :: t)

inductive Fraction : List Nat → Prop
  | none : Fraction []
  | some {t : List Nat} : Digits t → Fraction (46 :: t)

inductive Sign : List Nat → Prop
  | none : Sign []
  | plus : Sign [43]
  | minus : Sign [45]

inductive Exponent : List Nat → Prop
  | none : Exponent []
  | some {e : Nat} {s t : List Nat} : e = 101 ∨ e = 69 → Sign s → Digits t → Exponent (e :: (s ++ t))

inductive Number : List Nat → Prop
  | positive {i f e : List Nat} : IntegerLiteral i → Fraction f → Exponent e → Number (i ++ (f ++ e))
  | negative {i f e : List Nat} : IntegerLiteral i → Fraction f → Exponent e → Number (45 :: (i ++ (f ++ e)))

/-! ## Values -/

/-- What values mean. Members are those of the text, in its order. -/
structure Semantics (V : Type) where
  null : V
  boolean : Bool → V
  number : List Nat → V
  string : List Nat → V
  array : List V → V
  object : List (List Nat × V) → V

inductive Goal (V : Type) where
  | value (v : V)
  | elements (vs : List V)
  | members (ms : List (List Nat × V))

/-- Texts of values, and of elements and members with commas between them. -/
inductive Derives {V : Type} (S : Semantics V) : Goal V → List Nat → Prop
  | null : Derives S (.value S.null) [110, 117, 108, 108]
  | true : Derives S (.value (S.boolean true)) [116, 114, 117, 101]
  | false : Derives S (.value (S.boolean false)) [102, 97, 108, 115, 101]
  | number {t : List Nat} : Number t → Derives S (.value (S.number t)) t
  | string {t u : List Nat} : Characters t u → Derives S (.value (S.string u)) (34 :: (t ++ [34]))
  | emptyArray {w : List Nat} : Blank w → Derives S (.value (S.array [])) (91 :: (w ++ [93]))
  | array {vs : List V} {w t w' : List Nat} : Blank w → Derives S (.elements vs) t → Blank w' →
      Derives S (.value (S.array vs)) (91 :: (w ++ (t ++ (w' ++ [93]))))
  | emptyObject {w : List Nat} : Blank w → Derives S (.value (S.object [])) (123 :: (w ++ [125]))
  | object {ms : List (List Nat × V)} {w t w' : List Nat} : Blank w → Derives S (.members ms) t →
      Blank w' → Derives S (.value (S.object ms)) (123 :: (w ++ (t ++ (w' ++ [125]))))
  | element {v : V} {t : List Nat} : Derives S (.value v) t → Derives S (.elements [v]) t
  | elements {v : V} {vs : List V} {t w w' r : List Nat} : Derives S (.value v) t → Blank w → Blank w' →
      Derives S (.elements vs) r → Derives S (.elements (v :: vs)) (t ++ (w ++ 44 :: (w' ++ r)))
  | member {v : V} {k u t w w' : List Nat} : Characters k u → Blank w → Blank w' → Derives S (.value v) t →
      Derives S (.members [(u, v)]) (34 :: (k ++ 34 :: (w ++ 58 :: (w' ++ t))))
  | members {v : V} {ms : List (List Nat × V)} {k u t w w' x x' r : List Nat} : Characters k u →
      Blank w → Blank w' → Derives S (.value v) t → Blank x → Blank x' →
      Derives S (.members ms) r →
      Derives S (.members ((u, v) :: ms))
        (34 :: (k ++ 34 :: (w ++ 58 :: (w' ++ (t ++ (x ++ 44 :: (x' ++ r)))))))

end W16.Json
