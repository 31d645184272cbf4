import Mathlib

/-!
# UTF-8 forms

The forms of one to four octets and the numbers they spell. A number below 2^21 has one shortest
form, and no shortest form is the beginning of another.
-/
namespace W16.Octets

/-- One to four octets and the number that the bits after their tags spell. -/
inductive Spells : List Nat → Nat → Prop
  | one {a : Nat} : a < 128 → Spells [a] a
  | two {a b : Nat} : a < 32 → b < 64 → Spells [192 + a, 128 + b] (a * 64 + b)
  | three {a b c : Nat} : a < 16 → b < 64 → c < 64 → Spells [224 + a, 128 + b, 128 + c] ((a * 64 + b) * 64 + c)
  | four {a b c d : Nat} : a < 8 → b < 64 → c < 64 → d < 64 →
      Spells [240 + a, 128 + b, 128 + c, 128 + d] (((a * 64 + b) * 64 + c) * 64 + d)

/-- The octets spell the number and no fewer octets do. -/
structure Shortest (l : List Nat) (n : Nat) : Prop where
  spells : Spells l n
  least : ∀ l', Spells l' n → l.length ≤ l'.length

def limit : Nat := 2 ^ 21

/-- The shortest form of a number below the limit. -/
def form (n : Nat) : List Nat :=
  if n < 128 then [n]
  else if n < 2048 then [192 + n / 64, 128 + n % 64]
  else if n < 65536 then [224 + n / 4096, 128 + n / 64 % 64, 128 + n % 64]
  else [240 + n / 262144, 128 + n / 4096 % 64, 128 + n / 64 % 64, 128 + n % 64]

variable {n : Nat}

theorem form_one (h : n < 128) : form n = [n] := if_pos h

theorem form_two (h : 128 ≤ n) (h' : n < 2048) : form n = [192 + n / 64, 128 + n % 64] := by
  rw [form, if_neg (by omega), if_pos h']

theorem form_three (h : 2048 ≤ n) (h' : n < 65536) :
    form n = [224 + n / 4096, 128 + n / 64 % 64, 128 + n % 64] := by
  rw [form, if_neg (by omega), if_neg (by omega), if_pos h']

theorem form_four (h : 65536 ≤ n) :
    form n = [240 + n / 262144, 128 + n / 4096 % 64, 128 + n / 64 % 64, 128 + n % 64] := by
  rw [form, if_neg (by omega), if_neg (by omega), if_neg (by omega)]

theorem spells_form (h : n < limit) : Spells (form n) n := by
  have hl : n < 2097152 := h
  by_cases h1 : n < 128
  · rw [form_one h1]
    exact .one h1
  by_cases h2 : n < 2048
  · rw [form_two (by omega) h2]
    have hn : n / 64 * 64 + n % 64 = n := by omega
    have hs : Spells [192 + n / 64, 128 + n % 64] (n / 64 * 64 + n % 64) :=
      .two (by omega) (by omega)
    rwa [hn] at hs
  by_cases h3 : n < 65536
  · rw [form_three (by omega) h3]
    have hn : (n / 4096 * 64 + n / 64 % 64) * 64 + n % 64 = n := by omega
    have hs : Spells [224 + n / 4096, 128 + n / 64 % 64, 128 + n % 64]
        ((n / 4096 * 64 + n / 64 % 64) * 64 + n % 64) := .three (by omega) (by omega) (by omega)
    rwa [hn] at hs
  · rw [form_four (by omega)]
    have hn : ((n / 262144 * 64 + n / 4096 % 64) * 64 + n / 64 % 64) * 64 + n % 64 = n := by omega
    have hs : Spells [240 + n / 262144, 128 + n / 4096 % 64, 128 + n / 64 % 64, 128 + n % 64]
        (((n / 262144 * 64 + n / 4096 % 64) * 64 + n / 64 % 64) * 64 + n % 64) :=
      .four (by omega) (by omega) (by omega) (by omega)
    rwa [hn] at hs

theorem Spells.lt_limit {l : List Nat} (h : Spells l n) : n < limit := by
  show n < 2097152
  cases h <;> omega

/-- No form is shorter, and one of the same length is the same. -/
theorem Spells.form_le {l : List Nat} (h : Spells l n) :
    (form n).length ≤ l.length ∧ (l.length = (form n).length → l = form n) := by
  cases h with
  | one ha => simp [form_one ha]
  | @two a b ha hb =>
    grind -linarith [form_one, form_two]
  | @three a b c ha hb hc =>
    by_cases h1 : (a * 64 + b) * 64 + c < 128
    · simp [form_one h1]
    by_cases h2 : (a * 64 + b) * 64 + c < 2048
    · simp [form_two (by omega) h2]
    · rw [form_three (by omega) (by omega)]
      grind -linarith
  | @four a b c d ha hb hc hd =>
    by_cases h1 : ((a * 64 + b) * 64 + c) * 64 + d < 128
    · simp [form_one h1]
    by_cases h2 : ((a * 64 + b) * 64 + c) * 64 + d < 2048
    · simp [form_two (by omega) h2]
    by_cases h3 : ((a * 64 + b) * 64 + c) * 64 + d < 65536
    · simp [form_three (by omega) h3]
    · rw [form_four (by omega)]
      grind -linarith

theorem shortest_iff {l : List Nat} : Shortest l n ↔ n < limit ∧ l = form n := by
  constructor
  · intro h
    have hlt := h.spells.lt_limit
    have hle := h.least _ (spells_form hlt)
    have hform := h.spells.form_le
    grind
  · rintro ⟨hlt, rfl⟩
    exact ⟨spells_form hlt, fun l' h' => h'.form_le.1⟩

/-- The first octet tells the length of the form. -/
theorem form_head (n : Nat) : ∃ a r, form n = a :: r ∧ (n < 128 ∧ a < 128 ∧ r = [] ∨
      128 ≤ n ∧ n < 2048 ∧ 192 ≤ a ∧ a < 224 ∧ r.length = 1 ∨
      2048 ≤ n ∧ n < 65536 ∧ 224 ≤ a ∧ a < 240 ∧ r.length = 2 ∨
      65536 ≤ n ∧ 240 ≤ a ∧ r.length = 3) := by
  by_cases h1 : n < 128
  · exact ⟨_, _, form_one h1, .inl ⟨h1, h1, rfl⟩⟩
  by_cases h2 : n < 2048
  · exact ⟨_, _, form_two (by omega) h2, .inr (.inl ⟨by omega, h2, by omega, by omega, rfl⟩)⟩
  by_cases h3 : n < 65536
  · exact ⟨_, _, form_three (by omega) h3, .inr (.inr (.inl ⟨by omega, h3, by omega, by omega, rfl⟩))⟩
  simp_all [form_four]

theorem form_injective {m : Nat} (h : form n = form m) : n = m := by
  obtain ⟨a, r, hn, hcn⟩ := form_head n
  obtain ⟨b, q, hm, hcm⟩ := form_head m
  have heq : a :: r = b :: q := by rw [← hn, ← hm, h]
  rcases hcn with ⟨h1, h2, h3⟩ | ⟨h1, h2, h3, h4, h5⟩ | ⟨h1, h2, h3, h4, h5⟩ | ⟨h1, h2, h3⟩ <;>
    rcases hcm with ⟨k1, k2, k3⟩ | ⟨k1, k2, k3, k4, k5⟩ | ⟨k1, k2, k3, k4, k5⟩ | ⟨k1, k2, k3⟩ <;>
    try (first | omega | (simp_all; done))
  · rw [form_one h1, form_one k1] at h
    simpa using h
  · grind [form_two]
  · grind [form_three]
  grind [form_four]

/-- No shortest form is the beginning of another one. -/
theorem form_append_inj {m : Nat} {r q : List Nat} (h : form n ++ r = form m ++ q) : n = m ∧ r = q := by
  have hlen : (form n).length = (form m).length := by
    obtain ⟨a, s, hn, hcn⟩ := form_head n
    obtain ⟨b, t, hm, hcm⟩ := form_head m
    grind
  obtain ⟨hf, hr⟩ := List.append_inj h hlen
  exact ⟨form_injective hf, hr⟩

end W16.Octets
