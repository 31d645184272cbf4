import Mathlib.Order.Basic

/-!
# Borders of sequences

Parts of a sequence that end where it ends, and how such a part is the beginning of another one.
-/
namespace W16.Borders

variable {α : Type} {s : Nat → α} {len i k m f : Nat}

/-- The part from `k` on is the beginning of the part from `i` on. -/
structure Border (s : Nat → α) (len i k : Nat) : Prop where
  le : i ≤ k
  le_len : k ≤ len
  same : ∀ d, k + d < len → s (k + d) = s (i + d)

theorem border_len (h : i ≤ len) : Border s len i len := ⟨h, Nat.le_refl _, fun d hd => by omega⟩

theorem Border.trans (h₁ : Border s len i k) (h₂ : Border s len k m) : Border s len i m := by
  refine ⟨Nat.le_trans h₁.le h₂.le, h₂.le_len, fun d hd => ?_⟩
  have hk : k + d < len := by
    have := h₂.le
    omega
  exact (h₂.same d hd).trans (h₁.same d hk)

/-- Of two borders the shorter one is a border of the longer one. -/
theorem Border.between (h₁ : Border s len i k) (h₂ : Border s len i m) (hkm : k ≤ m) : Border s len k m := by
  refine ⟨hkm, h₂.le_len, fun d hd => ?_⟩
  exact (h₂.same d hd).trans (h₁.same d (by omega)).symm

theorem Border.succ (h : Border s len i k) (hk : k < len) : Border s len (i + 1) (k + 1) ∧ s k = s i := by
  refine ⟨⟨Nat.succ_le_succ h.le, hk, fun d hd => ?_⟩, h.same 0 hk⟩
  have := h.same (d + 1) (by omega)
  grind

theorem border_of_succ (h : Border s len (i + 1) (k + 1)) (heq : s k = s i) : Border s len i k := by
  refine ⟨Nat.le_of_succ_le_succ h.le, Nat.le_of_succ_le h.le_len, fun d hd => ?_⟩
  cases d with
  | zero => exact heq
  | succ d =>
    have := h.same d (by omega)
    grind

/-- The longest proper border of the part from `i` on begins at `f`; the empty part has none. -/
structure Next (s : Nat → α) (len i f : Nat) : Prop where
  lt : i < f
  le : f ≤ len + 1
  border : f ≤ len → Border s len i f
  least : ∀ k, i < k → Border s len i k → f ≤ k

theorem next_len : Next s len len (len + 1) :=
  ⟨Nat.lt_succ_self _, Nat.le_refl _, fun h => absurd h (Nat.not_succ_le_self _), fun _ h _ => h⟩

/-- A text that agrees with the sequence from `k` on but not at the place before, and in which
the sequence also stands `d` places further: either `k` is a border after another element, or
the whole sequence has a border, which may be empty. -/
theorem shift_cases {t : Nat → α} {start d : Nat} (hstart : start ≤ i) (hlen : i + 1 ≤ len)
    (hmatch : ∀ p, i + 1 ≤ p → p < len → t p = s p) (hmismatch : t i ≠ s i)
    (hocc : ∀ q, start ≤ q → q < len → t (q + d) = s q) :
    (∃ j, start ≤ j ∧ j + d = i ∧ Border s len (j + 1) (i + 1) ∧ s j ≠ s i) ∨
      i < start + d ∧ (len ≤ start + d ∨ Border s len start (start + d)) := by
  rcases Nat.lt_or_ge i (start + d) with hlt | hge
  · refine .inr ⟨hlt, ?_⟩
    rcases Nat.lt_or_ge (start + d) len with hin | hout
    · refine .inr ⟨Nat.le_add_right _ _, Nat.le_of_lt hin, fun e he => ?_⟩
      grind
    · exact .inl hout
  · refine .inl ⟨i - d, by omega, by omega, ⟨by omega, hlen, fun e he => ?_⟩, fun heq => ?_⟩
    · rw [← hmatch (i + 1 + e) (by omega) he, ← hocc (i - d + 1 + e) (by omega) (by omega)]
      congr 1
      omega
    grind

end W16.Borders
