import Mathlib

/-!
# The form of dates with times

The simplified ISO 8601 form of dates and times: which texts are dates, times of day and offsets,
and what they denote.
-/
namespace W16.DateTimes

open List

def Digit (c : Nat) : Prop := 48 ≤ c ∧ c ≤ 57

instance (c : Nat) : Decidable (Digit c) := inferInstanceAs (Decidable (48 ≤ c ∧ c ≤ 57))

/-- The value of a numeral, after what was read already. -/
def valueFrom (v : Nat) (ds : List Nat) : Nat := ds.foldl (fun v c => v * 10 + (c - 48)) v

def value (ds : List Nat) : Nat := valueFrom 0 ds

structure Numeral (length : Nat) (t : List Nat) (v : Nat) : Prop where
  length_eq : t.length = length
  digits : ∀ c ∈ t, Digit c
  value_eq : value t = v

/-! ## Dates -/

/-- Four digits, or a sign and six digits of which not all are zero after a minus. -/
inductive Year : List Nat → Int → Prop
  | four {t : List Nat} {v : Nat} : Numeral 4 t v → Year t v
  | plus {t : List Nat} {v : Nat} : Numeral 6 t v → Year (43 :: t) v
  | minus {t : List Nat} {v : Nat} : Numeral 6 t v → v ≠ 0 → Year (45 :: t) (-v)

structure InRange (lo hi : Nat) (t : List Nat) (v : Nat) : Prop where
  numeral : Numeral 2 t v
  le : lo ≤ v
  ge : v ≤ hi

/-- The month and the day are one where they are missing. -/
inductive Date : List Nat → Int → Nat → Nat → Prop
  | year {t : List Nat} {y : Int} : Year t y → Date t y 1 1
  | month {t u : List Nat} {y : Int} {m : Nat} : Year t y → InRange 1 12 u m → Date (t ++ 45 :: u) y m 1
  | day {t u w : List Nat} {y : Int} {m d : Nat} : Year t y → InRange 1 12 u m → InRange 1 31 w d →
      Date (t ++ 45 :: (u ++ 45 :: w)) y m d

/-! ## Times -/

/-- The first three digits of a fraction. -/
def thousandths (f : List Nat) : Nat := value ((f ++ [48, 48, 48]).take 3)

/-- Nothing of an hour follows the end of the day. -/
def WithinDay (h m s : Nat) (f : List Nat) : Prop := h = 24 → m = 0 ∧ s = 0 ∧ ∀ c ∈ f, c = 48

inductive Time : List Nat → Nat → Nat → Nat → Nat → Prop
  | minutes {t u : List Nat} {h m : Nat} : InRange 0 24 t h → InRange 0 59 u m → WithinDay h m 0 [] →
      Time (t ++ 58 :: u) h m 0 0
  | seconds {t u w : List Nat} {h m s : Nat} : InRange 0 24 t h → InRange 0 59 u m → InRange 0 59 w s →
      WithinDay h m s [] → Time (t ++ 58 :: (u ++ 58 :: w)) h m s 0
  | fraction {t u w f : List Nat} {h m s : Nat} : InRange 0 24 t h → InRange 0 59 u m →
      InRange 0 59 w s → f ≠ [] → (∀ c ∈ f, Digit c) → WithinDay h m s f →
      Time (t ++ 58 :: (u ++ 58 :: (w ++ 46 :: f))) h m s (thousandths f)

inductive Sign : Nat → Int → Prop
  | plus : Sign 43 1
  | minus : Sign 45 (-1)

/-- The offset in seconds, which is zero where it is missing. -/
inductive Offset : List Nat → Int → Prop
  | none : Offset [] 0
  | utc {c : Nat} : c = 90 ∨ c = 122 → Offset [c] 0
  | colon {c : Nat} {i : Int} {t u : List Nat} {h m : Nat} : Sign c i → InRange 0 23 t h →
      InRange 0 59 u m → Offset (c :: (t ++ 58 :: u)) (i * (h * 3600 + m * 60))
  | plain {c : Nat} {i : Int} {t u : List Nat} {h m : Nat} : Sign c i → InRange 0 23 t h →
      InRange 0 59 u m → Offset (c :: (t ++ u)) (i * (h * 3600 + m * 60))

structure Moment where
  year : Int
  month : Nat
  day : Nat
  hour : Nat
  minute : Nat
  second : Nat
  millisecond : Nat
  offset : Int

/-- The separator between a date and a time. -/
def Separator (c : Nat) : Prop := c = 84 ∨ c = 116

/-- A date with a time. -/
def DateTime (s : List Nat) (at_ : Moment) : Prop :=
  ∃ d c t o, s = d ++ c :: (t ++ o) ∧ Date d at_.year at_.month at_.day ∧ Separator c ∧
    Time t at_.hour at_.minute at_.second at_.millisecond ∧ Offset o at_.offset

/-! ## Numerals -/

theorem valueFrom_append (v : Nat) (a b : List Nat) : valueFrom v (a ++ b) = valueFrom (valueFrom v a) b :=
  foldl_append

theorem valueFrom_eq : ∀ (ds : List Nat) (v : Nat), valueFrom v ds = v * 10 ^ ds.length + value ds := by
  intro ds
  induction ds with
  | nil =>
    intro v
    show v = v * 10 ^ 0 + 0
    omega
  | cons c ds ih =>
    intro v
    show valueFrom (v * 10 + (c - 48)) ds = _ + valueFrom (0 * 10 + (c - 48)) ds
    rw [ih, ih (0 * 10 + (c - 48)), length_cons, Nat.pow_succ, Nat.add_mul, Nat.add_mul,
      Nat.mul_assoc, Nat.mul_comm 10]
    omega

theorem value_append (a b : List Nat) : value (a ++ b) = value a * 10 ^ b.length + value b := by
  rw [value, valueFrom_append, valueFrom_eq]
  rfl

theorem value_lt : ∀ {ds : List Nat}, (∀ c ∈ ds, Digit c) → value ds < 10 ^ ds.length := by
  intro ds
  induction ds with
  | nil => exact fun _ => Nat.one_pos
  | cons c ds ih =>
    intro hds
    obtain ⟨hc, hds⟩ := forall_mem_cons.1 hds
    unfold Digit at hc
    have hlt := ih hds
    have heq : value (c :: ds) = (c - 48) * 10 ^ ds.length + value ds := by
      rw [show c :: ds = [c] ++ ds from rfl, value_append]
      congr 2
      show 0 * 10 + (c - 48) = c - 48
      omega
    have hle : (c - 48) * 10 ^ ds.length ≤ 9 * 10 ^ ds.length := Nat.mul_le_mul_right _ (by omega)
    grind

/-- The digits after the third one do not matter. -/
theorem thousandths_eq {f : List Nat} (hf : ∀ c ∈ f, Digit c) {n : Nat} (h3 : 3 ≤ n) (hn : n ≤ f.length) :
    thousandths f = value (f.take n) / 10 ^ (n - 3) := by
  have htake : (f ++ [48, 48, 48]).take 3 = (f.take n).take 3 := by
    grind
  have hsplit := take_append_drop 3 (f.take n)
  have hlen : ((f.take n).drop 3).length = n - 3 := by
    grind
  have hlt : value ((f.take n).drop 3) < 10 ^ (n - 3) := by
    rw [← hlen]
    exact value_lt fun c hc => hf c (mem_of_mem_take (mem_of_mem_drop hc))
  rw [thousandths, htake]
  conv_rhs => rw [← hsplit, value_append, hlen]
  rw [Nat.mul_comm, Nat.mul_add_div (Nat.pow_pos (by decide)), Nat.div_eq_of_lt hlt, Nat.add_zero]

/-! ## The characters of dates -/

def Positive (t : List Nat) : Prop := ∀ c ∈ t, c ≠ 0

theorem Positive.append {a b : List Nat} (ha : Positive a) (hb : Positive b) : Positive (a ++ b) :=
  fun c hc => (mem_append.1 hc).elim (ha c) (hb c)

variable {t : List Nat}

theorem Positive.cons {c : Nat} (hc : c ≠ 0) (ht : Positive t) : Positive (c :: t) :=
  forall_mem_cons.2 ⟨hc, ht⟩

theorem positive_digits (h : ∀ c ∈ t, Digit c) : Positive t := by
  intro c hc h0
  rw [h0] at hc
  exact absurd (h 0 hc).1 (by decide)

theorem Numeral.positive {n v : Nat} (h : Numeral n t v) : Positive t := positive_digits h.digits

theorem InRange.positive {lo hi v : Nat} (h : InRange lo hi t v) : Positive t :=
  h.numeral.positive

theorem Year.positive {y : Int} (h : Year t y) : Positive t := by
  cases h with
  | four h => exact h.positive
  | plus h => exact h.positive.cons (by decide)
  | minus h _ => exact h.positive.cons (by decide)

theorem Date.positive {y : Int} {m d : Nat} (h : Date t y m d) : Positive t := by
  cases h with
  | year hy => exact hy.positive
  | month hy hm => exact hy.positive.append (hm.positive.cons (by decide))
  | day hy hm hd =>
    exact hy.positive.append ((hm.positive.append (hd.positive.cons (by decide))).cons (by decide))

theorem Time.positive {h m s ms : Nat} (ht : Time t h m s ms) : Positive t := by
  cases ht with
  | minutes ha hu _ => exact ha.positive.append (hu.positive.cons (by decide))
  | seconds ha hu hw _ =>
    exact ha.positive.append ((hu.positive.append (hw.positive.cons (by decide))).cons (by decide))
  | fraction ha hu hw _ hf _ =>
    have hfraction := (positive_digits hf).cons (show 46 ≠ 0 by decide)
    exact ha.positive.append
      ((hu.positive.append ((hw.positive.append hfraction).cons (by decide))).cons (by decide))

theorem Sign.ne_zero {c : Nat} {i : Int} (h : Sign c i) : c ≠ 0 := by
  cases h with
  | plus => decide
  | minus => decide

theorem Offset.positive {i : Int} (h : Offset t i) : Positive t := by
  cases h with
  | none => exact fun c hc => (not_mem_nil hc).elim
  | utc hc => exact Positive.cons (by omega) fun c hc => (not_mem_nil hc).elim
  | colon hs hh hm => exact (hh.positive.append (hm.positive.cons (by decide))).cons hs.ne_zero
  | plain hs hh hm => exact (hh.positive.append hm.positive).cons hs.ne_zero

theorem DateTime.positive {m : Moment} (h : DateTime t m) : Positive t := by
  obtain ⟨d, c, u, o, rfl, hd, hc, hu, ho⟩ := h
  refine hd.positive.append ((hu.positive.append ho.positive).cons ?_)
  rcases hc with rfl | rfl
  · decide
  · decide

theorem Time.hour_le {h m s ms : Nat} (ht : Time t h m s ms) : h ≤ 24 := by
  cases ht with
  | minutes ha => exact ha.ge
  | seconds ha => exact ha.ge
  | fraction ha => exact ha.ge

end W16.DateTimes
