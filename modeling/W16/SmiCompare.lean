import Mathlib

/-!
# Comparing small integers as strings

`Runtime_SmiLexicographicCompare` compares two integers as their decimal representations, without
making these: the number with fewer digits is scaled up, one digit short.
-/
namespace W16.SmiCompare

open List Option

set_option linter.dupNamespace false

def less : Int := -1
def equal : Int := 0
def greater : Int := 1

/-- A `uint32_t`. -/
def uint32 (value : Int) : Nat := (value % 4294967296).toNat

/-- `IntegerLog2` as it is written for all compilers. -/
def integerLog2 (value : Nat) : Nat :=
  let shift := (if value > 0xFFFF then 1 else 0) <<< 4
  let value := value >>> shift
  let result := shift
  let shift := (if value > 0xFF then 1 else 0) <<< 3
  let value := value >>> shift
  let result := result ||| shift
  let shift := (if value > 0xF then 1 else 0) <<< 2
  let value := value >>> shift
  let result := result ||| shift
  let shift := (if value > 0x3 then 1 else 0) <<< 1
  let value := value >>> shift
  let result := result ||| shift
  result ||| value >>> 1

def kPowersOf10 : List Nat :=
  [1, 10, 100, 1000, 10 * 1000, 100 * 1000, 1000 * 1000, 10 * 1000 * 1000, 100 * 1000 * 1000,
    1000 * 1000 * 1000]

/-- An element of `kPowersOf10`, if there is one. -/
def powerOf10 (index : Int) : Option Nat := if 0 ≤ index then kPowersOf10[index.toNat]? else none

def log10 (scaled : Nat) : Option Int := do
  let log2 := integerLog2 scaled
  let log10 : Nat := ((log2 + 1) * 1233) >>> 12
  let power ← powerOf10 log10
  return (log10 : Int) - if scaled < power then 1 else 0

/-- What is left when the signs are settled: the result, and the operands of the multiplications
that were made. There is no result where an index is out of range. -/
def compareScaled (xScaled yScaled : Nat) : Option (Int × List (Nat × Nat)) := do
  let xLog10 ← log10 xScaled
  let yLog10 ← log10 yScaled
  let compare (x y : Nat) (tie : Int) : Int :=
    if x < y then less else if x > y then greater else tie
  if xLog10 < yLog10 then
    let power ← powerOf10 (yLog10 - xLog10 - 1)
    return (compare (xScaled * power % 4294967296) (yScaled / 10) less, [(xScaled, power)])
  else if yLog10 < xLog10 then
    let power ← powerOf10 (xLog10 - yLog10 - 1)
    return (compare (xScaled / 10) (yScaled * power % 4294967296) greater, [(yScaled, power)])
  else return (compare xScaled yScaled equal, [])

def smiLexicographicCompare (x y : Int) : Option (Int × List (Nat × Nat)) :=
  if x = y then some (equal, [])
  else if x = 0 || y = 0 then some (if x < y then less else greater, [])
  else if x < 0 || y < 0 then
    if 0 ≤ y then some (less, [])
    else if 0 ≤ x then some (greater, [])
    else compareScaled (uint32 (-x)) (uint32 (-y))
  else compareScaled (uint32 x) (uint32 y)

/-- Two strings, character by character; a prefix is less. -/
def compareStrings : List Char → List Char → Int
  | [], [] => equal
  | [], _ :: _ => less
  | _ :: _, [] => greater
  | a :: x, b :: y =>
    if a = b then compareStrings x y else if a.toNat < b.toNat then less else greater

/-- The comparison function of `ArraySort` for small integers when the caller gives none. -/
def comparefn (x y : Int) : Option Int :=
  if x = y then some 0 else (smiLexicographicCompare x y).map Prod.fst

/-- What the comparison function does with other values, which it makes strings of. -/
def compareAsStrings (x y : List Char) : Int :=
  if x = y then 0 else if compareStrings x y = less then -1 else 1

section Log

/-- A step of the default version: what is left when the bits found so far are shifted out, and
the next bit of the index. -/
theorem or_step {value rest result limit : Nat} (bit : Nat) (hlimit : limit = 2 ^ 2 ^ bit - 1)
    (hres : result % (2 * 2 ^ bit) = 0)
    (hrest : rest = value / 2 ^ result) (hpos : 0 < rest) (hlt : rest < 2 ^ (2 * 2 ^ bit))
    {shift : Nat} (hshift : shift = (if rest > limit then 1 else 0) <<< bit) :
    (result ||| shift) % 2 ^ bit = 0 ∧ rest >>> shift = value / 2 ^ (result ||| shift) ∧
      0 < rest >>> shift ∧ rest >>> shift < 2 ^ 2 ^ bit ∧
      result ≤ result ||| shift ∧ (result ||| shift) ≤ result + 2 ^ bit := by
  subst hlimit
  have hbit := Nat.two_pow_pos bit
  have hor : result ||| shift = result + shift := by
    obtain ⟨a, ha⟩ : 2 * 2 ^ bit ∣ result := Nat.dvd_of_mod_eq_zero hres
    have hlt : shift < 2 ^ (bit + 1) := by
      rw [hshift, Nat.shiftLeft_eq, Nat.pow_succ]
      split_ifs <;> omega
    have hpow : 2 * 2 ^ bit = 2 ^ (bit + 1) := by rw [Nat.pow_succ, Nat.mul_comm]
    rw [ha, hpow, Nat.two_pow_add_eq_or_of_lt hlt]
  have hmod : result % 2 ^ bit = 0 :=
    Nat.mod_eq_zero_of_dvd (Nat.dvd_trans ⟨2, Nat.mul_comm _ _⟩ (Nat.dvd_of_mod_eq_zero hres))
  rw [hor]
  by_cases hupper : rest > 2 ^ 2 ^ bit - 1
  · have hone : shift = 2 ^ bit := by rw [hshift, if_pos hupper, Nat.shiftLeft_eq, Nat.one_mul]
    have hsquare : 2 ^ (2 * 2 ^ bit) = 2 ^ 2 ^ bit * 2 ^ 2 ^ bit := by
      rw [Nat.two_mul, Nat.pow_add]
    have hhalf := Nat.two_pow_pos (2 ^ bit)
    rw [hone, Nat.shiftRight_eq_div_pow]
    refine ⟨by rw [Nat.add_mod_right, hmod], ?_, Nat.div_pos (by omega) hhalf, ?_, by omega, by omega⟩
    · rw [hrest, Nat.div_div_eq_div_mul, Nat.pow_add]
    · exact Nat.div_lt_of_lt_mul (by omega)
  · have hzero : shift = 0 := by rw [hshift, if_neg hupper, Nat.zero_shiftLeft]
    grind -linarith

theorem or_steps {value s4 s3 s2 s1 : Nat} (hpos : 0 < value) (hlt : value < 2 ^ 32)
    (h4 : s4 = (if value > 0xFFFF then 1 else 0) <<< 4)
    (h3 : s3 = (if value >>> s4 > 0xFF then 1 else 0) <<< 3)
    (h2 : s2 = (if value >>> s4 >>> s3 > 0xF then 1 else 0) <<< 2)
    (h1 : s1 = (if value >>> s4 >>> s3 >>> s2 > 0x3 then 1 else 0) <<< 1) :
    let log := s4 ||| s3 ||| s2 ||| s1 ||| value >>> s4 >>> s3 >>> s2 >>> s1 >>> 1
    log < 32 ∧ 2 ^ log ≤ value ∧ value < 2 ^ (log + 1) := by
  intro log
  obtain ⟨hm4, hr4, hp4, hl4, hb4⟩ := or_step 4 rfl (Nat.zero_mod _) (Nat.div_one value).symm hpos hlt h4
  simp only [Nat.zero_or, Nat.zero_add] at hm4 hr4 hb4
  obtain ⟨hm3, hr3, hp3, hl3, hb3⟩ := or_step 3 rfl hm4 hr4 hp4 hl4 h3
  obtain ⟨hm2, hr2, hp2, hl2, hb2⟩ := or_step 2 rfl hm3 hr3 hp3 hl3 h2
  obtain ⟨hm1, hr1, hp1, hl1, hb1⟩ := or_step 1 rfl hm2 hr2 hp2 hl2 h1
  have hlog : log = (s4 ||| s3 ||| s2 ||| s1) ||| (value >>> s4 >>> s3 >>> s2 >>> s1) >>> 1 := rfl
  generalize value >>> s4 >>> s3 >>> s2 >>> s1 = rest at hr1 hp1 hl1 hlog
  have hbound : (s4 ||| s3 ||| s2 ||| s1) ≤ 30 := by omega
  generalize (s4 ||| s3 ||| s2 ||| s1) = result at hm1 hr1 hlog hbound
  -- the last bit of the index is the upper one of the two that are left
  have hor : log = result + rest / 2 := by
    obtain ⟨a, rfl⟩ : 2 ^ 1 ∣ result := Nat.dvd_of_mod_eq_zero hm1
    rw [hlog, Nat.shiftRight_eq_div_pow, Nat.two_pow_add_eq_or_of_lt (by omega), Nat.pow_one]
  have hlower := hr1 ▸ Nat.mul_div_le value _
  have hupper : value < 2 ^ result * (rest + 1) := by
    rw [hr1]
    exact Nat.lt_mul_div_succ value (Nat.two_pow_pos result)
  have hsmall : rest = 1 ∨ rest = 2 ∨ rest = 3 := by omega
  rw [hor]
  rcases hsmall with rfl | rfl | rfl <;> refine ⟨by omega, ?_, ?_⟩ <;>
    grind

/-- The default version gives the index of the leading bit. -/
theorem integerLog2_spec {value : Nat} (hpos : 0 < value) (hlt : value < 2 ^ 32) :
    integerLog2 value < 32 ∧ 2 ^ integerLog2 value ≤ value ∧ value < 2 ^ (integerLog2 value + 1) :=
  or_steps hpos hlt rfl rfl rfl rfl

/-- The approximate logarithm of a power of 2 is right or one too large for all numbers below the
next one. -/
theorem approximate_log10 : ∀ l < 32,
    powerOf10 (((l + 1) * 1233) >>> 12 : Nat) = some (10 ^ (((l + 1) * 1233) >>> 12)) ∧
      ((l + 1) * 1233) >>> 12 ≤ 9 ∧
      (((l + 1) * 1233) >>> 12 = 0 ∨ 10 ^ (((l + 1) * 1233) >>> 12 - 1) ≤ 2 ^ l) ∧
      2 ^ (l + 1) ≤ 10 ^ (((l + 1) * 1233) >>> 12 + 1) := by
  decide

/-- The logarithm to base 10 is the number of digits less one, and its index is in range. -/
theorem log10_spec {n : Nat} (hpos : 0 < n) (hlt : n < 2 ^ 32) :
    ∃ d : Nat, d ≤ 9 ∧ log10 n = some (d : Int) ∧ 10 ^ d ≤ n ∧ n < 10 ^ (d + 1) := by
  obtain ⟨hlog, hlower, hupper⟩ := integerLog2_spec hpos hlt
  obtain ⟨hpower, hle, hbelow, habove⟩ := approximate_log10 _ hlog
  have hlog10 : log10 n = some ((((((integerLog2 n + 1) * 1233) >>> 12 : Nat) : Int)) -
      if n < 10 ^ (((integerLog2 n + 1) * 1233) >>> 12) then 1 else 0) := by
    simp only [log10, hpower]
    rfl
  rw [hlog10]
  generalize ((integerLog2 n + 1) * 1233) >>> 12 = t at hle hbelow habove
  by_cases hless : n < 10 ^ t
  · obtain ⟨d, rfl⟩ : ∃ d, t = d + 1 := by
      cases t with
      | zero => omega
      | succ d => exact ⟨d, rfl⟩
    grind
  grind

theorem powerOf10_eq {k : Nat} (h : k ≤ 9) : powerOf10 k = some (10 ^ k) := by
  revert k
  decide

end Log

section Strings

/-- Strings of equal length are decided by their heads, unless these are the same. -/
theorem compareStrings_append {x y : List Char} (hlen : x.length = y.length)
    (x' y' : List Char) : compareStrings (x ++ x') (y ++ y') =
      if compareStrings x y = equal then compareStrings x' y' else compareStrings x y := by
  induction x generalizing y with
  | nil =>
    grind [compareStrings]
  | cons a x ih =>
    match y, hlen with
    | b :: y, hlen =>
      simp only [cons_append, compareStrings]
      by_cases hab : a = b
      · simp_all
      · by_cases hlt : a.toNat < b.toNat <;> simp [hab, hlt, less, greater, equal]

theorem compareStrings_swap (x y : List Char) : compareStrings y x = -compareStrings x y := by
  induction x generalizing y with
  | nil => cases y <;> simp [compareStrings, less, greater, equal]
  | cons a x ih =>
    match y with
    | [] => simp [compareStrings, less, greater]
    | b :: y =>
      by_cases hab : a = b
      · simp [compareStrings, hab, ih]
      · have hne : a.toNat ≠ b.toNat := fun h => hab (Char.toNat_inj.1 h)
        by_cases hlt : a.toNat < b.toNat
        · have hgt : ¬b.toNat < a.toNat := by omega
          simp [compareStrings, hab, Ne.symm hab, hlt, hgt, less, greater]
        · have hgt : b.toNat < a.toNat := by omega
          simp [compareStrings, hab, Ne.symm hab, hlt, hgt, less, greater]

theorem compareStrings_digit {a b : Nat} (ha : a < 10) (hb : b < 10) :
    compareStrings [a.digitChar] [b.digitChar] = if a < b then less else if b < a then greater else equal := by
  have hca := Nat.toNat_digitChar_of_lt_ten ha
  have hcb := Nat.toNat_digitChar_of_lt_ten hb
  by_cases hab : a = b
  · simp [hab, compareStrings]
  · have hne : a.digitChar ≠ b.digitChar := by
      intro h
      rw [h] at hca
      omega
    simp only [compareStrings, hne, if_false, hca, hcb]
    split_ifs <;> first | rfl | omega

/-- Numbers with so many digits, or the number zero. -/
def HasDigits (d n : Nat) : Prop := (d = 0 ∨ 10 ^ d ≤ n) ∧ n < 10 ^ (d + 1)

theorem HasDigits.length {d n : Nat} (h : HasDigits d n) : (Nat.toDigits 10 n).length = d + 1 := by
  have hle := (Nat.length_toDigits_le_iff (n := n) (k := d + 1) (by omega) (by omega)).2 h.2
  have hpos := Nat.length_toDigits_pos (b := 10) (n := n)
  rcases h.1 with hzero | hpow
  · omega
  · by_cases hzero : d = 0
    · omega
    · have hnot := mt (Nat.length_toDigits_le_iff (n := n) (k := d) (by omega) (by omega)).1 (Nat.not_lt.2 hpow)
      omega

theorem HasDigits.div {d n : Nat} (h : HasDigits (d + 1) n) : HasDigits d (n / 10) := by
  obtain ⟨hlower, hupper⟩ := h
  exact ⟨Or.inr (by omega), by omega⟩

/-- Numbers with the same number of digits compare as their digits do. -/
theorem compareStrings_toDigits {d x y : Nat} (hx : HasDigits d x) (hy : HasDigits d y) :
    compareStrings (Nat.toDigits 10 x) (Nat.toDigits 10 y) =
      if x < y then less else if y < x then greater else equal := by
  induction d generalizing x y with
  | zero =>
    have hx10 : x < 10 := by simpa using hx.2
    have hy10 : y < 10 := by simpa using hy.2
    rw [Nat.toDigits_of_lt_base hx10, Nat.toDigits_of_lt_base hy10, compareStrings_digit hx10 hy10]
  | succ d ih =>
    have hdx := hx.div
    have hdy := hy.div
    have hten : ∀ n, HasDigits (d + 1) n → 10 ≤ n := by
      intro n hn
      have := hn.1.resolve_left (by omega)
      grind
    rw [Nat.toDigits_of_base_le (by omega) (hten x hx), Nat.toDigits_of_base_le (by omega) (hten y hy),
      compareStrings_append (by rw [hdx.length, hdy.length]), ih hdx hdy,
      compareStrings_digit (Nat.mod_lt x (by omega)) (Nat.mod_lt y (by omega))]
    simp only [less, greater, equal]
    split_ifs <;> first | rfl | omega

/-- The digits of a number begin with the digits of what is left without its last ones. -/
theorem toDigits_prefix (k : Nat) {n : Nat} (h : 0 < n / 10 ^ k) :
    ∃ tail, Nat.toDigits 10 n = Nat.toDigits 10 (n / 10 ^ k) ++ tail ∧ tail.length = k := by
  induction k with
  | zero => exact ⟨[], by simp, rfl⟩
  | succ k ih =>
    have hdiv : n / 10 ^ (k + 1) = n / 10 ^ k / 10 := by rw [Nat.pow_succ, Nat.div_div_eq_div_mul]
    rw [hdiv] at h ⊢
    obtain ⟨tail, htail, hlen⟩ := ih (by omega)
    rw [Nat.toDigits_of_base_le (n := n / 10 ^ k) (by omega) (by omega)] at htail
    exact ⟨_ :: tail, by rw [htail, append_assoc, singleton_append], by simp [hlen]⟩

/-- A number with fewer digits compares as with the same number of digits of the other one, and is
less where these are equal. -/
theorem compareStrings_shorter {d k x y : Nat} (hx : HasDigits d x) (hy : HasDigits (d + (k + 1)) y) :
    compareStrings (Nat.toDigits 10 x) (Nat.toDigits 10 y) =
      if y / 10 ^ (k + 1) < x then greater else less := by
  have hpow : 10 ^ (d + (k + 1)) = 10 ^ d * 10 ^ (k + 1) := Nat.pow_add ..
  have hpos : 0 < 10 ^ (k + 1) := Nat.pow_pos (by omega)
  have hlower : 10 ^ d ≤ y / 10 ^ (k + 1) := by
    rw [Nat.le_div_iff_mul_le hpos, ← hpow]
    exact hy.1.resolve_left (by omega)
  have hupper : y / 10 ^ (k + 1) < 10 ^ (d + 1) := by
    rw [Nat.div_lt_iff_lt_mul hpos, ← Nat.pow_add]
    have hsum : d + 1 + (k + 1) = d + (k + 1) + 1 := by omega
    rw [hsum]
    exact hy.2
  have hq : HasDigits d (y / 10 ^ (k + 1)) := ⟨Or.inr hlower, hupper⟩
  have hqpos : 0 < y / 10 ^ (k + 1) := Nat.lt_of_lt_of_le (Nat.pow_pos (by omega)) hlower
  obtain ⟨tail, htail, hlen⟩ := toDigits_prefix (k + 1) hqpos
  have hx' : Nat.toDigits 10 x = Nat.toDigits 10 x ++ [] := (append_nil _).symm
  rw [htail, hx', compareStrings_append (by rw [hx.length, hq.length]), compareStrings_toDigits hx hq]
  cases tail with
  | nil => simp at hlen
  | cons c tail =>
    simp only [compareStrings, less, greater, equal]
    split_ifs <;> first | rfl | omega

end Strings

section Compare

variable {x y : Nat}

/-- The shorter number, scaled one digit short, against the other one without its last digit. -/
theorem scaled_compare {d k : Nat} (hx : HasDigits d x) (hy : HasDigits (d + (k + 1)) y) :
    x * 10 ^ k ≤ y ∧ (y / 10 ^ (k + 1) < x ↔ y / 10 < x * 10 ^ k) := by
  have hpos : 0 < 10 ^ k := Nat.pow_pos (by omega)
  constructor
  · have hle : x * 10 ^ k ≤ 10 ^ (d + 1) * 10 ^ k := Nat.mul_le_mul_right _ (Nat.le_of_lt hx.2)
    rw [← Nat.pow_add, Nat.add_assoc, Nat.add_comm 1 k] at hle
    exact Nat.le_trans hle (hy.1.resolve_left (by omega))
  · rw [Nat.pow_succ, Nat.mul_comm, ← Nat.div_div_eq_div_mul, Nat.div_lt_iff_lt_mul hpos]

/-- Comparing the scaled numbers compares their digits; no multiplication wraps. -/
theorem compareScaled_spec (hx : 0 < x) (hx' : x < 2 ^ 32) (hy : 0 < y) (hy' : y < 2 ^ 32) :
    ∃ products, compareScaled x y = some (compareStrings (Nat.toDigits 10 x) (Nat.toDigits 10 y), products) ∧
      ∀ p ∈ products, p.1 * p.2 < 2 ^ 32 := by
  obtain ⟨dx, hdx, hlogx, hx10, hx10'⟩ := log10_spec hx hx'
  obtain ⟨dy, hdy, hlogy, hy10, hy10'⟩ := log10_spec hy hy'
  have hdigitsx : HasDigits dx x := ⟨Or.inr hx10, hx10'⟩
  have hdigitsy : HasDigits dy y := ⟨Or.inr hy10, hy10'⟩
  rcases Nat.lt_trichotomy dx dy with hlt | rfl | hlt
  · obtain ⟨k, rfl⟩ := Nat.exists_eq_add_of_lt hlt
    have hindex : ((dx + k + 1 : Nat) : Int) - dx - 1 = (k : Nat) := by omega
    obtain ⟨hle, hscaled⟩ := scaled_compare hdigitsx hdigitsy
    refine ⟨[(x, 10 ^ k)], ?_, by simp only [mem_singleton, forall_eq]; omega⟩
    rw [compareStrings_shorter hdigitsx hdigitsy, if_congr hscaled rfl rfl]
    have hltInt : (dx : Int) < ((dx + k + 1 : Nat) : Int) := by omega
    simp only [compareScaled, hlogx, hlogy, bind_eq_bind, bind_some, hltInt, if_true,
      hindex, powerOf10_eq (show k ≤ 9 by omega), Option.pure_def, Option.some.injEq,
      Prod.mk.injEq, and_true]
    split_ifs <;> first | rfl | omega
  · refine ⟨[], ?_, by simp⟩
    rw [compareStrings_toDigits hdigitsx hdigitsy]
    simp [compareScaled, hlogx, hlogy]
  · obtain ⟨k, rfl⟩ := Nat.exists_eq_add_of_lt hlt
    have hindex : ((dy + k + 1 : Nat) : Int) - dy - 1 = (k : Nat) := by omega
    obtain ⟨hle, hscaled⟩ := scaled_compare hdigitsy hdigitsx
    have hmod : y * 10 ^ k % 4294967296 = y * 10 ^ k := Nat.mod_eq_of_lt (by omega)
    refine ⟨[(y, 10 ^ k)], ?_, by simp only [mem_singleton, forall_eq]; omega⟩
    rw [compareStrings_swap, compareStrings_shorter hdigitsy hdigitsx, if_congr hscaled rfl rfl]
    have hltInt : ¬((dy + k + 1 : Nat) : Int) < dy := by omega
    have hgtInt : (dy : Int) < ((dy + k + 1 : Nat) : Int) := by omega
    simp only [compareScaled, hlogx, hlogy, bind_eq_bind, bind_some, hltInt, hgtInt,
      if_true, if_false, hindex, powerOf10_eq (show k ≤ 9 by omega), hmod, Option.pure_def,
      Option.some.injEq, Prod.mk.injEq, and_true]
    split_ifs <;> rfl

theorem toList_repr (x : Int) : (toString x).toList =
    if 0 ≤ x then Nat.toDigits 10 x.toNat else '-' :: Nat.toDigits 10 (-x).toNat := by
  rw [Int.toString_eq_repr, Int.repr_eq_if]
  split_ifs
  · exact Nat.toList_repr
  · rw [String.toList_append, Nat.toList_repr]
    rfl

/-- A sign comes before every digit. -/
theorem compareStrings_sign (x : List Char) (n : Nat) :
    compareStrings ('-' :: x) (Nat.toDigits 10 n) = less := by
  cases hdigs : Nat.toDigits 10 n with
  | nil => exact absurd hdigs Nat.toDigits_ne_nil
  | cons c rest =>
    have hdigit := Nat.isDigit_of_mem_toDigits (b := 10) (n := n) (c := c) (by omega) (by omega)
      (by simp [hdigs])
    have hcode : 48 ≤ c.toNat := by
      simp only [Char.isDigit, ge_iff_le, Bool.and_eq_true, decide_eq_true_eq] at hdigit
      exact hdigit.1
    have hne : '-' ≠ c := by
      rintro rfl
      simp at hcode
    have hlt : '-'.toNat < c.toNat := Nat.lt_of_lt_of_le (by decide) hcode
    rw [compareStrings, if_neg hne, if_pos hlt]

theorem compareStrings_self (x : List Char) : compareStrings x x = equal := by
  induction x with
  | nil => rfl
  | cons a x ih => simpa [compareStrings] using ih

/-- Zero comes before all other numbers without a sign. -/
theorem compareStrings_zero (hy : 0 < y) (hy' : y < 2 ^ 32) :
    compareStrings (Nat.toDigits 10 0) (Nat.toDigits 10 y) = less := by
  obtain ⟨d, -, -, hlower, hupper⟩ := log10_spec hy hy'
  have hzero : HasDigits 0 0 := ⟨Or.inl rfl, by omega⟩
  cases d with
  | zero => rw [compareStrings_toDigits hzero ⟨Or.inl rfl, hupper⟩, if_pos hy]
  | succ k =>
    have hdigs : HasDigits (0 + (k + 1)) y := by
      rw [Nat.zero_add]
      exact ⟨Or.inr hlower, hupper⟩
    rw [compareStrings_shorter hzero hdigs, if_neg (Nat.not_lt_zero _)]

end Compare

section Smi

theorem smiLexicographicCompare_spec {x y : Int} (hx : -2 ^ 31 ≤ x) (hx' : x < 2 ^ 31)
    (hy : -2 ^ 31 ≤ y) (hy' : y < 2 ^ 31) :
    ∃ products, smiLexicographicCompare x y =
        some (compareStrings (toString x).toList (toString y).toList, products) ∧
      ∀ p ∈ products, p.1 * p.2 < 2 ^ 32 := by
  have huint : ∀ v : Int, 0 < v → v ≤ 2 ^ 31 → uint32 v = v.toNat := by
    simp only [uint32]
    omega
  simp only [smiLexicographicCompare]
  by_cases heq : x = y
  · exact ⟨[], by rw [if_pos heq, heq, compareStrings_self], by simp⟩
  · rw [if_neg heq, toList_repr, toList_repr]
    by_cases hzero : (decide (x = 0) || decide (y = 0)) = true
    · rw [if_pos hzero]
      simp only [Bool.or_eq_true, decide_eq_true_eq] at hzero
      refine ⟨[], ?_, by simp⟩
      rcases hzero with rfl | rfl
      · rw [if_pos (Int.le_refl 0), Int.toNat_zero]
        by_cases hneg : 0 ≤ y
        · rw [if_pos hneg, if_pos (by omega), compareStrings_zero (by omega) (by omega)]
        · rw [if_neg hneg, if_neg (by omega), compareStrings_swap, compareStrings_sign]
          rfl
      · rw [if_pos (Int.le_refl 0), Int.toNat_zero]
        by_cases hneg : 0 ≤ x
        · rw [if_pos hneg, if_neg (by omega), compareStrings_swap, compareStrings_zero (by omega) (by omega)]
          rfl
        · rw [if_neg hneg, if_pos (by omega), compareStrings_sign]
    · rw [if_neg hzero]
      simp only [Bool.or_eq_true, decide_eq_true_eq, not_or] at hzero
      by_cases hsigns : (decide (x < 0) || decide (y < 0)) = true
      · rw [if_pos hsigns]
        simp only [Bool.or_eq_true, decide_eq_true_eq] at hsigns
        by_cases hynonneg : 0 ≤ y
        · rw [if_pos hynonneg, if_pos hynonneg, if_neg (show ¬0 ≤ x by omega)]
          exact ⟨[], by rw [compareStrings_sign], by simp⟩
        · by_cases hxnonneg : 0 ≤ x
          · rw [if_neg hynonneg, if_neg hynonneg, if_pos hxnonneg, if_pos hxnonneg]
            exact ⟨[], by rw [compareStrings_swap, compareStrings_sign]; rfl, by simp⟩
          · rw [if_neg hynonneg, if_neg hynonneg, if_neg hxnonneg, if_neg hxnonneg,
              huint (-x) (by omega) (by omega), huint (-y) (by omega) (by omega)]
            have hsame : compareStrings ('-' :: Nat.toDigits 10 (-x).toNat)
                ('-' :: Nat.toDigits 10 (-y).toNat) =
                compareStrings (Nat.toDigits 10 (-x).toNat) (Nat.toDigits 10 (-y).toNat) := by
              rw [compareStrings, if_pos rfl]
            exact compareScaled_spec (by omega) (by omega) (by omega) (by omega)
      · rw [if_neg hsigns]
        simp only [Bool.or_eq_true, decide_eq_true_eq, not_or] at hsigns
        rw [if_pos (show 0 ≤ x by omega), if_pos (show 0 ≤ y by omega),
          huint x (by omega) (by omega), huint y (by omega) (by omega)]
        exact compareScaled_spec (by omega) (by omega) (by omega) (by omega)

theorem compareStrings_eq_equal {x y : List Char} (h : compareStrings x y = equal) : x = y := by
  induction x generalizing y with
  | nil =>
    cases y with
    | nil => rfl
    | cons b y => simp [compareStrings, less, equal] at h
  | cons a x ih =>
    match y with
    | [] => simp [compareStrings, greater, equal] at h
    | b :: y =>
      by_cases hab : a = b
      · rw [compareStrings, if_pos hab] at h
        rw [hab, ih h]
      grind [compareStrings, less, greater, equal]

theorem compareStrings_cases (x y : List Char) :
    compareStrings x y = less ∨ compareStrings x y = equal ∨ compareStrings x y = greater := by
  induction x generalizing y with
  | nil => cases y <;> simp [compareStrings]
  | cons a x ih =>
    match y with
    | [] => simp [compareStrings]
    | b :: y =>
      grind [compareStrings]

theorem toList_injective {x y : Int} (h : (toString x).toList = (toString y).toList) : x = y := by
  have hdigs : ∀ m n : Nat, Nat.toDigits 10 m = Nat.toDigits 10 n → m = n := by
    grind [Nat.ofDigitChars_toDigits]
  have hsign : ∀ (z : List Char) (n : Nat), '-' :: z ≠ Nat.toDigits 10 n := by
    intro z n hz
    have hless := compareStrings_sign z n
    rw [← hz, compareStrings_self] at hless
    simp [equal, less] at hless
  rw [toList_repr, toList_repr] at h
  grind

/-- Small integers are compared as their decimal representations, with every index in range and no
multiplication that wraps, and so the default comparison of `sort` is the one of strings. -/
theorem smiLexicographicCompare_strings (x y : Int) (hx : -2 ^ 31 ≤ x ∧ x < 2 ^ 31)
    (hy : -2 ^ 31 ≤ y ∧ y < 2 ^ 31) :
    (∃ products, smiLexicographicCompare x y =
        some (compareStrings (toString x).toList (toString y).toList, products) ∧
      ∀ p ∈ products, p.1 * p.2 < 2 ^ 32) ∧
    comparefn x y = some (compareAsStrings (toString x).toList (toString y).toList) := by
  obtain ⟨products, hcompare, hproducts⟩ := smiLexicographicCompare_spec hx.1 hx.2 hy.1 hy.2
  refine ⟨⟨products, hcompare, hproducts⟩, ?_⟩
  rw [comparefn, hcompare, compareAsStrings]
  by_cases heq : x = y
  · simp [heq]
  · have hne : (toString x).toList ≠ (toString y).toList := mt toList_injective heq
    rw [if_neg heq, if_neg hne]
    have hcases := compareStrings_cases (toString x).toList (toString y).toList
    generalize hresult : compareStrings (toString x).toList (toString y).toList = result at hcases
    rcases hcases with rfl | rfl | rfl
    · rfl
    · exact absurd (compareStrings_eq_equal hresult) hne
    · rfl

theorem smiLexicographicCompare_strings_nine : (∃ products, smiLexicographicCompare 9 1000000000 =
        some (compareStrings (toString (9 : Int)).toList (toString (1000000000 : Int)).toList, products) ∧
      ∀ p ∈ products, p.1 * p.2 < 2 ^ 32) ∧
    comparefn 9 1000000000 = some (compareAsStrings (toString (9 : Int)).toList
      (toString (1000000000 : Int)).toList) :=
  smiLexicographicCompare_strings 9 1000000000 (by decide) (by decide)

end Smi

end W16.SmiCompare
