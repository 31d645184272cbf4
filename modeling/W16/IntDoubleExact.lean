import W16.StringToDouble
import W16.Nearest

/-!
# Integers of a radix that is a power of two are rounded correctly

Where the 54th bit is found, the bits below it and the digits behind them are one remainder, of
which the code keeps what decides the rounding. Only the exponent can leave its `int`.
-/
namespace W16.IntDouble

open StringNumbers (advanceToNonspace)
open Rounding List

set_option linter.dupNamespace false

/-! ## Digits -/

/-- The number that digits write behind others. -/
def value (radix v : Nat) (digits : List Nat) : Nat :=
  digits.foldl (fun v c => v * radix + (readDigit radix c).getD 0) v

variable {radix c : Nat}

theorem isDigit_iff : isDigit c radix = true ↔ (readDigit radix c).isSome = true := by
  unfold isDigit readDigit
  grind

theorem readDigit_lt {digit : Nat} (h : readDigit radix c = some digit) : digit < radix := by
  unfold readDigit at h
  grind

/-- Only the character zero writes nothing. -/
theorem readDigit_eq_zero {digit : Nat} (h : readDigit radix c = some digit) : digit = 0 ↔ c = 48 := by
  unfold readDigit at h
  grind

theorem value_cons (v : Nat) (digits : List Nat) {digit : Nat} (h : readDigit radix c = some digit) :
    value radix v (c :: digits) = value radix (v * radix + digit) digits := by
  rw [value, foldl_cons, h]
  rfl

/-- All characters are digits. -/
def AllDigits (radix : Nat) (digits : List Nat) : Prop := ∀ c ∈ digits, isDigit c radix = true

instance (radix : Nat) (digits : List Nat) : Decidable (AllDigits radix digits) :=
  inferInstanceAs (Decidable (∀ c ∈ digits, _))

theorem value_split (v : Nat) (digits : List Nat) :
    value radix v digits = v * radix ^ digits.length + value radix 0 digits := by
  induction digits generalizing v with
  | nil => simp [value]
  | cons c digits ih =>
    show value radix (v * radix + (readDigit radix c).getD 0) digits =
      v * radix ^ (digits.length + 1) + value radix (0 * radix + (readDigit radix c).getD 0) digits
    rw [ih, ih (0 * radix + _), pow_succ]
    ring

variable {digits rest : List Nat}

theorem value_lt (h : AllDigits radix digits) : value radix 0 digits < radix ^ digits.length := by
  induction digits with
  | nil => simp [value]
  | cons c digits ih =>
    obtain ⟨hc, hds⟩ := forall_mem_cons.1 h
    obtain ⟨digit, hdigit⟩ := Option.isSome_iff_exists.1 (isDigit_iff.1 hc)
    have hlt := readDigit_lt hdigit
    have hrest := ih hds
    rw [value_cons 0 digits hdigit, value_split, length_cons, Nat.pow_succ']
    have hmul : (0 * radix + digit + 1) * radix ^ digits.length ≤ radix * radix ^ digits.length :=
      Nat.mul_le_mul_right _ (by omega)
    rw [Nat.add_mul, Nat.one_mul] at hmul
    omega

theorem value_eq_zero (hradix : 0 < radix) (h : AllDigits radix digits) :
    value radix 0 digits = 0 ↔ ∀ c ∈ digits, c = 48 := by
  induction digits with
  | nil => simp [value]
  | cons c digits ih =>
    obtain ⟨hc, hds⟩ := forall_mem_cons.1 h
    obtain ⟨digit, hdigit⟩ := Option.isSome_iff_exists.1 (isDigit_iff.1 hc)
    have hpos : 0 < radix ^ digits.length := Nat.pow_pos hradix
    rw [value_cons 0 digits hdigit, value_split, forall_mem_cons, ← ih hds, ← readDigit_eq_zero hdigit,
      zero_mul, zero_add, Nat.add_eq_zero_iff, Nat.mul_eq_zero]
    exact and_congr_left fun _ => or_iff_left (ne_of_gt hpos)

/-! ## The dropped part -/

variable {radixLog2 : Nat}

/-- The characters behind the digits. -/
def NoDigit (radix : Nat) (rest : List Nat) : Prop := ∀ c ∈ rest.head?, isDigit c radix = false

instance (radix : Nat) (rest : List Nat) : Decidable (NoDigit radix rest) :=
  inferInstanceAs (Decidable (∀ c ∈ rest.head?, _))

theorem dropDigits_eq {exponent : Nat} (zeroTail : Bool) (hexp : exponent ≤ maxInt)
    (hdigs : AllDigits (2 ^ radixLog2) digits) (hrest : NoDigit (2 ^ radixLog2) rest) :
    dropDigits radixLog2 (digits ++ rest) exponent zeroTail =
      if exponent + radixLog2 * digits.length ≤ maxInt then
        .ok (rest, exponent + radixLog2 * digits.length, zeroTail && digits.all (· = 48))
      else .error .overflow := by
  induction digits generalizing exponent zeroTail with
  | nil =>
    rw [length_nil, mul_zero, add_zero, if_pos hexp]
    cases rest with
    | nil => simp [dropDigits]
    | cons c cs => simp [dropDigits, hrest c rfl]
  | cons c digits ih =>
    obtain ⟨hc, hds⟩ := forall_mem_cons.1 hdigs
    have hlen : exponent + radixLog2 * (c :: digits).length =
        exponent + radixLog2 + radixLog2 * digits.length := by
      rw [length_cons]
      ring
    rw [cons_append, dropDigits, if_pos hc, hlen, all_cons, ← Bool.and_assoc]
    by_cases hstep : exponent + radixLog2 ≤ maxInt
    · rw [if_pos hstep, ih _ hstep hds]
    · rw [if_neg hstep, if_neg (by omega)]

theorem overflowBits_spec : ∀ overflow < 32, overflow ≠ 0 →
    1 ≤ overflowBits overflow overflow 1 ∧ overflowBits overflow overflow 1 ≤ 5 ∧
      2 ^ overflowBits overflow overflow 1 ≤ 2 * overflow ∧ overflow < 2 ^ overflowBits overflow overflow 1 := by
  decide

/-! ## The rounding -/

/-- The number that is rounded: the bits of the quotient, the dropped bits and the tail. -/
structure Split (n q dropped tail c R : Nat) : Prop where
  bits : 1 ≤ c
  eq : n = q * (2 ^ c * R) + (dropped * R + tail)
  dropped : dropped < 2 ^ c
  tail : tail < R

theorem Split.remainder_lt {n q dropped tail c R : Nat} (h : Split n q dropped tail c R) :
    dropped * R + tail < 2 ^ c * R := by
  have hmul : (dropped + 1) * R ≤ 2 ^ c * R := Nat.mul_le_mul_right R h.dropped
  have htail := h.tail
  rw [Nat.add_mul, Nat.one_mul] at hmul
  omega

/-- The code rounds up just when the remainder is more than half, or half of an odd number. -/
theorem Split.round_eq {n q dropped tail c R : Nat} (h : Split n q dropped tail c R) {zeroTail : Bool}
    (hzero : zeroTail = true ↔ tail = 0) :
    roundNumber q dropped (2 ^ (c - 1)) zeroTail =
      if (2 * q + 1) * (2 ^ c * R) < 2 * n ∨ 2 * n = (2 * q + 1) * (2 ^ c * R) ∧ q % 2 = 1 then q + 1 else q := by
  obtain ⟨hbits, heq, -, htail⟩ := h
  have hpow : 2 ^ c = 2 * 2 ^ (c - 1) := by rw [← Nat.pow_succ', show (c - 1).succ = c by omega]
  have hhalf : (2 * q + 1) * (2 ^ c * R) = 2 * (q * (2 ^ c * R)) + 2 * (2 ^ (c - 1) * R) := by
    rw [hpow]
    ring
  rw [hhalf, heq]
  unfold roundNumber
  rw [Nat.and_one_is_mod]
  rcases Nat.lt_trichotomy dropped (2 ^ (c - 1)) with hlt | heq' | hgt
  · have hmul : (dropped + 1) * R ≤ 2 ^ (c - 1) * R := Nat.mul_le_mul_right R hlt
    rw [Nat.add_mul, Nat.one_mul] at hmul
    rw [if_neg (by omega), if_neg (by omega), if_neg (by omega)]
  · rw [if_neg (by omega), if_pos heq', heq']
    by_cases hup : q % 2 ≠ 0 ∨ zeroTail = false
    · rw [if_pos hup, if_pos]
      rcases Nat.eq_zero_or_pos tail with h0 | hpos
      · have := hzero.2 h0
        have hodd := hup.resolve_right (by simp [this])
        exact .inr ⟨by omega, by omega⟩
      · exact .inl (by omega)
    · rw [if_neg hup, if_neg]
      have h0 : tail = 0 := hzero.1 (by simpa using fun hf => hup (.inr hf))
      omega
  · have hmul : (2 ^ (c - 1) + 1) * R ≤ dropped * R := Nat.mul_le_mul_right R hgt
    rw [Nat.add_mul, Nat.one_mul] at hmul
    rw [if_pos hgt, if_pos (by omega)]

/-! ## What is returned -/

/-- The significand and the exponent. -/
def Parsed.parts : Parsed → Option (Nat × Nat)
  | .junk => none
  | .signedZero _ => some (0, 0)
  | .number _ n exponent => some (n, exponent)

/-- A character that is no space follows, and must not. -/
def JunkFollows (allowTrailingJunk : Bool) (rest : List Nat) : Prop :=
  allowTrailingJunk = false ∧ advanceToNonspace rest ≠ []

instance (allowTrailingJunk : Bool) (rest : List Nat) : Decidable (JunkFollows allowTrailingJunk rest) :=
  inferInstanceAs (Decidable (_ ∧ _))

/-- The number `n` is rounded to the nearest, or what follows makes it junk. -/
def Correct (n : Nat) (junk : Prop) [Decidable junk] (x : Except Fault Parsed) : Prop :=
  ∃ r, x = .ok r ∧ if junk then r = .junk
    else ∃ number exponent, r.parts = some (number, exponent) ∧ number < 2 ^ 53 ∧
      Nearest 53 n ((number * 2 ^ exponent : ℕ) : ℚ)

/-- The exponent of `n`, and of what it is rounded to, is an `int`. -/
def Fits (n : Nat) (junk : Prop) [Decidable junk] : Prop :=
  if junk then n < 2 ^ 53 * 2 ^ maxInt else 2 * n < (2 ^ 54 - 1) * 2 ^ maxInt

theorem finish_eq {number exponent : Nat} (negative : Bool) (hlt : number < 2 ^ 53)
    (hne : exponent = 0 ∨ number ≠ 0) :
    finish negative number exponent = .ok (.number negative number exponent) := if_pos ⟨hlt, hne⟩

theorem and_bit53 {number : Nat} (h : number ≤ 2 ^ 53) : number &&& (1 <<< 53) ≠ 0 ↔ number = 2 ^ 53 := by
  rw [Nat.one_shiftLeft, Nat.and_two_pow]
  rcases Nat.lt_or_eq_of_le h with hlt | rfl
  · rw [Nat.testBit_lt_two_pow hlt]
    simp
    omega
  · rw [Nat.testBit_two_pow_self]
    simp

/-- What is done with a number of more than 53 bits. -/
theorem overflowed_eq {M : Nat} (h53 : 2 ^ 53 ≤ M) (h58 : M < 2 ^ 58)
    (negative allowTrailingJunk : Bool) (hdigs : AllDigits (2 ^ radixLog2) digits)
    (hrest : NoDigit (2 ^ radixLog2) rest) :
    ∃ q E, 2 ^ 52 ≤ q ∧ q < 2 ^ 53 ∧ q * 2 ^ E ≤ value (2 ^ radixLog2) M digits ∧
      value (2 ^ radixLog2) M digits < (q + 1) * 2 ^ E ∧
      overflowed radixLog2 negative allowTrailingJunk (digits ++ rest) M = if E ≤ maxInt then
          if JunkFollows allowTrailingJunk rest then .ok .junk
          else
            let number := roundEven (value (2 ^ radixLog2) M digits) q E
            if number = 2 ^ 53 then
              if E + 1 ≤ maxInt then .ok (.number negative (2 ^ 52) (E + 1)) else .error .overflow
            else .ok (.number negative number E)
        else .error .overflow := by
  obtain ⟨c, hc⟩ : ∃ c, c = overflowBits (M >>> 53) (M >>> 53) 1 := ⟨_, rfl⟩
  have hover : M >>> 53 = M / 2 ^ 53 := Nat.shiftRight_eq_div_pow M 53
  obtain ⟨hc1, hc5, hlow, hhigh⟩ := overflowBits_spec (M >>> 53) (by omega) (by omega)
  rw [← hc] at hc1 hc5 hlow hhigh
  rw [hover] at hlow hhigh
  have hR : (2 ^ radixLog2) ^ digits.length = 2 ^ (radixLog2 * digits.length) := (Nat.pow_mul 2 _ _).symm
  have hE : 2 ^ (c + radixLog2 * digits.length) = 2 ^ c * 2 ^ (radixLog2 * digits.length) := pow_add 2 _ _
  have hsplit : Split (value (2 ^ radixLog2) M digits) (M / 2 ^ c) (M % 2 ^ c) (value (2 ^ radixLog2) 0 digits) c
      (2 ^ (radixLog2 * digits.length)) := by
    refine ⟨hc1, ?_, Nat.mod_lt _ (Nat.two_pow_pos c), hR ▸ value_lt hdigs⟩
    rw [value_split, hR]
    conv_lhs => rw [← Nat.div_add_mod M (2 ^ c)]
    ring
  have hq : 2 ^ 52 ≤ M / 2 ^ c ∧ M / 2 ^ c < 2 ^ 53 := by
    constructor
    · rw [Nat.le_div_iff_mul_le (Nat.two_pow_pos c)]
      omega
    · rw [Nat.div_lt_iff_lt_mul (Nat.two_pow_pos c)]
      omega
  have hremainder := hsplit.remainder_lt
  rw [← hE] at hremainder
  refine ⟨M / 2 ^ c, c + radixLog2 * digits.length, hq.1, hq.2, ?_, ?_, ?_⟩
  · rw [hsplit.eq, hE]
    omega
  · rw [hsplit.eq, hE, add_mul, one_mul, ← hE]
    omega
  · have hmask : M % 2 ^ 32 &&& (1 <<< c - 1) = M % 2 ^ c := by
      rw [Nat.one_shiftLeft, Nat.and_two_pow_sub_one_eq_mod, Nat.mod_mod_of_dvd _ (Nat.pow_dvd_pow 2 (by omega))]
    have hzero : (digits.all fun d => decide (d = 48)) = true ↔ value (2 ^ radixLog2) 0 digits = 0 := by
      rw [value_eq_zero (Nat.two_pow_pos radixLog2) hdigs]
      simp
    have hround : roundNumber _ _ _ _ = roundEven _ _ (c + radixLog2 * digits.length) :=
      (hsplit.round_eq hzero).trans (by rw [roundEven, hE])
    have hmax : 5 ≤ maxInt := by decide
    dsimp only [overflowed]
    rw [← hc, hmask, Nat.shiftRight_eq_div_pow M c, dropDigits_eq true (by omega) hdigs hrest, Bool.true_and,
      Nat.one_shiftLeft]
    by_cases hexp : c + radixLog2 * digits.length ≤ maxInt
    · rw [if_pos hexp, if_pos hexp]
      show (if _ then _ else _) = _
      by_cases hjunk : JunkFollows allowTrailingJunk rest
      · rw [if_pos hjunk]
        exact if_pos hjunk
      · rw [if_neg hjunk]
        refine (if_neg hjunk).trans ?_
        rw [hround]
        dsimp only
        have hcases := roundEven_cases (value (2 ^ radixLog2) M digits) (M / 2 ^ c) (c + radixLog2 * digits.length)
        generalize roundEven _ _ _ = number at hcases
        have hle : number ≤ 2 ^ 53 ∧ number ≠ 0 := by omega
        by_cases hfull : number = 2 ^ 53
        · rw [if_pos ((and_bit53 hle.1).2 hfull), if_pos hfull, hfull]
          by_cases hexp' : c + radixLog2 * digits.length + 1 ≤ maxInt
          · rw [if_pos hexp', if_pos hexp']
            exact finish_eq negative (by decide) (.inr (by decide))
          · rw [if_neg hexp', if_neg hexp']
        · rw [if_neg (mt (and_bit53 hle.1).1 hfull), if_neg hfull]
          exact finish_eq negative (by omega) (.inr hle.2)
    · rw [if_neg hexp, if_neg hexp]
      rfl

/-- The number that is rounded has an exponent of at most `m` just where it is below half a unit. -/
theorem rounded_fits {n q E m : Nat} (hq : 2 ^ 52 ≤ q) (hq' : q < 2 ^ 53) (hlow : q * 2 ^ E ≤ n)
    (hhigh : n < (q + 1) * 2 ^ E) :
    2 * n < (2 ^ 54 - 1) * 2 ^ m ↔ E ≤ m ∧ (roundEven n q E = 2 ^ 53 → E + 1 ≤ m) := by
  have hpow : ∀ {a b : Nat}, a ≤ b → 2 ^ a ≤ 2 ^ b := fun h => Nat.pow_le_pow_right (by decide) h
  rcases Nat.lt_trichotomy E m with hlt | rfl | hgt
  · have htwo : 2 ^ (E + 1) ≤ 2 ^ m := hpow hlt
    have hle : (q + 1) * 2 ^ E ≤ 2 ^ 53 * 2 ^ E := Nat.mul_le_mul_right _ hq'
    rw [Nat.pow_succ] at htwo
    exact ⟨fun _ => ⟨hlt.le, fun _ => hlt⟩, fun _ => by omega⟩
  · have hfull : roundEven n q E = 2 ^ 53 ↔ q + 1 = 2 ^ 53 ∧ (2 ^ 54 - 1) * 2 ^ E ≤ 2 * n := by
      unfold roundEven
      by_cases hq1 : q + 1 = 2 ^ 53
      · have hodd : q % 2 = 1 := by omega
        rw [show 2 * q + 1 = 2 ^ 54 - 1 by omega]
        split
        · rename_i hup
          exact iff_of_true hq1 ⟨hq1, hup.elim Nat.le_of_lt fun h => Nat.le_of_eq h.1.symm⟩
        · rename_i hdown
          refine iff_of_false (by omega) fun h => hdown ?_
          exact (Nat.lt_or_eq_of_le h.2).imp_right fun h => ⟨h.symm, hodd⟩
      · refine iff_of_false (fun h => ?_) fun h => hq1 h.1
        split at h
        · exact hq1 h
        · omega
    have hle : q + 1 ≠ 2 ^ 53 → (q + 1) * 2 ^ E ≤ (2 ^ 53 - 1) * 2 ^ E :=
      fun h => Nat.mul_le_mul_right _ (by omega)
    have hpos := Nat.two_pow_pos E
    rw [hfull]
    constructor
    · exact fun h => ⟨Nat.le_refl _, fun h' => by omega⟩
    · rintro ⟨-, h⟩
      by_cases hq1 : q + 1 = 2 ^ 53
      · by_contra hge
        exact absurd (h ⟨hq1, by omega⟩) (by omega)
      · have := hle hq1
        omega
  · have htwo : 2 ^ (m + 1) ≤ 2 ^ E := hpow hgt
    have hle : 2 ^ 52 * 2 ^ E ≤ q * 2 ^ E := Nat.mul_le_mul_right _ hq
    rw [Nat.pow_succ] at htwo
    exact ⟨fun _ => by omega, fun h => by omega⟩

theorem overflowed_correct {M : Nat} (h53 : 2 ^ 53 ≤ M) (h58 : M < 2 ^ 58)
    (negative allowTrailingJunk : Bool) (hdigs : AllDigits (2 ^ radixLog2) digits)
    (hrest : NoDigit (2 ^ radixLog2) rest) :
    Correct (value (2 ^ radixLog2) M digits) (JunkFollows allowTrailingJunk rest)
        (overflowed radixLog2 negative allowTrailingJunk (digits ++ rest) M) ↔
      Fits (value (2 ^ radixLog2) M digits) (JunkFollows allowTrailingJunk rest) := by
  obtain ⟨q, E, hq, hq', hlow, hhigh, hrun⟩ := overflowed_eq h53 h58 negative allowTrailingJunk hdigs hrest
  rw [hrun]
  generalize value (2 ^ radixLog2) M digits = n at hlow hhigh ⊢
  have hnearest := nearest_roundEven (p := 53) (by decide) (by omega) hq' hlow hhigh
  have hfits := rounded_fits (m := maxInt) hq hq' hlow hhigh
  have hcases := roundEven_cases n q E
  unfold Correct Fits
  generalize maxInt = m at hfits ⊢
  by_cases hjunk : JunkFollows allowTrailingJunk rest
  · simp only [if_pos hjunk]
    by_cases hexp : E ≤ m
    · rw [if_pos hexp]
      have hle : (q + 1) * 2 ^ E ≤ 2 ^ 53 * 2 ^ m :=
        Nat.mul_le_mul hq' (Nat.pow_le_pow_right (by decide) hexp)
      exact ⟨fun _ => by omega, fun _ => ⟨.junk, rfl, rfl⟩⟩
    · have htwo : 2 ^ (m + 1) ≤ 2 ^ E := Nat.pow_le_pow_right (by decide) (by omega)
      have hle : 2 ^ 52 * 2 ^ E ≤ q * 2 ^ E := Nat.mul_le_mul_right _ hq
      rw [Nat.pow_succ] at htwo
      rw [if_neg hexp]
      exact ⟨fun ⟨r, hr, _⟩ => (nomatch hr), fun _ => by omega⟩
  · simp only [if_neg hjunk]
    rw [hfits]
    constructor
    · rintro ⟨r, hr, -⟩
      by_cases hexp : E ≤ m
      · rw [if_pos hexp] at hr
        refine ⟨hexp, fun hfull => ?_⟩
        by_contra hexp'
        rw [if_pos hfull, if_neg hexp'] at hr
        nomatch hr
      · rw [if_neg hexp] at hr
        nomatch hr
    · rintro ⟨hexp, hexp'⟩
      rw [if_pos hexp]
      by_cases hfull : roundEven n q E = 2 ^ 53
      · rw [if_pos hfull, if_pos (hexp' hfull)]
        refine ⟨_, rfl, 2 ^ 52, E + 1, rfl, by decide, ?_⟩
        rwa [hfull, show 2 ^ 53 * 2 ^ E = 2 ^ 52 * 2 ^ (E + 1) by rw [Nat.pow_succ]; omega] at hnearest
      · rw [if_neg hfull]
        exact ⟨_, rfl, _, E, rfl, by omega, hnearest⟩

/-! ## The digits that are read -/

theorem Nearest.zero : Nearest 53 ((0 : ℕ) : ℚ) ((0 * 2 ^ 0 : ℕ) : ℚ) :=
  nearest_self ⟨0, 0, by decide, by simp⟩

/-- A number of at most 53 bits is kept as it is. -/
theorem number_correct {n : Nat} (hn : n < 2 ^ 53) {junk : Prop} [Decidable junk] {x : Except Fault Parsed}
    (negative : Bool) (hx : x = if junk then .ok .junk else .ok (.number negative n 0)) :
    Correct n junk x ↔ Fits n junk := by
  have hpos := Nat.two_pow_pos maxInt
  unfold Correct Fits
  generalize 2 ^ maxInt = m at hpos ⊢
  rw [hx]
  by_cases hjunk : junk
  · simp only [if_pos hjunk]
    exact ⟨fun _ => by omega, fun _ => ⟨_, rfl, rfl⟩⟩
  · simp only [if_neg hjunk]
    refine ⟨fun _ => by omega, fun _ => ⟨_, rfl, n, 0, rfl, hn, ?_⟩⟩
    rw [pow_zero, mul_one]
    exact nearest_self ⟨n, 0, hn, by simp⟩

theorem readDigits_correct (hr : radixLog2 ≤ 5) {number : Nat} (hn : number < 2 ^ 53)
    (negative allowTrailingJunk : Bool) (hdigs : AllDigits (2 ^ radixLog2) digits)
    (hrest : NoDigit (2 ^ radixLog2) rest) :
    Correct (value (2 ^ radixLog2) number digits) (JunkFollows allowTrailingJunk rest)
        (readDigits radixLog2 negative allowTrailingJunk (digits ++ rest) number) ↔
      Fits (value (2 ^ radixLog2) number digits) (JunkFollows allowTrailingJunk rest) := by
  induction digits generalizing number with
  | nil =>
    refine number_correct hn negative ?_
    rw [nil_append]
    have hfin := finish_eq negative hn (.inl rfl)
    cases rest with
    | nil =>
      rw [if_neg (fun h : JunkFollows _ _ => h.2 rfl)]
      exact hfin
    | cons c cs =>
      have hnone : readDigit (2 ^ radixLog2) c = none := by
        rw [← Option.not_isSome_iff_eq_none, ← isDigit_iff, hrest c rfl]
        exact Bool.false_ne_true
      have hnot : ¬(allowTrailingJunk = true ∨ advanceToNonspace (c :: cs) = []) ↔
          JunkFollows allowTrailingJunk (c :: cs) := by
        rw [not_or, Bool.not_eq_true]
        rfl
      simp only [readDigits, hnone]
      by_cases hjunk : JunkFollows allowTrailingJunk (c :: cs)
      · rw [if_pos hjunk, if_neg (hnot.2 hjunk)]
      · rw [if_neg hjunk, if_pos (by_contra fun h => hjunk (hnot.1 h)), hfin]
  | cons c digits ih =>
    obtain ⟨hc, hds⟩ := forall_mem_cons.1 hdigs
    obtain ⟨digit, hdigit⟩ := Option.isSome_iff_exists.1 (isDigit_iff.1 hc)
    have hlt := readDigit_lt hdigit
    have hpow : 2 ^ radixLog2 ≤ 2 ^ 5 := Nat.pow_le_pow_right (by decide) hr
    have hnext : number * 2 ^ radixLog2 + digit < 2 ^ 58 := by
      have hmul : (number + 1) * 2 ^ radixLog2 ≤ 2 ^ 53 * 2 ^ 5 := Nat.mul_le_mul hn hpow
      rw [add_mul, one_mul] at hmul
      omega
    rw [value_cons number digits hdigit, cons_append]
    simp only [readDigits, hdigit]
    by_cases hover : (number * 2 ^ radixLog2 + digit) >>> 53 = 0
    · rw [if_neg (not_not.2 hover)]
      refine ih ?_ hds
      rw [Nat.shiftRight_eq_div_pow] at hover
      omega
    · rw [if_pos hover]
      refine overflowed_correct ?_ hnext negative allowTrailingJunk hds hrest
      rw [Nat.shiftRight_eq_div_pow] at hover
      omega

theorem skipZeros_correct (hr : radixLog2 ≤ 5) (negative allowTrailingJunk : Bool)
    (hdigs : AllDigits (2 ^ radixLog2) digits) (hrest : NoDigit (2 ^ radixLog2) rest) :
    Correct (value (2 ^ radixLog2) 0 digits) (JunkFollows allowTrailingJunk rest)
        (skipZeros radixLog2 negative allowTrailingJunk (digits ++ rest)) ↔
      Fits (value (2 ^ radixLog2) 0 digits) (JunkFollows allowTrailingJunk rest) := by
  have hpos := Nat.two_pow_pos radixLog2
  have hzero : isDigit 48 (2 ^ radixLog2) = true := by
    rw [isDigit_iff, readDigit, if_pos (by omega)]
    rfl
  induction digits with
  | nil =>
    cases rest with
    | nil =>
      have hjunk : ¬JunkFollows allowTrailingJunk [] := fun h => h.2 rfl
      have htwo := Nat.two_pow_pos maxInt
      unfold Correct Fits
      simp only [if_neg hjunk]
      refine iff_of_true ⟨_, rfl, 0, 0, rfl, by decide, Nearest.zero⟩ ?_
      exact Nat.mul_pos (by decide) htwo
    | cons c cs =>
      have hc : c ≠ 48 := by
        rintro rfl
        exact absurd (hrest 48 rfl) (by simp [hzero])
      rw [nil_append, skipZeros, if_neg hc]
      exact readDigits_correct hr (by decide) negative allowTrailingJunk hdigs hrest
  | cons c digits ih =>
    by_cases hc : c = 48
    · have hdigit : readDigit (2 ^ radixLog2) c = some 0 := by
        rw [hc, readDigit, if_pos (by omega)]
      rw [cons_append, skipZeros, if_pos hc, value_cons 0 digits hdigit, zero_mul]
      exact ih (forall_mem_cons.1 hdigs).2
    · rw [cons_append, skipZeros, if_neg hc, ← cons_append]
      exact readDigits_correct hr (by decide) negative allowTrailingJunk hdigs hrest

/-- The digits are rounded correctly just where the exponent of their number is an `int`. -/
theorem internalStringToIntDouble_correct (radixLog2 : Nat) (hr : 1 ≤ radixLog2 ∧ radixLog2 ≤ 5)
    (digits rest : List Nat) (hne : digits ≠ []) (hdigits : AllDigits (2 ^ radixLog2) digits)
    (hrest : NoDigit (2 ^ radixLog2) rest) (negative allowTrailingJunk : Bool) :
    Correct (value (2 ^ radixLog2) 0 digits) (JunkFollows allowTrailingJunk rest)
        (internalStringToIntDouble radixLog2 (digits ++ rest) negative allowTrailingJunk) ↔
      Fits (value (2 ^ radixLog2) 0 digits) (JunkFollows allowTrailingJunk rest) := by
  rw [internalStringToIntDouble, if_neg (by simp [hne])]
  exact skipZeros_correct hr.2 negative allowTrailingJunk hdigits hrest

/-- `parseInt("1f ", 16)`, of which the last character is a space. -/
theorem internalStringToIntDouble_correct_hex :
    Correct (value 16 0 [49, 102]) (JunkFollows false [32]) (internalStringToIntDouble 4 [49, 102, 32] false false) ↔
      Fits (value 16 0 [49, 102]) (JunkFollows false [32]) :=
  internalStringToIntDouble_correct 4 (by decide) [49, 102] [32] (by decide) (by decide) (by decide) false false

/-! ## An exponent that is no `int` -/

theorem value_one_zeros (zeros : Nat) : value 16 0 (49 :: replicate zeros 48) = 16 ^ zeros := by
  have hdigs : AllDigits 16 (replicate zeros 48) := fun c hc => by
    rw [eq_of_mem_replicate hc]
    decide
  have hzero := (value_eq_zero (by decide) hdigs).2 fun c hc => eq_of_mem_replicate hc
  rw [value_cons 0 _ (show readDigit 16 49 = some 1 by decide), value_split, hzero, length_replicate,
    zero_mul, zero_add, one_mul, add_zero]

theorem not_fits_of_eq {zeros m : Nat} (h : 4 * zeros = m + 53) : ¬2 * 16 ^ zeros < (2 ^ 54 - 1) * 2 ^ m := by
  have hpow : 16 ^ zeros = 2 ^ 53 * 2 ^ m := by
    rw [show 16 = 2 ^ 4 by decide, ← Nat.pow_mul, h, pow_add, mul_comm]
  rw [hpow]
  have hpos := Nat.two_pow_pos m
  omega

/-- A one and more than `2 ^ 29` hexadecimal zeros: `exponent += radix_log_2` leaves its `int`. -/
theorem internalStringToIntDouble_overflows :
    ¬Correct (value 16 0 (49 :: replicate (2 ^ 29 + 13) 48)) (JunkFollows false [])
      (internalStringToIntDouble 4 (49 :: replicate (2 ^ 29 + 13) 48 ++ []) false false) := by
  have hzeros : 4 * (2 ^ 29 + 13) = maxInt + 53 := by decide
  generalize 2 ^ 29 + 13 = zeros at hzeros ⊢
  have hdigits : AllDigits (2 ^ 4) (49 :: replicate zeros 48) := by
    rw [AllDigits, forall_mem_cons]
    refine ⟨by decide, fun c hc => ?_⟩
    rw [eq_of_mem_replicate hc]
    decide
  have hjunk : ¬JunkFollows false [] := fun h => h.2 rfl
  rw [internalStringToIntDouble, if_neg (by simp)]
  have hcorrect := skipZeros_correct (by decide) false false hdigits (show NoDigit (2 ^ 4) [] by simp [NoDigit])
  refine mt hcorrect.1 ?_
  rw [Fits, if_neg hjunk]
  have hvalue : value (2 ^ 4) 0 (49 :: replicate zeros 48) = 16 ^ zeros := value_one_zeros zeros
  rw [hvalue]
  exact not_fits_of_eq hzeros

end W16.IntDouble
