import W16.BignumProduct
import Mathlib.Data.List.Basic

/-!
# Decimal and hexadecimal strings

A string is read nineteen decimal digits at a time, or seven hexadecimal ones from its end.
-/
namespace W16.Bignum

open Positional Function List

/-! ## The number a string denotes -/

/-- The value of a string of digits in base `base`, most significant first. -/
def readBase (base : Nat) (val : Char → Nat) (s : List Char) : Nat :=
  s.foldl (fun acc c => acc * base + val c) 0

section ReadBase

variable {base : Nat} {val : Char → Nat} {s t : List Char}

theorem foldl_readBase (base : Nat) (val : Char → Nat) (s : List Char) (acc : Nat) :
    s.foldl (fun acc c => acc * base + val c) acc = acc * base ^ s.length + readBase base val s := by
  induction s generalizing acc with
  | nil => simp [readBase]
  | cons c s ih =>
    unfold readBase
    rw [foldl_cons, foldl_cons, ih, ih (0 * base + val c), length_cons, pow_succ]
    ring

theorem readBase_append (base : Nat) (val : Char → Nat) (s t : List Char) :
    readBase base val (s ++ t) = readBase base val s * base ^ t.length + readBase base val t := by
  unfold readBase
  rw [foldl_append]
  exact foldl_readBase base val t _

theorem readBase_cons (base : Nat) (val : Char → Nat) (c : Char) (s : List Char) :
    readBase base val (c :: s) = val c * base ^ s.length + readBase base val s := by
  have := readBase_append base val [c] s
  simpa [readBase] using this

theorem readBase_lt (h : ∀ c ∈ s, val c < base) : readBase base val s < base ^ s.length := by
  induction s with
  | nil => simp [readBase]
  | cons c s ih =>
    have hc := h c (by simp)
    have hs := ih fun d hd => h d (by simp [hd])
    have hmul : (val c + 1) * base ^ s.length ≤ base * base ^ s.length := Nat.mul_le_mul_right _ hc
    rw [readBase_cons, length_cons, pow_succ, mul_comm]
    linarith

theorem readBase_take_add (base : Nat) (val : Char → Nat) (s : List Char) {m n : Nat} (h : m + n ≤ s.length) :
    readBase base val (s.take (m + n)) =
      readBase base val (s.take m) * base ^ n + readBase base val ((s.drop m).take n) := by
  have hlen : ((s.drop m).take n).length = n := by
    rw [length_take, length_drop]
    omega
  rw [take_add, readBase_append, hlen]

/-- A prefix followed by zeros is no larger than the whole. -/
theorem readBase_take_le (base : Nat) (val : Char → Nat) (s : List Char) {m n : Nat} (hb : 0 < base)
    (h : m + n ≤ s.length) :
    readBase base val (s.take m) * base ^ n ≤ readBase base val s := by
  have hsplit := readBase_append base val (s.take m) (s.drop m)
  rw [take_append_drop] at hsplit
  have hpow : base ^ n ≤ base ^ (s.drop m).length :=
    Nat.pow_le_pow_right hb (by rw [length_drop]; omega)
  have := Nat.mul_le_mul_left (readBase base val (s.take m)) hpow
  omega

end ReadBase

/-! ## Decimal -/

def decimalValue (s : List Char) : Nat := readBase 10 digit s

def IsDecimal (s : List Char) : Prop := ∀ c ∈ s, '0' ≤ c ∧ c ≤ '9'

instance (s : List Char) : Decidable (IsDecimal s) :=
  inferInstanceAs (Decidable (∀ c ∈ s, '0' ≤ c ∧ c ≤ '9'))

theorem digit_lt {c : Char} (h : '0' ≤ c ∧ c ≤ '9') : digit c < 10 := by
  have h2 : c.toNat ≤ '9'.toNat := h.2
  have e0 : '0'.toNat = 48 := rfl
  have e9 : '9'.toNat = 57 := rfl
  unfold digit
  omega

theorem foldl_doubleChunk (s : List Char) {acc : Nat} (h : acc * 10 ^ s.length + decimalValue s < 2 ^ 64) :
    s.foldl (fun result c => doubleChunk (result * 10 + digit c)) acc =
      acc * 10 ^ s.length + decimalValue s := by
  induction s generalizing acc with
  | nil => simp [decimalValue, readBase]
  | cons c s ih =>
    unfold decimalValue at *
    rw [readBase_cons, length_cons, pow_succ] at h
    have hpos : 1 ≤ 10 ^ s.length := Nat.one_le_pow _ _ (by decide)
    have hval : (acc * 10 + digit c) * 10 ^ s.length =
        acc * (10 ^ s.length * 10) + digit c * 10 ^ s.length := by ring
    have hfit : acc * 10 + digit c < 2 ^ 64 := by
      have := Nat.le_mul_of_pos_right (acc * 10 + digit c) hpos
      omega
    rw [foldl_cons, doubleChunk_eq hfit, ih (by omega), hval, readBase_cons, length_cons, pow_succ]
    omega

variable {s : List Char} {b : Bignum}

theorem readUInt64_eq (hs : IsDecimal s) (pos : Nat) {n : Nat} (hn : n ≤ 19) :
    readUInt64 s pos n = decimalValue ((s.drop pos).take n) ∧ readUInt64 s pos n < 2 ^ 64 := by
  have hlt : decimalValue ((s.drop pos).take n) < 10 ^ 19 := by
    refine lt_of_lt_of_le (readBase_lt fun c hc => digit_lt (hs c ?_)) ?_
    · grind
    · exact Nat.pow_le_pow_right (by decide) (by rw [length_take]; omega)
  have := @foldl_doubleChunk ((s.drop pos).take n) 0 (by omega)
  unfold readUInt64
  omega

/-- One chunk of digits: the number read so far is shifted and the chunk is added. -/
theorem decimalChunk_meets (hs : IsDecimal s) (h : b.Valid) {pos n : Nat}
    (hn : n ≤ 19) (hlen : pos + n ≤ s.length) (hv : b.value = decimalValue (s.take pos)) :
    Meets (multiplyByPowerOfTen b n >>= fun b => addUInt64 b (readUInt64 s pos n))
      (fun r => r.Valid ∧ r.value = decimalValue (s.take (pos + n)))
      (Refused (radix ^ 127 ≤ decimalValue s)) := by
  obtain ⟨hread, h64⟩ := readUInt64_eq hs pos hn
  have hle : b.value * 10 ^ n ≤ decimalValue s := by
    rw [hv]
    exact readBase_take_le 10 digit s (by decide) hlen
  refine (multiplyByPowerOfTen_meets h n).bind (Refused.mono ?_) ?_
  · rintro (hcap | hexp)
    · refine le_trans hcap (le_trans (Nat.mul_le_mul ?_ ?_) hle)
      · rw [value_eq]
        exact Nat.le_mul_of_pos_right _ (by positivity)
      · exact Nat.pow_le_pow_left (by decide) n
    · have hu : b.used ≠ 0 := fun hu => by
        have := h.zero hu
        omega
      refine le_trans (le_trans ?_ (le_value h hu)) (le_trans (Nat.le_mul_of_pos_right _ (by positivity)) hle)
      exact Nat.pow_le_pow_right (by decide) (by omega)
  rintro c ⟨hc, hcv, -⟩
  refine (addUInt64_meets hc h64).mono ?_ (Refused.mono fun hcap => ?_)
  · rintro r ⟨hr, hrv⟩
    refine ⟨hr, ?_⟩
    rw [hrv, hcv, hv, hread]
    exact (readBase_take_add 10 digit s hlen).symm
  · have hu : c.used ≠ 0 := fun hu => by
      have := hc.zero hu
      omega
    refine le_trans (le_trans ?_ (le_value hc hu)) (hcv ▸ hle)
    exact Nat.pow_le_pow_right (by decide) (by omega)

theorem decimalLoop_meets (hs : IsDecimal s) (fuel : Nat)
    {pos length : Nat} (h : b.Valid) (hfuel : length ≤ fuel) (hlen : pos + length = s.length)
    (hv : b.value = decimalValue (s.take pos)) :
    Meets (decimalLoop s fuel b pos length)
      (fun r => r.1.Valid ∧ r.1.value = decimalValue (s.take r.2.1) ∧ r.2.1 + r.2.2 = s.length ∧ r.2.2 < 19)
      (Refused (radix ^ 127 ≤ decimalValue s)) := by
  induction fuel generalizing b pos length with
  | zero => exact ⟨h, hv, hlen, by simp only; omega⟩
  | succ fuel ih =>
    unfold decimalLoop kMaxUint64DecimalDigits
    by_cases hge : length ≥ 19
    · rw [if_pos hge]
      have hchunk := decimalChunk_meets hs h (n := 19) (le_refl _) (show pos + 19 ≤ s.length by omega) hv
      have hnext := hchunk.bind (f := fun b => decimalLoop s fuel b (pos + 19) (length - 19)) (fun _ he => he)
        fun c hc => ih hc.1 (by omega) (by omega) hc.2
      simpa [bind_assoc] using hnext
    · rw [if_neg hge]
      exact ⟨h, hv, hlen, by simp only; omega⟩

theorem assignDecimalString_meets (h : b.Valid) (hs : IsDecimal s) :
    Meets (assignDecimalString b s) (fun r => r.Valid ∧ r.value = decimalValue s)
      (Refused (radix ^ 127 ≤ decimalValue s)) := by
  refine (decimalLoop_meets hs s.length (zero_valid h) (le_refl _) (zero_add _)
    (by simp [zero_value, decimalValue, readBase])).bind (fun _ he => he) ?_
  rintro ⟨c, pos, length⟩ ⟨hc, hcv, hlen, hlt⟩
  simp only at hc hcv hlen hlt ⊢
  have hchunk := decimalChunk_meets hs hc (show length ≤ 19 by omega) (le_of_eq hlen) hcv
  rw [hlen, take_length] at hchunk
  have hnext := hchunk.bind (f := fun b => pure (clamp b))
    (Q := fun r : Bignum => r.Valid ∧ r.value = decimalValue s) (fun _ he => he)
    fun d hd => Meets.pure ⟨clamp_valid hd.1.loose, (clamp_value hd.1.loose).trans hd.2⟩
  simpa [bind_assoc] using hnext

/-! ## Hexadecimal -/

def hexValue (s : List Char) : Nat := readBase 16 hexCharValue s

theorem hexCharValue_lt (c : Char) : hexCharValue c < 16 := by
  have e0 : '0'.toNat = 48 := rfl
  have ea : 'a'.toNat = 97 := rfl
  have eA : 'A'.toNat = 65 := rfl
  unfold hexCharValue
  split_ifs with h1 h2 h3
  · have h9 : c.toNat ≤ 57 := h1.2
    omega
  · have hf : c.toNat ≤ 102 := h2.2
    omega
  · have hF : c.toNat ≤ 70 := h3.2
    omega
  · omega

theorem hexValue_lt (s : List Char) : hexValue s < 16 ^ s.length :=
  readBase_lt fun c _ => hexCharValue_lt c

/-- A bigit made of the characters that end at `last`. -/
theorem hexBigit_eq (s : List Char) {last j : Nat} (hj : j ≤ 7) (hlast : j ≤ last + 1)
    (hlen : last < s.length) :
    hexBigit s last j = hexValue ((s.drop (last + 1 - j)).take j) := by
  induction j with
  | zero => simp [hexBigit, hexValue, readBase]
  | succ j ih =>
    have hget : last - j < s.length := by omega
    have hseg : (s.drop (last + 1 - (j + 1))).take (j + 1) = s[last - j] :: (s.drop (last + 1 - j)).take j := by
      rw [show last + 1 - (j + 1) = last - j by omega, drop_eq_getElem_cons hget, take_succ_cons,
        show last - j + 1 = last + 1 - j by omega]
    have hseglen : ((s.drop (last + 1 - j)).take j).length = j := by
      grind
    have hval : hexValue ((s.drop (last + 1 - (j + 1))).take (j + 1)) =
        hexCharValue s[last - j] * 16 ^ j + hexValue ((s.drop (last + 1 - j)).take j) := by
      rw [hseg]
      unfold hexValue
      rw [readBase_cons, hseglen]
    have hfit : hexValue ((s.drop (last + 1 - (j + 1))).take (j + 1)) < 2 ^ 32 := by
      refine lt_of_lt_of_le (hexValue_lt _) (le_trans (Nat.pow_le_pow_right (by decide) ?_)
        (show 16 ^ 7 ≤ 2 ^ 32 by decide))
      rw [length_take]
      omega
    have h16 : 2 ^ (j * 4) = 16 ^ j := by rw [show 16 = 2 ^ 4 from rfl, ← pow_mul, mul_comm]
    have hgetD : s.getD (last - j) '0' = s[last - j] := by
      grind
    rw [hexBigit, ih (by omega) (by omega), hgetD, h16, add_comm, ← hval, chunk_eq hfit]

theorem hexLoop_spec {bs : Nat → Nat} (hbs : ∀ j, bs j = 0) (s : List Char) (i : Nat) (hi : i * 7 ≤ s.length) :
    (∀ j, hexLoop bs s i j < radix) ∧ (∀ j, i ≤ j → hexLoop bs s i j = 0) ∧
      ofLimbs radix (hexLoop bs s i) i = hexValue (s.drop (s.length - i * 7)) := by
  induction i with
  | zero =>
    refine ⟨fun j => ?_, fun j _ => hbs j, by simp [hexValue, readBase]⟩
    show bs j < radix
    rw [hbs j]
    exact Nat.two_pow_pos 28
  | succ i ih =>
    obtain ⟨h1, h2, h3⟩ := ih (by omega)
    have hbigit : hexBigit s (s.length - 1 - i * 7) 7 =
        hexValue ((s.drop (s.length - (i + 1) * 7)).take 7) := by
      rw [hexBigit_eq s (le_refl 7) (by omega) (by omega),
        show s.length - 1 - i * 7 + 1 - 7 = s.length - (i + 1) * 7 by omega]
    have hlt : hexBigit s (s.length - 1 - i * 7) 7 < radix := by
      rw [hbigit]
      refine lt_of_lt_of_le (hexValue_lt _) (le_trans (Nat.pow_le_pow_right (by decide) ?_)
        (show 16 ^ 7 ≤ radix by decide))
      rw [length_take]
      omega
    show (∀ j, update (hexLoop bs s i) i _ j < radix) ∧ (∀ j, i + 1 ≤ j → update (hexLoop bs s i) i _ j = 0) ∧
      ofLimbs radix (update (hexLoop bs s i) i (hexBigit s (s.length - 1 - i * 7) 7)) (i + 1) = _
    refine ⟨update_lt h1 hlt, fun j hj => ?_, ?_⟩
    · grind
    · have hsplit : s.drop (s.length - (i + 1) * 7) =
          (s.drop (s.length - (i + 1) * 7)).take 7 ++ s.drop (s.length - i * 7) := by
        conv_lhs => rw [← take_append_drop 7 (s.drop (s.length - (i + 1) * 7))]
        rw [drop_drop, show s.length - (i + 1) * 7 + 7 = s.length - i * 7 by omega]
      have hlen : (s.drop (s.length - i * 7)).length = 7 * i := by
        rw [length_drop]
        omega
      rw [ofLimbs_update_succ, h3, hbigit]
      conv_rhs => rw [hsplit]
      unfold hexValue
      rw [readBase_append, hlen, pow_mul, show 16 ^ 7 = radix from by decide]
      omega

theorem foldl_hex (s : List Char) (hs : s.length ≤ 7) :
    s.foldl (fun bigit c => chunk (chunk (bigit * 2 ^ 4) + hexCharValue c)) 0 = hexValue s := by
  have key : ∀ (t : List Char) (acc : Nat), acc * 16 ^ t.length + hexValue t < 2 ^ 32 →
      t.foldl (fun bigit c => chunk (chunk (bigit * 2 ^ 4) + hexCharValue c)) acc =
        acc * 16 ^ t.length + hexValue t := by
    intro t
    induction t with
    | nil => simp [hexValue, readBase]
    | cons c t ih =>
      intro acc hacc
      unfold hexValue at *
      rw [readBase_cons, length_cons, pow_succ] at hacc
      have hpos : 1 ≤ 16 ^ t.length := Nat.one_le_pow _ _ (by decide)
      have hval : (acc * 2 ^ 4 + hexCharValue c) * 16 ^ t.length =
          acc * (16 ^ t.length * 16) + hexCharValue c * 16 ^ t.length := by ring
      have hfit := Nat.le_mul_of_pos_right (acc * 2 ^ 4 + hexCharValue c) hpos
      rw [foldl_cons, chunk_eq (show acc * 2 ^ 4 < 2 ^ 32 by omega), chunk_eq (by omega),
        ih _ (by omega), hval, readBase_cons, length_cons, pow_succ]
      omega
  have h7 : hexValue s < 2 ^ 32 :=
    lt_of_lt_of_le (hexValue_lt s) (le_trans (Nat.pow_le_pow_right (by decide) hs) (by decide))
  have := key s 0 (by omega)
  omega

theorem assignHexString_meets (h : b.Valid) (s : List Char) :
    Meets (assignHexString b s) (fun r => r.Valid ∧ r.value = hexValue s) (Refused (128 * 7 ≤ s.length)) := by
  unfold assignHexString kBigitSize
  refine (int_meets _).bind (Refused.mono fun h' => by omega) ?_
  rintro _ ⟨rfl, -⟩
  obtain ⟨n, hn⟩ : ∃ n, n = s.length * 4 / 28 := ⟨_, rfl⟩
  dsimp only
  rw [← hn, Nat.add_sub_cancel]
  refine (ensureCapacity_meets _).bind (Refused.mono fun h' => by omega) fun _ hcap => ?_
  obtain ⟨h1, h2, h3⟩ := hexLoop_spec (zero_bigits h) s n (by omega)
  have hrest : s.length - n * (28 / 4) = s.length - n * 7 := rfl
  have htop := foldl_hex (s.take (s.length - n * 7)) (by rw [length_take]; omega)
  rw [hrest, htop]
  have hsplit : hexValue s = hexValue (s.take (s.length - n * 7)) * radix ^ n +
      hexValue (s.drop (s.length - n * 7)) := by
    conv_lhs => rw [← take_append_drop (s.length - n * 7) s]
    unfold hexValue
    rw [readBase_append, show (s.drop (s.length - n * 7)).length = 7 * n by
      rw [length_drop]; omega, pow_mul, show 16 ^ 7 = radix from by decide]
  have htoplt : hexValue (s.take (s.length - n * 7)) < radix := by
    refine lt_of_lt_of_le (hexValue_lt _) (le_trans (Nat.pow_le_pow_right (by decide) ?_)
      (show 16 ^ 7 ≤ radix by decide))
    rw [length_take]
    omega
  by_cases hz : hexValue (s.take (s.length - n * 7)) = 0
  · rw [if_pos hz]
    have hloose : Loose ⟨hexLoop (zero b).bigits s n, n, 0⟩ :=
      ⟨h1, h2, show n ≤ 128 by omega, Nat.two_pow_pos 31⟩
    refine Meets.pure ⟨clamp_valid hloose, (clamp_value hloose).trans ?_⟩
    rw [value_eq, hsplit, hz, ← h3]
    simp [mantissa]
  · rw [if_neg hz]
    have hloose : Loose ⟨update (hexLoop (zero b).bigits s n) n
        (hexValue (s.take (s.length - n * 7))), n + 1, 0⟩ := by
      refine ⟨update_lt h1 htoplt, fun i hi => ?_, hcap, Nat.two_pow_pos 31⟩
      have hi' : n + 1 ≤ i := hi
      show update _ n _ i = 0
      grind
    refine Meets.pure ⟨clamp_valid hloose, (clamp_value hloose).trans ?_⟩
    rw [value_eq]
    show ofLimbs radix _ (n + 1) * radix ^ 0 = _
    rw [ofLimbs_update_succ, h3, hsplit, pow_zero, mul_one, add_comm]

end W16.Bignum
