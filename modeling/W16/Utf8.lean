import W16.Octets

/-!
# UTF-8 encoder and decoder

`Utf8::Encode`, `Utf8::ValueOf` and `Utf8::Length`. A decoder is given the bytes from its position
to the end of the input; a read behind them has no result.
-/
namespace W16.Unibrow

open Octets List Option

set_option linter.dupNamespace false

def kBadChar : Nat := 0xFFFD
def kMaxOneByteChar : Nat := 0x7f
def kMaxTwoByteChar : Nat := 0x7ff
def kMaxThreeByteChar : Nat := 0xffff
def kMaxFourByteChar : Nat := 0x1fffff

/-- `~(1 << 6)` -/
def kMask : Nat := 0xFFFFFFBF

/-- The bytes written to `str`; their number is the result. -/
def encode (c : Nat) : List UInt8 :=
  if c ≤ kMaxOneByteChar then [.ofNat c]
  else if c ≤ kMaxTwoByteChar then [.ofNat (0xC0 ||| (c >>> 6)), .ofNat (0x80 ||| (c &&& kMask))]
  else if c ≤ kMaxThreeByteChar then
    [.ofNat (0xE0 ||| (c >>> 12)), .ofNat (0x80 ||| ((c >>> 6) &&& kMask)), .ofNat (0x80 ||| (c &&& kMask))]
  else
    [.ofNat (0xF0 ||| (c >>> 18)), .ofNat (0x80 ||| ((c >>> 12) &&& kMask)),
      .ofNat (0x80 ||| ((c >>> 6) &&& kMask)), .ofNat (0x80 ||| (c &&& kMask))]

/-- `Utf8::Length` -/
def length (c : Nat) : Nat :=
  if c ≤ kMaxOneByteChar then 1
  else if c ≤ kMaxTwoByteChar then 2
  else if c ≤ kMaxThreeByteChar then 3
  else 4

/-- The code point and by how much `cursor` moves. -/
def calculateValue (str : List UInt8) : Option (Nat × Nat) :=
  if str.length = 1 then some (kBadChar, 1) else do
    let first := (← str[0]?).toNat
    let second := (← str[1]?) ^^^ 0x80
    if second &&& 0xC0 ≠ 0 then some (kBadChar, 1)
    else if first < 0xE0 then
      if first < 0xC0 then some (kBadChar, 1) else
        let codePoint := ((first <<< 6) ||| second.toNat) &&& kMaxTwoByteChar
        if codePoint ≤ kMaxOneByteChar then some (kBadChar, 1) else some (codePoint, 2)
    else if str.length = 2 then some (kBadChar, 1) else do
      let third := (← str[2]?) ^^^ 0x80
      if third &&& 0xC0 ≠ 0 then some (kBadChar, 1)
      else if first < 0xF0 then
        let codePoint :=
          ((((first <<< 6) ||| second.toNat) <<< 6) ||| third.toNat) &&& kMaxThreeByteChar
        if codePoint ≤ kMaxTwoByteChar then some (kBadChar, 1) else some (codePoint, 3)
      else if str.length = 3 then some (kBadChar, 1) else do
        let fourth := (← str[3]?) ^^^ 0x80
        if fourth &&& 0xC0 ≠ 0 then some (kBadChar, 1)
        else if first < 0xF8 then
          let codePoint := ((((((first <<< 6) ||| second.toNat) <<< 6) ||| third.toNat) <<< 6)
            ||| fourth.toNat) &&& kMaxFourByteChar
          if codePoint ≤ kMaxThreeByteChar then some (kBadChar, 1) else some (codePoint, 4)
        else some (kBadChar, 1)

def valueOf (bytes : List UInt8) : Option (Nat × Nat) :=
  if bytes.length = 0 then some (kBadChar, 0) else do
    let first ← bytes[0]?
    if first.toNat ≤ kMaxOneByteChar then some (first.toNat, 1) else calculateValue bytes

/-- `ValueOf` again and again up to the end of the bytes, at most `fuel` times. -/
def decode : Nat → List UInt8 → Option (List Nat)
  | 0, _ => none
  | fuel + 1, bytes =>
    if bytes.length = 0 then some [] else do
      let (c, cursor) ← valueOf bytes
      let rest ← decode fuel (bytes.drop cursor)
      return c :: rest

/-- The octets of the bytes. -/
def octets (bytes : List UInt8) : List Nat := bytes.map UInt8.toNat

@[simp] theorem octets_length (bytes : List UInt8) : (octets bytes).length = bytes.length :=
  length_map _

theorem forall_byte {p : UInt8 → Prop} (h : ∀ i : Fin 256, p (.ofNat i)) (b : UInt8) : p b := by
  have hb := h ⟨b.toNat, b.toNat_lt⟩
  rwa [UInt8.ofNat_toNat] at hb

/-- The bits after the tag of a continuation byte. -/
theorem continuation (b : UInt8) : (b ^^^ 0x80) &&& 0xC0 = 0 ↔ 128 ≤ b.toNat ∧ b.toNat < 192 :=
  forall_byte (p := fun b => (b ^^^ 0x80) &&& 0xC0 = 0 ↔ 128 ≤ b.toNat ∧ b.toNat < 192) (by decide +kernel) b

theorem continuation_bits (b : UInt8) : 128 ≤ b.toNat → b.toNat < 192 → (b ^^^ 0x80).toNat = b.toNat - 128 :=
  forall_byte (p := fun b => 128 ≤ b.toNat → b.toNat < 192 → (b ^^^ 0x80).toNat = b.toNat - 128)
    (by decide +kernel) b

theorem shift_or {a b : Nat} (h : b < 64) : (a <<< 6) ||| b = a * 64 + b := by
  rw [← Nat.shiftLeft_add_eq_or_of_lt (i := 6) h, Nat.shiftLeft_eq]

theorem and_kMaxTwoByteChar (n : Nat) : n &&& kMaxTwoByteChar = n % 2048 :=
  Nat.and_two_pow_sub_one_eq_mod n 11

theorem and_kMaxThreeByteChar (n : Nat) : n &&& kMaxThreeByteChar = n % 65536 :=
  Nat.and_two_pow_sub_one_eq_mod n 16

theorem and_kMaxFourByteChar (n : Nat) : n &&& kMaxFourByteChar = n % 2097152 :=
  Nat.and_two_pow_sub_one_eq_mod n 21

/-- The last byte of an encoding holds the low bits of the number. -/
theorem tagged (c : Nat) : (UInt8.ofNat (0x80 ||| (c &&& kMask))).toNat = 128 + c % 64 := by
  have hlow : ∀ i : Fin 256, (0x80 ||| (i.val &&& 0xBF)) = 128 + i.val % 64 := by decide +kernel
  have hmod : (0x80 ||| (c &&& kMask)) % 2 ^ 8 = 0x80 ||| (c % 2 ^ 8 &&& 0xBF) := by
    rw [Nat.or_mod_two_pow, Nat.and_mod_two_pow]
    rfl
  have hc : 0x80 ||| (c % 2 ^ 8 &&& 0xBF) = 128 + c % 2 ^ 8 % 64 :=
    hlow ⟨c % 2 ^ 8, Nat.mod_lt _ (by decide)⟩
  rw [UInt8.toNat_ofNat', hmod, hc]
  omega

/-- A tag above the bits of the number. -/
theorem lead {c tag shift : Nat} (i a : Nat) (htag : tag = 2 ^ i * a) (hc : c / 2 ^ shift < 2 ^ i)
    (hbyte : tag + 2 ^ i ≤ 256) : (UInt8.ofNat (tag ||| (c >>> shift))).toNat = tag + c / 2 ^ shift := by
  have hor : tag ||| (c >>> shift) = tag + c / 2 ^ shift := by
    rw [Nat.shiftRight_eq_div_pow, htag, Nat.two_pow_add_eq_or_of_lt hc]
  rw [UInt8.toNat_ofNat', hor]
  exact Nat.mod_eq_of_lt (by omega)

theorem lead_two {c : Nat} (h : c ≤ kMaxTwoByteChar) :
    (UInt8.ofNat (0xC0 ||| (c >>> 6))).toNat = 192 + c / 64 := by
  have hc : c ≤ 2047 := h
  exact lead 6 3 rfl (by omega) (by decide)

theorem lead_three {c : Nat} (h : c ≤ kMaxThreeByteChar) :
    (UInt8.ofNat (0xE0 ||| (c >>> 12))).toNat = 224 + c / 4096 := by
  have hc : c ≤ 65535 := h
  exact lead 5 7 rfl (by omega) (by decide)

theorem lead_four {c : Nat} (h : c ≤ kMaxFourByteChar) :
    (UInt8.ofNat (0xF0 ||| (c >>> 18))).toNat = 240 + c / 262144 := by
  have hc : c ≤ 2097151 := h
  exact lead 4 15 rfl (by omega) (by decide)

/-- `Encode` writes the shortest form. -/
theorem octets_encode {c : Nat} (h : c ≤ kMaxFourByteChar) : octets (encode c) = form c := by
  have h6 : c >>> 6 = c / 64 := Nat.shiftRight_eq_div_pow c 6
  have h12 : c >>> 12 = c / 4096 := Nat.shiftRight_eq_div_pow c 12
  unfold encode
  split
  case isTrue h1 =>
    have : c ≤ 127 := h1
    rw [form_one (by omega)]
    simp [octets]
    omega
  split
  case isTrue h1 h2 =>
    have : ¬ c ≤ 127 := h1
    have : c ≤ 2047 := h2
    rw [form_two (by omega) (by omega)]
    simp only [octets, map_cons, map_nil, lead_two h2, tagged]
  split
  case isTrue h1 h2 h3 =>
    have : ¬ c ≤ 2047 := h2
    have : c ≤ 65535 := h3
    rw [form_three (by omega) (by omega)]
    simp only [octets, map_cons, map_nil, lead_three h3, tagged, h6]
  case isFalse h1 h2 h3 =>
    have : ¬ c ≤ 65535 := h3
    rw [form_four (by omega)]
    simp only [octets, map_cons, map_nil, lead_four h, tagged, h6, h12]

theorem length_encode (c : Nat) : (encode c).length = length c := by
  grind [encode, length]

/-! ## Decoding one character -/

theorem decoded_two {a b : Nat} (ha : a < 32) (hb : b < 64) :
    (((192 + a) <<< 6) ||| b) &&& kMaxTwoByteChar = a * 64 + b := by
  rw [shift_or hb, and_kMaxTwoByteChar]
  omega

theorem decoded_three {a b c : Nat} (ha : a < 16) (hb : b < 64) (hc : c < 64) :
    (((((224 + a) <<< 6) ||| b) <<< 6) ||| c) &&& kMaxThreeByteChar = (a * 64 + b) * 64 + c := by
  rw [shift_or hc, shift_or hb, and_kMaxThreeByteChar]
  omega

theorem decoded_four {a b c d : Nat} (ha : a < 8) (hb : b < 64) (hc : c < 64) (hd : d < 64) :
    (((((((240 + a) <<< 6) ||| b) <<< 6) ||| c) <<< 6) ||| d) &&& kMaxFourByteChar
      = ((a * 64 + b) * 64 + c) * 64 + d := by
  rw [shift_or hd, shift_or hc, shift_or hb, and_kMaxFourByteChar]
  omega

/-- The decoder gets the number of a shortest form back. -/
theorem valueOf_form {c : Nat} {taken : List UInt8} (hc : c ≤ kMaxFourByteChar)
    (h : octets taken = form c) (rest : List UInt8) :
    valueOf (taken ++ rest) = some (c, taken.length) := by
  have hlimit : c ≤ 2097151 := hc
  have hone : kMaxOneByteChar = 127 := rfl
  have htwo : kMaxTwoByteChar = 2047 := rfl
  have hthree : kMaxThreeByteChar = 65535 := rfl
  by_cases h1 : c < 128
  · rw [form_one h1] at h
    obtain ⟨a, _, rfl, ha, hnil⟩ := map_eq_cons_iff.1 h
    obtain rfl := map_eq_nil_iff.1 hnil
    simp [valueOf, ha, show c ≤ kMaxOneByteChar from Nat.le_of_lt_succ h1]
  by_cases h2 : c < 2048
  · rw [form_two (by omega) h2] at h
    obtain ⟨a, _, rfl, ha, h⟩ := map_eq_cons_iff.1 h
    obtain ⟨b, _, rfl, hb, hnil⟩ := map_eq_cons_iff.1 h
    obtain rfl := map_eq_nil_iff.1 hnil
    have hvalue := @decoded_two (c / 64) (b.toNat - 128) (by omega) (by omega)
    simp only [valueOf, calculateValue, cons_append, nil_append, length_cons,
      getElem?_cons_zero, getElem?_cons_succ, bind_eq_bind, bind_some]
    rw [if_neg (by omega), if_neg (by omega), if_neg (by omega),
      if_neg (not_not.2 ((continuation b).2 (by omega))), if_pos (by omega), if_neg (by omega),
      continuation_bits b (by omega) (by omega), ha, hvalue,
      show c / 64 * 64 + (b.toNat - 128) = c by omega, if_neg (by omega)]
    rfl
  by_cases h3 : c < 65536
  · rw [form_three (by omega) h3] at h
    obtain ⟨a, _, rfl, ha, h⟩ := map_eq_cons_iff.1 h
    obtain ⟨b, _, rfl, hb, h⟩ := map_eq_cons_iff.1 h
    obtain ⟨d, _, rfl, hd, hnil⟩ := map_eq_cons_iff.1 h
    obtain rfl := map_eq_nil_iff.1 hnil
    have hvalue := @decoded_three (c / 4096) (b.toNat - 128) (d.toNat - 128) (by omega) (by omega) (by omega)
    simp only [valueOf, calculateValue, cons_append, nil_append, length_cons,
      getElem?_cons_zero, getElem?_cons_succ, bind_eq_bind, bind_some]
    rw [if_neg (by omega), if_neg (by omega), if_neg (by omega),
      if_neg (not_not.2 ((continuation b).2 (by omega))), if_neg (by omega), if_neg (by omega),
      if_neg (not_not.2 ((continuation d).2 (by omega))), if_pos (by omega),
      continuation_bits b (by omega) (by omega), continuation_bits d (by omega) (by omega), ha,
      hvalue, show (c / 4096 * 64 + (b.toNat - 128)) * 64 + (d.toNat - 128) = c by omega,
      if_neg (by omega)]
    rfl
  · rw [form_four (by omega)] at h
    obtain ⟨a, _, rfl, ha, h⟩ := map_eq_cons_iff.1 h
    obtain ⟨b, _, rfl, hb, h⟩ := map_eq_cons_iff.1 h
    obtain ⟨d, _, rfl, hd, h⟩ := map_eq_cons_iff.1 h
    obtain ⟨e, _, rfl, he, hnil⟩ := map_eq_cons_iff.1 h
    obtain rfl := map_eq_nil_iff.1 hnil
    have hvalue := @decoded_four (c / 262144) (b.toNat - 128) (d.toNat - 128) (e.toNat - 128)
      (by omega) (by omega) (by omega) (by omega)
    simp only [valueOf, calculateValue, cons_append, nil_append, length_cons,
      getElem?_cons_zero, getElem?_cons_succ, bind_eq_bind, bind_some]
    rw [if_neg (by omega), if_neg (by omega), if_neg (by omega),
      if_neg (not_not.2 ((continuation b).2 (by omega))), if_neg (by omega), if_neg (by omega),
      if_neg (not_not.2 ((continuation d).2 (by omega))), if_neg (by omega), if_neg (by omega),
      if_neg (not_not.2 ((continuation e).2 (by omega))), if_pos (by omega),
      continuation_bits b (by omega) (by omega), continuation_bits d (by omega) (by omega),
      continuation_bits e (by omega) (by omega), ha, hvalue,
      show ((c / 262144 * 64 + (b.toNat - 128)) * 64 + (d.toNat - 128)) * 64 + (e.toNat - 128) = c by omega,
      if_neg (by omega)]
    rfl

/-- A code point is only got from its shortest form at the beginning of the bytes. -/
structure Good (bytes : List UInt8) (c n : Nat) : Prop where
  le_max : c ≤ kMaxFourByteChar
  le_length : n ≤ bytes.length
  octets : octets (bytes.take n) = form c

theorem calculateValue_cases (a b : UInt8) (rest : List UInt8) (ha : 128 ≤ a.toNat) :
    calculateValue (a :: b :: rest) = some (kBadChar, 1) ∨
      ∃ c n, calculateValue (a :: b :: rest) = some (c, n) ∧ Good (a :: b :: rest) c n := by
  have hlimit : kMaxFourByteChar = 2097151 := rfl
  have hone : kMaxOneByteChar = 127 := rfl
  have htwo : kMaxTwoByteChar = 2047 := rfl
  have hthree : kMaxThreeByteChar = 65535 := rfl
  unfold calculateValue
  simp only [getElem?_cons_zero, getElem?_cons_succ, bind_eq_bind, bind_some]
  rw [if_neg (by simp)]
  by_cases hb : (b ^^^ 0x80) &&& 0xC0 = 0
  case neg => exact .inl (if_pos hb)
  rw [if_neg (not_not.2 hb)]
  rw [continuation] at hb
  rw [continuation_bits b hb.1 hb.2]
  by_cases hE0 : a.toNat < 0xE0
  · rw [if_pos hE0]
    by_cases hC0 : a.toNat < 0xC0
    · exact .inl (if_pos hC0)
    rw [if_neg hC0]
    have hvalue := @decoded_two (a.toNat - 192) (b.toNat - 128) (by omega) (by omega)
    rw [Nat.add_sub_cancel' (by omega)] at hvalue
    rw [hvalue]
    by_cases hover : (a.toNat - 192) * 64 + (b.toNat - 128) ≤ kMaxOneByteChar
    · exact .inl (if_pos hover)
    refine .inr ⟨_, _, if_neg hover, by omega, by simp, ?_⟩
    rw [form_two (by omega) (by omega)]
    simp only [octets, take_succ_cons, take_zero, map_cons, map_nil,
      List.cons.injEq, and_true]
    omega
  rw [if_neg hE0]
  cases rest with
  | nil => exact .inl rfl
  | cons d rest =>
  rw [if_neg (by simp), getElem?_cons_zero, bind_some]
  by_cases hd : (d ^^^ 0x80) &&& 0xC0 = 0
  case neg => exact .inl (if_pos hd)
  rw [if_neg (not_not.2 hd)]
  rw [continuation] at hd
  rw [continuation_bits d hd.1 hd.2]
  by_cases hF0 : a.toNat < 0xF0
  · rw [if_pos hF0]
    have hvalue := @decoded_three (a.toNat - 224) (b.toNat - 128) (d.toNat - 128) (by omega)
      (by omega) (by omega)
    rw [Nat.add_sub_cancel' (by omega)] at hvalue
    rw [hvalue]
    by_cases hover : ((a.toNat - 224) * 64 + (b.toNat - 128)) * 64 + (d.toNat - 128) ≤ kMaxTwoByteChar
    · exact .inl (if_pos hover)
    refine .inr ⟨_, _, if_neg hover, by omega, by simp, ?_⟩
    rw [form_three (by omega) (by omega)]
    simp only [octets, take_succ_cons, take_zero, map_cons, map_nil,
      List.cons.injEq, and_true]
    omega
  rw [if_neg hF0]
  cases rest with
  | nil => exact .inl rfl
  | cons e rest =>
  rw [if_neg (by simp), getElem?_cons_succ, getElem?_cons_zero, bind_some]
  by_cases he : (e ^^^ 0x80) &&& 0xC0 = 0
  case neg => exact .inl (if_pos he)
  rw [if_neg (not_not.2 he)]
  rw [continuation] at he
  rw [continuation_bits e he.1 he.2]
  by_cases hF8 : a.toNat < 0xF8
  case neg => exact .inl (if_neg hF8)
  rw [if_pos hF8]
  have hvalue := @decoded_four (a.toNat - 240) (b.toNat - 128) (d.toNat - 128) (e.toNat - 128)
    (by omega) (by omega) (by omega) (by omega)
  rw [Nat.add_sub_cancel' (by omega)] at hvalue
  rw [hvalue]
  by_cases hover : (((a.toNat - 240) * 64 + (b.toNat - 128)) * 64 + (d.toNat - 128)) * 64
      + (e.toNat - 128) ≤ kMaxThreeByteChar
  · exact .inl (if_pos hover)
  refine .inr ⟨_, _, if_neg hover, by omega, by simp, ?_⟩
  rw [form_four (by omega)]
  simp only [octets, take_succ_cons, take_zero, map_cons, map_nil,
    List.cons.injEq, and_true]
  omega

theorem valueOf_cases {bytes : List UInt8} (h : bytes ≠ []) : valueOf bytes = some (kBadChar, 1) ∨
      ∃ c n, valueOf bytes = some (c, n) ∧ Good bytes c n := by
  obtain ⟨a, rest, rfl⟩ := exists_cons_of_ne_nil h
  simp only [valueOf, length_cons, Nat.add_eq_zero_iff, Nat.succ_ne_self, and_false, if_false,
    getElem?_cons_zero, bind_eq_bind, bind_some]
  split
  case isTrue ha =>
    have ha' : a.toNat ≤ 127 := ha
    exact .inr ⟨_, _, rfl, Nat.le_trans ha (by decide), by simp, by
      rw [form_one (by omega)]
      rfl⟩
  case isFalse ha =>
    have ha' : ¬ a.toNat ≤ 127 := ha
    cases rest with
    | nil => exact .inl rfl
    | cons b rest => exact calculateValue_cases a b rest (by omega)

/-- What one call of `ValueOf` does: it takes the shortest form at the beginning of the bytes, or
one byte as a bad character where there is none. -/
inductive Step (bytes : List UInt8) : Nat → Nat → Prop
  | good {c n : Nat} : Good bytes c n → Step bytes c n
  | bad : (∀ c n, ¬ Good bytes c n) → Step bytes kBadChar 1

theorem Good.valueOf {bytes : List UInt8} {c n : Nat} (h : Good bytes c n) : valueOf bytes = some (c, n) := by
  have hform := valueOf_form h.le_max h.octets (bytes.drop n)
  rwa [take_append_drop, length_take, Nat.min_eq_left h.le_length] at hform

theorem valueOf_step {bytes : List UInt8} (h : bytes ≠ []) :
    ∃ c n, valueOf bytes = some (c, n) ∧ Step bytes c n := by
  rcases valueOf_cases h with hbad | ⟨c, n, hvalue, hgood⟩
  · refine ⟨_, _, hbad, .bad fun c n hgood => ?_⟩
    -- the replacement character itself takes three bytes
    have heq := hgood.valueOf.symm.trans hbad
    obtain ⟨rfl, rfl⟩ := heq
    have hlen := congrArg List.length hgood.octets
    have hle := hgood.le_length
    rw [octets_length, length_take, Nat.min_eq_left hle] at hlen
    exact absurd hlen (by decide)
  · exact ⟨c, n, hvalue, .good hgood⟩

theorem Good.pos {bytes : List UInt8} {c n : Nat} (h : Good bytes c n) : 0 < n := by
  rcases Nat.eq_zero_or_pos n with rfl | hn
  · obtain ⟨a, r, hform, -⟩ := form_head c
    have hnil := h.octets
    rw [hform] at hnil
    cases hnil
  · exact hn

theorem Step.pos {bytes : List UInt8} {c n : Nat} (h : Step bytes c n) : 0 < n := by
  cases h with
  | good h => exact h.pos
  | bad h => exact Nat.one_pos

theorem Step.le_length {bytes : List UInt8} {c n : Nat} (h : Step bytes c n) (hne : bytes ≠ []) :
    n ≤ bytes.length := by
  cases h with
  | good h => exact h.le_length
  | bad h => exact length_pos_iff.2 hne

/-! ## Decoding to the end -/

/-- The characters of the bytes, one step after the other. -/
inductive Decodes : List UInt8 → List Nat → Prop
  | nil : Decodes [] []
  | cons {bytes : List UInt8} {c n : Nat} {cs : List Nat} : bytes ≠ [] →
      valueOf bytes = some (c, n) → Decodes (bytes.drop n) cs → Decodes bytes (c :: cs)

theorem Decodes.decode {bytes : List UInt8} {cs : List Nat} (h : Decodes bytes cs) :
    ∀ {fuel : Nat}, bytes.length < fuel → decode fuel bytes = some cs := by
  induction h with
  | nil =>
    intro fuel hfuel
    cases fuel with
    | zero => omega
    | succ fuel => rfl
  | @cons bytes c n cs hne hvalue _ ih =>
    intro fuel hfuel
    cases fuel with
    | zero => omega
    | succ fuel =>
      obtain ⟨c', n', hvalue', hstep⟩ := valueOf_step hne
      rw [hvalue] at hvalue'
      obtain ⟨rfl, rfl⟩ := hvalue'
      have hpos := hstep.pos
      have hlen := length_pos_iff.2 hne
      have hdrop : (bytes.drop n).length < fuel := by
        rw [length_drop]
        omega
      rw [Unibrow.decode, if_neg (by omega), hvalue]
      simp only [bind_eq_bind, bind_some, ih hdrop]
      rfl

theorem Decodes.unique {bytes : List UInt8} {cs cs' : List Nat} (h : Decodes bytes cs)
    (h' : Decodes bytes cs') : cs = cs' := by
  have hrun := h.decode (Nat.lt_succ_self _)
  rw [h'.decode (Nat.lt_succ_self _)] at hrun
  exact (some.inj hrun).symm

/-- Every byte string has characters. -/
theorem decodes_total (bytes : List UInt8) : ∃ cs, Decodes bytes cs := by
  induction hn : bytes.length using Nat.strongRecOn generalizing bytes with
  | ind n ih =>
    by_cases hne : bytes = []
    · exact ⟨[], hne ▸ .nil⟩
    obtain ⟨c, k, hvalue, hstep⟩ := valueOf_step hne
    have hpos := hstep.pos
    have hlen := length_pos_iff.2 hne
    obtain ⟨cs, hcs⟩ := ih (bytes.drop k).length (by rw [length_drop]; omega) _ rfl
    exact ⟨c :: cs, .cons hne hvalue hcs⟩

theorem octets_encode_good {c : Nat} (hc : c ≤ kMaxFourByteChar) (rest : List UInt8) :
    Good (encode c ++ rest) c (length c) := by
  have hlen := length_encode c
  refine ⟨hc, by rw [length_append]; omega, ?_⟩
  rw [← hlen, take_left, octets_encode hc]

theorem decodes_encode {cs : List Nat} (h : ∀ c ∈ cs, c ≤ kMaxFourByteChar) :
    Decodes (cs.flatMap encode) cs := by
  induction cs with
  | nil => exact .nil
  | cons c cs ih =>
    have hc := octets_encode_good (h c mem_cons_self) (cs.flatMap encode)
    rw [flatMap_cons]
    refine .cons ?_ hc.valueOf ?_
    · rw [← length_pos_iff]
      exact Nat.lt_of_lt_of_le hc.pos hc.le_length
    simp_all [length_encode]

end W16.Unibrow
