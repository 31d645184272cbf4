import W16.StringHasher

/-!
# Array indices are recognised alike

The loops over sequential characters and over a character stream compute one hash field. It holds
the index of a numeral of at most seven digits, and `ComputeArrayIndex` finds the same indices.
-/
namespace W16.StringHash

open StringBlocks StringHasher List Option
open Json (IsDigit)
open JsonParsing (decimalValue AllDigits decimalValue_lt le_decimalValue)

set_option linter.dupNamespace false

/-- The decimal numeral of `n`, with no zero in front. -/
def Numeral (chars : List Nat) (n : Nat) : Prop :=
  chars ≠ [] ∧ AllDigits chars ∧ (chars.head? = some 48 → chars.length = 1) ∧ decimalValue 0 chars = n

variable {chars : List Nat} {c : Nat} {hasher : StringHasher}

/-! ## One loop -/

theorem addCharacter_of_not (h : hasher.isArrayIndex = false) : addCharacter c hasher = addCharacterNoIndex c hasher := by
  simp [addCharacter, h]

theorem foldl_noIndex (h : hasher.isArrayIndex = false) :
    chars.foldl (fun hasher c => addCharacterNoIndex c hasher) hasher =
      chars.foldl (fun hasher c => addCharacter c hasher) hasher := by
  induction chars generalizing hasher with
  | nil => rfl
  | cons c chars ih =>
    simp only [foldl_cons, addCharacter_of_not h]
    exact ih h

theorem indexLoop_foldl (chars : List Nat) (hasher : StringHasher) :
    (indexLoop chars hasher).1.foldl (fun hasher c => addCharacterNoIndex c hasher) (indexLoop chars hasher).2 =
      chars.foldl (fun hasher c => addCharacter c hasher) hasher := by
  induction chars generalizing hasher with
  | nil => rfl
  | cons c chars ih =>
    cases h : hasher.isArrayIndex with
    | true => simp [indexLoop, h, ih]
    | false =>
      simp only [indexLoop, h, Bool.false_eq_true, if_false]
      exact foldl_noIndex h

theorem hashSequentialString_eq (chars : List Nat) : hashSequentialString chars =
    if chars.length > kMaxHashCalcLength then (new chars.length).getHashField
    else (chars.foldl (fun hasher c => addCharacter c hasher) (new chars.length)).getHashField := by
  simp [hashSequentialString, hasTrivialHash, indexLoop_foldl, new]

/-! ## Streams -/

/-- A buffer in relation to the characters that it will deliver. -/
structure Delivers {σ : Type} (stream : CharacterStream σ) (R : σ → List Nat → Prop) : Prop where
  more : ∀ {buffer chars}, R buffer chars → stream.hasMore buffer = !chars.isEmpty
  next : ∀ {buffer c chars}, R buffer (c :: chars) → ∃ buffer', stream.getNext buffer = some (c, buffer') ∧
    R buffer' chars

section Stream

variable {σ : Type} {stream : CharacterStream σ} {R : σ → List Nat → Prop} {fuel : Nat} {buffer : σ}

theorem streamIndexLoop_spec (hstream : Delivers stream R) (hbuf : R buffer chars) (hfuel : chars.length < fuel)
    (hasher : StringHasher) :
    ∃ buffer', streamIndexLoop stream fuel buffer hasher = some (buffer', (indexLoop chars hasher).2) ∧
      R buffer' (indexLoop chars hasher).1 ∧ (indexLoop chars hasher).1.length ≤ chars.length := by
  induction chars generalizing fuel buffer hasher with
  | nil =>
    obtain ⟨fuel, rfl⟩ := Nat.exists_eq_add_one_of_ne_zero (ne_of_gt hfuel)
    exact ⟨buffer, by simp [streamIndexLoop, hstream.more hbuf, indexLoop], hbuf, le_rfl⟩
  | cons c chars ih =>
    obtain ⟨fuel, rfl⟩ := Nat.exists_eq_add_one_of_ne_zero (ne_of_gt (Nat.zero_lt_of_lt hfuel))
    cases h : hasher.isArrayIndex with
    | true =>
      obtain ⟨buffer', hnext, hbuf'⟩ := hstream.next hbuf
      obtain ⟨last, hrun, hlast, hlen⟩ := ih hbuf' (Nat.lt_of_succ_lt_succ hfuel) (addCharacter c hasher)
      refine ⟨last, ?_, by simpa [indexLoop, h] using hlast, by simp [indexLoop, h]; omega⟩
      simp [streamIndexLoop, hstream.more hbuf, h, hnext, hrun, indexLoop]
    | false =>
      simp [streamIndexLoop, indexLoop, h, hbuf]

theorem streamLoop_spec (hstream : Delivers stream R) (hbuf : R buffer chars) (hfuel : chars.length < fuel) :
    streamLoop stream fuel buffer hasher = some (chars.foldl (fun hasher c => addCharacterNoIndex c hasher) hasher) := by
  induction chars generalizing fuel buffer hasher with
  | nil =>
    obtain ⟨fuel, rfl⟩ := Nat.exists_eq_add_one_of_ne_zero (ne_of_gt hfuel)
    simp [streamLoop, hstream.more hbuf]
  | cons c chars ih =>
    obtain ⟨fuel, rfl⟩ := Nat.exists_eq_add_one_of_ne_zero (ne_of_gt (Nat.zero_lt_of_lt hfuel))
    obtain ⟨buffer', hnext, hbuf'⟩ := hstream.next hbuf
    simp [streamLoop, hstream.more hbuf, hnext, ih hbuf' (Nat.lt_of_succ_lt_succ hfuel)]

theorem computeHashField_eq (hstream : Delivers stream R) (hbuf : R buffer chars) (hfuel : chars.length < fuel) :
    computeHashField stream fuel buffer chars.length = some (hashSequentialString chars) := by
  cases h : (new chars.length).hasTrivialHash with
  | true => simp [computeHashField, hashSequentialString, h]
  | false =>
    obtain ⟨rest, hrun, hrest, hlen⟩ := streamIndexLoop_spec hstream hbuf hfuel (new chars.length)
    simp [computeHashField, hashSequentialString, h, hrun,
      streamLoop_spec hstream hrest (lt_of_le_of_lt hlen hfuel)]

end Stream

/-! ## The index of digits -/

theorem digit_gt (hc : c < 2 ^ 16) : BitVec.ofNat 32 c - 48#32 > 9#32 ↔ ¬IsDigit c := by
  unfold IsDigit
  rw [gt_iff_lt, BitVec.lt_def]
  simp only [BitVec.toNat_sub, BitVec.toNat_ofNat]
  omega

theorem toNat_digit (hc : IsDigit c) : (BitVec.ofNat 32 c - 48#32).toNat = c - 48 := by
  unfold IsDigit at hc
  simp only [BitVec.toNat_sub, BitVec.toNat_ofNat]
  omega

/-- The test before the multiplication. -/
theorem fits_iff {v d : BitVec 32} (hd : d.toNat ≤ 9) :
    v > 429496729#32 - ((d + 2#32) >>> 3) ↔ 2 ^ 32 ≤ v.toNat * 10 + d.toNat := by
  have hshift : ((d + 2#32) >>> 3).toNat = (d.toNat + 2) / 8 := by
    rw [BitVec.toNat_ushiftRight, Nat.shiftRight_eq_div_pow]
    bv_omega
  bv_omega

theorem decimalValue_snoc (v : Nat) (p : List Nat) (c : Nat) :
    decimalValue v (p ++ [c]) = decimalValue v p * 10 + (c - 48) := by
  simp [decimalValue]

variable {p : List Nat} {length n : Nat}

theorem decimalValue_pos (hp : AllDigits p) (hne : p ≠ []) (hfirst : p.head? ≠ some 48) :
    0 < decimalValue 0 p := by
  cases p with
  | nil => exact absurd rfl hne
  | cons c p =>
    obtain ⟨hc, -⟩ := forall_mem_cons.1 hp
    have hne' : c ≠ 48 := fun h => hfirst (by rw [h]; rfl)
    have hle := le_decimalValue p (0 * 10 + (c - 48))
    unfold IsDigit at hc
    show 0 < decimalValue (0 * 10 + (c - 48)) p
    omega

/-- The characters so far can begin an array index of the given length. -/
def Indexed (length : Nat) (p : List Nat) : Prop :=
  AllDigits p ∧ (p.head? = some 48 → length = 1) ∧ decimalValue 0 p < 2 ^ 32

structure Hashed (length : Nat) (p : List Nat) (hasher : StringHasher) : Prop where
  length_eq : hasher.length = length
  raw : hasher.rawRunningHash = p.foldl mix 0
  isArrayIndex : hasher.isArrayIndex = true ↔ (0 < length ∧ length ≤ kMaxArrayIndexSize) ∧ Indexed length p
  arrayIndex : hasher.isArrayIndex = true → hasher.arrayIndex.toNat = decimalValue 0 p

theorem hashed_new (length : Nat) : Hashed length [] (new length) where
  length_eq := rfl
  raw := rfl
  isArrayIndex := by simp [new, Indexed, AllDigits, decimalValue]
  arrayIndex _ := rfl

theorem Indexed.of_snoc (h : Indexed length (p ++ [c])) : Indexed length p := by
  obtain ⟨hdigs, hfirst, hlt⟩ := h
  rw [decimalValue_snoc] at hlt
  refine ⟨fun d hd => hdigs d (mem_append_left _ hd), fun hp => hfirst ?_, by omega⟩
  rw [List.head?_append, hp, some_or]

/-- A zero in front is the value zero of the first character. -/
theorem head_snoc (h : AllDigits (p ++ [c])) (hp : Indexed length p) (hlen : 1 < length) :
    (p ++ [c]).head? = some 48 ↔ decimalValue 0 (p ++ [c]) = 0 := by
  constructor
  · intro hhead
    cases p with
    | nil =>
      obtain rfl : c = 48 := by simpa using hhead
      rfl
    | cons d p =>
      have := hp.2.1 (by simpa using hhead)
      omega
  · intro hzero
    by_contra hhead
    exact ne_of_gt (decimalValue_pos h (by simp) hhead) hzero

/-- One character of an index. -/
theorem Hashed.addCharacter (h : Hashed length p hasher) (hc : c < 2 ^ 16) :
    Hashed length (p ++ [c]) (addCharacter c hasher) := by
  have hraw : mix hasher.rawRunningHash c = (p ++ [c]).foldl mix 0 := by rw [h.raw, foldl_append]; rfl
  cases hindex : hasher.isArrayIndex with
  | false =>
    rw [addCharacter_of_not hindex]
    have hno : ¬((0 < length ∧ length ≤ kMaxArrayIndexSize) ∧ Indexed length (p ++ [c])) := fun hall => by
      rw [h.isArrayIndex.2 ⟨hall.1, hall.2.of_snoc⟩] at hindex
      cases hindex
    exact ⟨h.length_eq, hraw, by simp [addCharacterNoIndex, hindex, hno], fun ht => by
      simp [addCharacterNoIndex, hindex] at ht⟩
  | true =>
    obtain ⟨hlen, hp⟩ := h.isArrayIndex.1 hindex
    have hvalue := h.arrayIndex hindex
    unfold StringHasher.addCharacter
    rw [hindex, if_pos rfl]
    by_cases hdigit : IsDigit c
    · have htoNat := toNat_digit hdigit
      have hgt : ¬ BitVec.ofNat 32 c - 48#32 > 9#32 := fun hgt => (digit_gt hc).1 hgt hdigit
      have hd : (BitVec.ofNat 32 c - 48#32).toNat ≤ 9 := by
        unfold IsDigit at hdigit
        omega
      have hall : AllDigits (p ++ [c]) := forall_mem_append.2 ⟨hp.1, forall_mem_singleton.2 hdigit⟩
      simp only [hgt, false_or, fits_iff hd, hvalue, htoNat, ← decimalValue_snoc]
      by_cases hfits : 2 ^ 32 ≤ decimalValue 0 (p ++ [c])
      · rw [if_pos hfits]
        refine ⟨h.length_eq, hraw, ?_, fun ht => by cases ht⟩
        simp_all [Indexed]
      · rw [if_neg hfits]
        have hnext : (hasher.arrayIndex * 10#32 + (BitVec.ofNat 32 c - 48#32)).toNat = decimalValue 0 (p ++ [c]) := by
          rw [decimalValue_snoc] at hfits ⊢
          rw [BitVec.toNat_add, BitVec.toNat_mul, hvalue, htoNat, BitVec.toNat_ofNat]
          omega
        have hzero : hasher.arrayIndex * 10#32 + (BitVec.ofNat 32 c - 48#32) = 0#32 ↔ decimalValue 0 (p ++ [c]) = 0 := by
          rw [← hnext, ← BitVec.toNat_inj]
          rfl
        by_cases hfront : decimalValue 0 (p ++ [c]) = 0 ∧ 1 < length
        · rw [if_pos ⟨hzero.2 hfront.1, h.length_eq.symm ▸ hfront.2⟩]
          refine ⟨h.length_eq, hraw, ?_, fun ht => by cases ht⟩
          simp only [Bool.false_eq_true, false_iff]
          intro hnext
          have := hnext.2.2.1 ((head_snoc hall hp hfront.2).2 hfront.1)
          omega
        · rw [if_neg (by rw [hzero, h.length_eq]; exact hfront)]
          refine ⟨h.length_eq, hraw, ?_, fun _ => hnext⟩
          have hfirst : (p ++ [c]).head? = some 48 → length = 1 := fun hhead => by
            by_contra hne
            have hlt : 1 < length := by omega
            exact hfront ⟨(head_snoc hall hp hlt).1 hhead, hlt⟩
          show hasher.isArrayIndex = true ↔ _
          simp only [hindex, true_iff]
          exact ⟨hlen, hall, hfirst, Nat.lt_of_not_le hfits⟩
    · have hgt := (digit_gt hc).2 hdigit
      rw [if_pos (.inl hgt)]
      refine ⟨h.length_eq, hraw, ?_, fun ht => by cases ht⟩
      simp [Indexed, AllDigits, hdigit]

theorem Hashed.foldl (h : Hashed length p hasher) (hchars : ∀ c ∈ chars, c < 2 ^ 16) :
    Hashed length (p ++ chars) (chars.foldl (fun hasher c => StringHasher.addCharacter c hasher) hasher) := by
  induction chars generalizing p hasher with
  | nil => simpa using h
  | cons c chars ih =>
    obtain ⟨hc, hrest⟩ := forall_mem_cons.1 hchars
    simpa using ih (h.addCharacter hc) hrest

/-! ## Numerals -/

theorem mul_pow_le_decimalValue (v : Nat) (ds : List Nat) : v * 10 ^ ds.length ≤ decimalValue v ds := by
  induction ds generalizing v with
  | nil => simp [decimalValue]
  | cons c ds ih =>
    have hle : v * 10 * 10 ^ ds.length ≤ (v * 10 + (c - 48)) * 10 ^ ds.length := Nat.mul_le_mul_right _ (by omega)
    calc v * 10 ^ (ds.length + 1) = v * 10 * 10 ^ ds.length := by rw [Nat.pow_succ']; ac_rfl
      _ ≤ decimalValue v (c :: ds) := Nat.le_trans hle (ih _)

theorem Numeral.length_pos (h : Numeral chars n) : 0 < chars.length := length_pos_iff.2 h.1

/-- No index has more digits than `kMaxArrayIndexSize`. -/
theorem Numeral.length_le (h : Numeral chars n) (hn : n < 2 ^ 32) : chars.length ≤ kMaxArrayIndexSize := by
  obtain ⟨hne, hdigs, hfirst, rfl⟩ := h
  cases chars with
  | nil => exact Nat.zero_le _
  | cons c ds =>
    by_cases hc : c = 48
    · rw [hfirst (by rw [hc]; rfl)]
      decide
    · have hdigit := (forall_mem_cons.1 hdigs).1
      unfold IsDigit at hdigit
      by_contra hlong
      have hlen : 10 ≤ ds.length := by
        rw [length_cons, kMaxArrayIndexSize] at hlong
        omega
      have h10 : 10 ^ 10 ≤ 10 ^ ds.length := Nat.pow_le_pow_right (by decide) hlen
      have h1 : 1 * 10 ^ ds.length ≤ (0 * 10 + (c - 48)) * 10 ^ ds.length := Nat.mul_le_mul_right _ (by omega)
      have hle := mul_pow_le_decimalValue (0 * 10 + (c - 48)) ds
      have hn' : decimalValue (0 * 10 + (c - 48)) ds < 2 ^ 32 := hn
      omega

theorem indexed_iff (chars : List Nat) :
    ((0 < chars.length ∧ chars.length ≤ kMaxArrayIndexSize) ∧ Indexed chars.length chars) ↔
      ∃ n < 2 ^ 32, Numeral chars n := by
  constructor
  · rintro ⟨⟨hpos, -⟩, hdigs, hfirst, hlt⟩
    exact ⟨_, hlt, length_pos_iff.1 hpos, hdigs, hfirst, rfl⟩
  · rintro ⟨n, hn, h⟩
    exact ⟨⟨h.length_pos, h.length_le hn⟩, h.2.1, h.2.2.1, h.2.2.2 ▸ hn⟩

/-! ## The field -/

/-- The field of an index. -/
theorem field_of_numeral (hchars : ∀ c ∈ chars, c < 2 ^ 16) (h : Numeral chars n) (hn : n < 2 ^ 32) :
    hashSequentialString chars = makeArrayIndexHash (BitVec.ofNat 32 n) chars.length := by
  have hashed := (hashed_new chars.length).foldl hchars
  rw [nil_append] at hashed
  have hindex := hashed.isArrayIndex.2 ((indexed_iff chars).2 ⟨n, hn, h⟩)
  have hvalue : (chars.foldl (fun hasher c => StringHasher.addCharacter c hasher) (new chars.length)).arrayIndex =
      BitVec.ofNat 32 n := by
    apply BitVec.eq_of_toNat_eq
    rw [hashed.arrayIndex hindex, h.2.2.2, BitVec.toNat_ofNat, Nat.mod_eq_of_lt hn]
  have hlen := h.length_le hn
  unfold kMaxArrayIndexSize at hlen
  rw [hashSequentialString_eq, if_neg (by unfold kMaxHashCalcLength; omega), getHashField, hashed.length_eq,
    if_pos (by unfold kMaxHashCalcLength; omega), if_pos hindex, hvalue]

/-- The field of any other string. -/
theorem field_of_not (hchars : ∀ c ∈ chars, c < 2 ^ 16) (h : ¬∃ n < 2 ^ 32, Numeral chars n) :
    ∃ hasher : StringHasher, hasher.rawRunningHash = chars.foldl mix 0#32 ∧ hashSequentialString chars =
      ((if chars.length ≤ kMaxHashCalcLength then hasher.getHash else BitVec.ofNat 32 chars.length) <<< kHashShift) |||
        kIsNotArrayIndexMask := by
  have hashed := (hashed_new chars.length).foldl hchars
  rw [nil_append] at hashed
  refine ⟨_, hashed.raw, ?_⟩
  have hindex := mt hashed.isArrayIndex.1 (mt (indexed_iff chars).1 h)
  rw [hashSequentialString_eq]
  by_cases hlong : chars.length > kMaxHashCalcLength
  · simp [getHashField, if_neg, new, hlong]
  · rw [if_neg hlong, getHashField, hashed.length_eq, if_pos (Nat.not_lt.1 hlong), if_neg hindex,
      if_pos (Nat.not_lt.1 hlong)]

theorem and_eq_zero {x m : BitVec 32} (h : ∀ i < 32, m.getLsbD i = true → x.getLsbD i = false) : x &&& m = 0#32 := by
  apply BitVec.eq_of_getLsbD_eq
  intro i hi
  rw [BitVec.getLsbD_and, BitVec.getLsbD_zero]
  cases hm : m.getLsbD i with
  | false => exact Bool.and_false _
  | true => rw [h i hi hm, Bool.false_and]

theorem and_ne_zero {x m : BitVec 32} (i : Nat) (hx : x.getLsbD i = true) (hm : m.getLsbD i = true) : x &&& m ≠ 0#32 :=
  fun h => by
    have hbit := congrArg (·.getLsbD i) h
    simp [hx, hm] at hbit

theorem getLsbD_index {i : Nat} (hi : i < 32) : (makeArrayIndexHash (BitVec.ofNat 32 n) length).getLsbD i =
    ((decide (2 ≤ i) && n.testBit (i - 2)) || (decide (26 ≤ i) && length.testBit (i - 26))) := by
  have h2 : i - 2 < 32 := by omega
  have h26 : i - 26 < 32 := by omega
  simp only [makeArrayIndexHash, kArrayIndexHashLengthShift, kArrayIndexValueBits, kHashShift, BitVec.getLsbD_or,
    BitVec.getLsbD_shiftLeft, BitVec.getLsbD_ofNat, hi, h2, h26, decide_true, Bool.true_and, ← decide_not, Nat.not_lt]

theorem getLsbD_contains : ∀ i < 32, kContainsCachedArrayIndexMask.getLsbD i = true ↔ i = 1 ∨ 29 ≤ i := by decide

/-- An index has neither flag. -/
theorem index_flags (n length : Nat) :
    makeArrayIndexHash (BitVec.ofNat 32 n) length &&& kHashNotComputedMask = 0#32 ∧
      makeArrayIndexHash (BitVec.ofNat 32 n) length &&& kIsNotArrayIndexMask = 0#32 := by
  have hbits : ∀ i < 32, (kHashNotComputedMask.getLsbD i = true → i < 2) ∧
      (kIsNotArrayIndexMask.getLsbD i = true → i < 2) := by decide
  constructor
  · refine and_eq_zero fun i hi hm => ?_
    have := (hbits i hi).1 hm
    rw [getLsbD_index hi, decide_eq_false (by omega), decide_eq_false (by omega), Bool.false_and, Bool.false_and,
      Bool.or_false]
  · refine and_eq_zero fun i hi hm => ?_
    have := (hbits i hi).2 hm
    rw [getLsbD_index hi, decide_eq_false (by omega), decide_eq_false (by omega), Bool.false_and, Bool.false_and,
      Bool.or_false]

theorem index_cached (hn : n < 2 ^ 24) (hlength : length ≤ kMaxCachedArrayIndexLength) :
    makeArrayIndexHash (BitVec.ofNat 32 n) length &&& kContainsCachedArrayIndexMask = 0#32 ∧
      (kArrayIndexHashMask &&& makeArrayIndexHash (BitVec.ofNat 32 n) length) >>> kHashShift = BitVec.ofNat 32 n := by
  have hvalue : ∀ j, 24 ≤ j → n.testBit j = false := fun j hj =>
    Nat.testBit_lt_two_pow (lt_of_lt_of_le hn (Nat.pow_le_pow_right (by decide) hj))
  have hlen : ∀ j, 3 ≤ j → length.testBit j = false := fun j hj =>
    Nat.testBit_lt_two_pow (lt_of_le_of_lt hlength (lt_of_lt_of_le (by decide) (Nat.pow_le_pow_right (by decide) hj)))
  constructor
  · refine and_eq_zero fun i hi hm => ?_
    rcases (getLsbD_contains i hi).1 hm with rfl | hle
    · rw [getLsbD_index hi]
      rfl
    · rw [getLsbD_index hi, hvalue _ (by omega), hlen _ (by omega), Bool.and_false, Bool.and_false, Bool.or_false]
  · have hmask : ∀ i < 32, kArrayIndexHashMask.getLsbD i = decide (i < 26) := by decide
    apply BitVec.eq_of_getLsbD_eq
    intro i hi
    rw [BitVec.getLsbD_ushiftRight, BitVec.getLsbD_and, BitVec.getLsbD_ofNat, decide_eq_true hi, Bool.true_and, kHashShift]
    by_cases hlow : 2 + i < 26
    · rw [hmask _ (by omega), getLsbD_index (by omega), decide_eq_true hlow, decide_eq_true (show 2 ≤ 2 + i by omega),
        decide_eq_false (show ¬26 ≤ 2 + i by omega), Nat.add_sub_cancel_left]
      simp
    · rw [hvalue i (by omega)]
      by_cases hhigh : 2 + i < 32
      · rw [hmask _ hhigh, decide_eq_false hlow, Bool.false_and]
      simp_all

/-- The length shows in bit 29. -/
theorem index_not_cached (hlow : kMaxCachedArrayIndexLength < length) (hhigh : length ≤ kMaxArrayIndexSize) :
    makeArrayIndexHash (BitVec.ofNat 32 n) length &&& kContainsCachedArrayIndexMask ≠ 0#32 := by
  have hbit : ∀ length : Nat, length ≤ 10 → 7 < length → length.testBit 3 = true := by decide
  refine and_ne_zero 29 ?_ (by decide)
  rw [getLsbD_index (by decide), show 29 - 26 = 3 from rfl, hbit length hhigh hlow]
  simp

/-- A field that is no index. -/
theorem hash_flags (x : BitVec 32) : (x <<< kHashShift ||| kIsNotArrayIndexMask) &&& kHashNotComputedMask = 0#32 ∧
    (x <<< kHashShift ||| kIsNotArrayIndexMask) &&& kIsNotArrayIndexMask ≠ 0#32 ∧
    (x <<< kHashShift ||| kIsNotArrayIndexMask) &&& kContainsCachedArrayIndexMask ≠ 0#32 := by
  have hbit : (x <<< kHashShift ||| kIsNotArrayIndexMask).getLsbD 1 = true := by
    rw [BitVec.getLsbD_or]
    exact Bool.or_true _
  refine ⟨and_eq_zero fun i hi hm => ?_, and_ne_zero 1 hbit (by decide), and_ne_zero 1 hbit (by decide)⟩
  have hzero : ∀ i < 32, kHashNotComputedMask.getLsbD i = true → i = 0 := by decide
  obtain rfl := hzero i hi hm
  simp [kHashShift, kIsNotArrayIndexMask]

/-! ## From the characters -/

section Stream

variable {σ : Type} {stream : CharacterStream σ} {R : σ → List Nat → Prop} {fuel : Nat} {buffer : σ}

theorem toInt_digit {ch : Nat} : ((ch : Int) - 48 < 0 ∨ (ch : Int) - 48 > 9) ↔ ¬IsDigit ch := by
  unfold IsDigit
  omega

theorem toNat_ofInt_digit {ch : Nat} (h : IsDigit ch) : (BitVec.ofInt 32 ((ch : Int) - 48)).toNat = ch - 48 := by
  unfold IsDigit at h
  rw [BitVec.toNat_ofInt]
  omega

theorem arrayIndexLoop_spec (hstream : Delivers stream R) (hbuf : R buffer chars) (hfuel : chars.length < fuel)
    (result : BitVec 32) : ∃ r, arrayIndexLoop stream fuel buffer result = some r ∧
      ∀ n, r = some n ↔ AllDigits chars ∧ n.toNat = decimalValue result.toNat chars := by
  induction chars generalizing fuel buffer result with
  | nil =>
    obtain ⟨fuel, rfl⟩ := Nat.exists_eq_add_one_of_ne_zero (ne_of_gt hfuel)
    refine ⟨some result, by simp [arrayIndexLoop, hstream.more hbuf], fun n => ?_⟩
    simp [AllDigits, decimalValue, BitVec.toNat_inj, eq_comm]
  | cons ch chars ih =>
    obtain ⟨fuel, rfl⟩ := Nat.exists_eq_add_one_of_ne_zero (ne_of_gt (Nat.zero_lt_of_lt hfuel))
    obtain ⟨buffer', hnext, hbuf'⟩ := hstream.next hbuf
    have hrun : arrayIndexLoop stream (fuel + 1) buffer result =
        if (ch : Int) - 48 < 0 ∨ (ch : Int) - 48 > 9 then some none
        else if result > 429496729#32 - (if (ch : Int) - 48 > 5 then 1#32 else 0#32) then some none
        else arrayIndexLoop stream fuel buffer' (result * 10#32 + BitVec.ofInt 32 ((ch : Int) - 48)) := by
      simp [arrayIndexLoop, hstream.more hbuf, hnext]
    rw [hrun]
    by_cases hdigit : IsDigit ch
    · have hd := toNat_ofInt_digit hdigit
      have hcons : AllDigits (ch :: chars) ↔ AllDigits chars := by simp [AllDigits, hdigit]
      have hfits : result > 429496729#32 - (if (ch : Int) - 48 > 5 then 1#32 else 0#32) ↔
          2 ^ 32 ≤ result.toNat * 10 + (ch - 48) := by
        unfold IsDigit at hdigit
        split <;> bv_omega
      rw [if_neg (fun h => toInt_digit.1 h hdigit)]
      by_cases hover : 2 ^ 32 ≤ result.toNat * 10 + (ch - 48)
      · rw [if_pos (hfits.2 hover)]
        refine ⟨none, rfl, fun n => ⟨fun h => (by cases h), fun h => ?_⟩⟩
        have hle := le_decimalValue chars (result.toNat * 10 + (ch - 48))
        have hn : n.toNat = decimalValue (result.toNat * 10 + (ch - 48)) chars := h.2
        have := n.isLt
        omega
      · rw [if_neg (mt hfits.1 hover)]
        obtain ⟨r, hr, hiff⟩ := ih hbuf' (Nat.lt_of_succ_lt_succ hfuel)
          (result * 10#32 + BitVec.ofInt 32 ((ch : Int) - 48))
        have hvalue : (result * 10#32 + BitVec.ofInt 32 ((ch : Int) - 48)).toNat = result.toNat * 10 + (ch - 48) := by
          rw [BitVec.toNat_add, BitVec.toNat_mul, hd, BitVec.toNat_ofNat]
          omega
        rw [hvalue] at hiff
        exact ⟨r, hr, fun n => by rw [hiff, hcons]; rfl⟩
    · rw [if_pos (toInt_digit.2 hdigit)]
      exact ⟨none, rfl, fun n => ⟨fun h => (by cases h), fun h => absurd (h.1 ch (.head _)) hdigit⟩⟩

theorem computeArrayIndex_spec (hstream : Delivers stream R) (hbuf : R buffer chars) (hfuel : chars.length < fuel) :
    ∃ r, computeArrayIndex stream fuel buffer chars.length = some r ∧ ∀ n, r = some n ↔ Numeral chars n.toNat := by
  unfold computeArrayIndex
  by_cases hlen : chars.length = 0 ∨ chars.length > kMaxArrayIndexSize
  · rw [if_pos hlen]
    refine ⟨none, rfl, fun n => ⟨fun h => (by cases h), fun h => ?_⟩⟩
    have := h.length_pos
    have := h.length_le n.isLt
    omega
  · rw [if_neg hlen]
    cases chars with
    | nil => exact absurd (.inl rfl) hlen
    | cons ch chars =>
      obtain ⟨buffer', hnext, hbuf'⟩ := hstream.next hbuf
      simp only [hnext, bind_eq_bind, bind_some]
      by_cases hzero : ch = 48
      · subst hzero
        rw [if_pos rfl]
        refine ⟨_, rfl, fun n => ?_⟩
        cases chars with
        | nil =>
          simp [Numeral, AllDigits, IsDigit, decimalValue, ← BitVec.toNat_inj]
        | cons => simp [Numeral]
      · rw [if_neg hzero]
        by_cases hdigit : IsDigit ch
        · rw [if_neg (fun h => toInt_digit.1 h hdigit)]
          obtain ⟨r, hr, hiff⟩ := arrayIndexLoop_spec hstream hbuf' (Nat.lt_of_succ_lt hfuel)
            (BitVec.ofInt 32 ((ch : Int) - 48))
          rw [toNat_ofInt_digit hdigit] at hiff
          refine ⟨r, hr, fun n => ?_⟩
          have hvalue : decimalValue 0 (ch :: chars) = decimalValue (ch - 48) chars := by
            simp [decimalValue]
          have hcons : AllDigits (ch :: chars) ↔ AllDigits chars := by simp [AllDigits, hdigit]
          rw [hiff, Numeral, hcons, hvalue]
          simp [hzero, eq_comm]
        · rw [if_pos (toInt_digit.2 hdigit)]
          exact ⟨none, rfl, fun n => ⟨fun h => (by cases h), fun h => absurd (h.2.1 ch (.head _)) hdigit⟩⟩

end Stream

/-! ## Strings -/

section Strings

variable {s : Nat} {reader : Reader s} {fuel : Nat} {str : Str}

theorem delivers_input (hread : reader.Good) : Delivers (inputStream reader) InputBuffer.Ready where
  more := by
    rintro buffer chars ⟨⟨block, k, rfl, hrem, -, hlast⟩, -⟩
    cases block with
    | nil =>
      simp [inputStream, InputBuffer.hasMore, hlast, hrem]
    | cons b block => simp [inputStream, InputBuffer.hasMore, hrem]
  next h := InputBuffer.getNext_ready hread h

theorem reset_ready (hread : reader.Good) (buffer : InputBuffer s) (str : Str) :
    ∃ buffer', buffer.reset reader 0 str = some buffer' ∧ InputBuffer.Ready buffer' str.chars := by
  obtain ⟨buffer', hrun, -, hready⟩ := InputBuffer.fillBuffer_spec hread
    { buffer with input := str, remaining := 0, cursor := 0, offset := 0 } (Nat.zero_le _)
  exact ⟨buffer', hrun, hready rfl⟩

theorem FlatString.chars_lt (string : FlatString) : ∀ c ∈ string.chars, c < 2 ^ 16 := by
  cases string with
  | seqAscii chars | externalAscii chars =>
    intro c hc
    obtain ⟨b, -, rfl⟩ := mem_map.1 hc
    exact lt_trans b.val.toNat_lt (by decide)
  | seqTwoByte chars | externalTwoByte chars =>
    intro c hc
    obtain ⟨b, -, rfl⟩ := mem_map.1 hc
    exact b.toNat_lt

theorem chars_lt (str : Str) : ∀ c ∈ str.chars, c < 2 ^ 16 := by
  induction str with
  | flat string => exact FlatString.chars_lt string
  | cons first second ih₁ ih₂ => exact forall_mem_append.2 ⟨ih₁, ih₂⟩
  | sliced parent offset length h =>
    exact fun c hc => FlatString.chars_lt parent c (mem_of_mem_drop (mem_of_mem_take hc))

theorem stream_field (hread : reader.Good) (buffer : InputBuffer s) (hfuel : str.length < fuel) :
    ∃ buffer', buffer.reset reader 0 str = some buffer' ∧
      computeHashField (inputStream reader) fuel buffer' str.length = some (hashSequentialString str.chars) := by
  obtain ⟨buffer', hrun, hready⟩ := reset_ready hread buffer str
  refine ⟨buffer', hrun, ?_⟩
  rw [← str.length_chars] at hfuel ⊢
  exact computeHashField_eq (delivers_input hread) hready hfuel

theorem computeHash_eq (hread : reader.Good) (buffer : InputBuffer s) (hfuel : str.length < fuel) :
    computeHash reader fuel buffer str = some (hashSequentialString str.chars) := by
  obtain ⟨buffer', hrun, hfield⟩ := stream_field hread buffer hfuel
  have hstream : (buffer.reset reader 0 str >>= fun buffer => computeHashField (inputStream reader) fuel buffer str.length) =
      some (hashSequentialString str.chars) := by
    rw [hrun]
    exact hfield
  cases str with
  | flat string =>
    cases string with
    | seqAscii chars => rfl
    | seqTwoByte chars => rfl
    | externalAscii data => exact hstream
    | externalTwoByte data => exact hstream
  | cons first second => exact hstream
  | sliced parent offset length h => exact hstream

/-- The field is not computed, or that of the characters. -/
def Stored (field : BitVec 32) (str : Str) : Prop :=
  field = kEmptyHashField ∨ field = hashSequentialString str.chars

theorem field_computed (hchars : ∀ c ∈ chars, c < 2 ^ 16) :
    hashSequentialString chars &&& kHashNotComputedMask = 0#32 ∧
      (hashSequentialString chars &&& kIsNotArrayIndexMask = 0#32 ↔ ∃ n < 2 ^ 32, Numeral chars n) := by
  by_cases hindex : ∃ n < 2 ^ 32, Numeral chars n
  · obtain ⟨n, hn, h⟩ := hindex
    obtain ⟨hcomputed, hflag⟩ := index_flags n chars.length
    grind -linarith [field_of_numeral]
  · obtain ⟨hasher, -, hfield⟩ := field_of_not hchars hindex
    simp_all [hash_flags]

variable {field : BitVec 32}

theorem hash_eq (hread : reader.Good) (buffer : InputBuffer s) (hfuel : str.length < fuel)
    (hfield : Stored field str) : hash reader fuel buffer field str =
      some (hashSequentialString str.chars >>> kHashShift, hashSequentialString str.chars) := by
  rcases hfield with rfl | rfl
  · rw [hash, if_neg (by decide), computeHash_eq hread buffer hfuel]
    rfl
  · rw [hash, if_pos (field_computed (chars_lt str)).1]
    rfl

/-- The index that is cached in the field. -/
theorem cached_index (hchars : ∀ c ∈ chars, c < 2 ^ 16) (hlen : chars.length ≤ kMaxCachedArrayIndexLength) {n : Nat}
    (h : Numeral chars n) (hn : n < 2 ^ 32) : hashSequentialString chars &&& kContainsCachedArrayIndexMask = 0#32 ∧
      (kArrayIndexHashMask &&& hashSequentialString chars) >>> kHashShift = BitVec.ofNat 32 n := by
  rw [field_of_numeral hchars h hn]
  refine index_cached ?_ hlen
  have hlt := decimalValue_lt chars 0 h.2.1
  rw [h.2.2.2, zero_add, one_mul] at hlt
  exact lt_trans (lt_of_lt_of_le hlt (Nat.pow_le_pow_right (by decide) hlen)) (by decide)

theorem field_contains (hchars : ∀ c ∈ chars, c < 2 ^ 16) :
    hashSequentialString chars &&& kContainsCachedArrayIndexMask = 0#32 ↔
      chars.length ≤ kMaxCachedArrayIndexLength ∧ ∃ n < 2 ^ 32, Numeral chars n := by
  constructor
  · intro hmask
    by_cases hindex : ∃ n < 2 ^ 32, Numeral chars n
    · refine ⟨?_, hindex⟩
      obtain ⟨n, hn, h⟩ := hindex
      rw [field_of_numeral hchars h hn] at hmask
      by_contra hlong
      exact index_not_cached (Nat.lt_of_not_le hlong) (h.length_le hn) hmask
    · obtain ⟨hasher, -, hfield⟩ := field_of_not hchars hindex
      rw [hfield] at hmask
      exact absurd hmask (hash_flags _).2.2
  · rintro ⟨hlen, n, hn, h⟩
    exact (cached_index hchars hlen h hn).1

theorem slowAsArrayIndex_spec (hread : reader.Good) (buffer : InputBuffer s) (hfuel : str.length < fuel) (hfield : Stored field str) :
    ∃ r, slowAsArrayIndex reader fuel buffer field str = some r ∧ ∀ n, r = some n ↔ Numeral str.chars n.toNat := by
  have hchars := chars_lt str
  unfold slowAsArrayIndex
  by_cases hlen : str.length ≤ kMaxCachedArrayIndexLength
  · rw [if_pos hlen, hash_eq hread buffer hfuel hfield]
    simp only [bind_eq_bind, bind_some]
    obtain ⟨-, hindex⟩ := field_computed hchars
    rw [← str.length_chars] at hlen
    by_cases hflag : hashSequentialString str.chars &&& kIsNotArrayIndexMask = 0#32
    · rw [if_neg (not_not.2 hflag)]
      obtain ⟨m, hm, h⟩ := hindex.1 hflag
      refine ⟨_, rfl, fun n => ?_⟩
      rw [(cached_index hchars hlen h hm).2, Option.some.injEq, ← BitVec.toNat_inj, BitVec.toNat_ofNat,
        Nat.mod_eq_of_lt hm]
      exact ⟨fun hmn => hmn ▸ h, fun hn => h.2.2.2.symm.trans hn.2.2.2⟩
    · rw [if_pos hflag]
      exact ⟨none, rfl, fun n => ⟨fun h => (by cases h), fun h => absurd (hindex.2 ⟨_, n.isLt, h⟩) hflag⟩⟩
  · rw [if_neg hlen]
    obtain ⟨buffer', hrun, hready⟩ := reset_ready hread buffer str
    rw [← str.length_chars] at hfuel
    obtain ⟨r, hr, hiff⟩ := computeArrayIndex_spec (delivers_input hread) hready hfuel
    rw [str.length_chars] at hr
    exact ⟨r, by simp [hrun, hr], hiff⟩

theorem asArrayIndex_spec (hread : reader.Good) (buffer : InputBuffer s) (hfuel : str.length < fuel) (hfield : Stored field str) :
    ∃ r, asArrayIndex reader fuel buffer field str = some r ∧ ∀ n, r = some n ↔ Numeral str.chars n.toNat := by
  unfold asArrayIndex
  by_cases hflag : field &&& kHashNotComputedMask = 0#32 ∧ field &&& kIsNotArrayIndexMask ≠ 0#32
  · rw [if_pos hflag]
    refine ⟨none, rfl, fun n => ⟨fun h => (by cases h), fun h => ?_⟩⟩
    rcases hfield with rfl | rfl
    · exact absurd hflag.1 (by decide)
    · exact absurd ((field_computed (chars_lt str)).2.2 ⟨_, n.isLt, h⟩) hflag.2
  · rw [if_neg hflag]
    exact slowAsArrayIndex_spec hread buffer hfuel hfield

/-- Every path gives the same field and finds the same indices, and the field tells the short ones. -/
theorem array_index_alike (hs : 8 ≤ s) (buffer : InputBuffer s) (str : Str) (hfuel : str.length < fuel)
    {field : BitVec 32} (hfield : Stored field str) :
    ((∃ buffer', buffer.reset stringReadBlock 0 str = some buffer' ∧
        computeHashField (inputStream stringReadBlock) fuel buffer' str.length = some (hashSequentialString str.chars)) ∧
      computeHash stringReadBlock fuel buffer str = some (hashSequentialString str.chars)) ∧
    (∃ r, asArrayIndex stringReadBlock fuel buffer field str = some r ∧ ∀ n, r = some n ↔ Numeral str.chars n.toNat) ∧
    (∃ buffer' r, buffer.reset stringReadBlock 0 str = some buffer' ∧
      computeArrayIndex (inputStream stringReadBlock) fuel buffer' str.length = some r ∧
        ∀ n, r = some n ↔ Numeral str.chars n.toNat) ∧
    (hashSequentialString str.chars &&& kContainsCachedArrayIndexMask = 0#32 ↔
      str.length ≤ kMaxCachedArrayIndexLength ∧ ∃ n < 2 ^ 32, Numeral str.chars n) := by
  have hreader := stringReadBlock_good hs
  refine ⟨⟨stream_field hreader buffer hfuel, computeHash_eq hreader buffer hfuel⟩,
    asArrayIndex_spec hreader buffer hfuel hfield, ?_, ?_⟩
  · obtain ⟨buffer', hrun, hready⟩ := reset_ready hreader buffer str
    have hlength := str.length_chars
    rw [← hlength] at hfuel
    obtain ⟨r, hr, hiff⟩ := computeArrayIndex_spec (delivers_input hreader) hready hfuel
    rw [hlength] at hr
    exact ⟨buffer', r, hrun, hr, hiff⟩
  · rw [← str.length_chars]
    exact field_contains (chars_lt str)

/-- The largest index, in two parts. -/
theorem array_index_alike_cons : ∃ r, asArrayIndex (s := 8) stringReadBlock 11 ⟨0, 0, .null, 0, .flat (.seqAscii []),
      Vector.replicate 8 0⟩ kEmptyHashField
      (.cons (.flat (.seqTwoByte [52, 50, 57, 52])) (.flat (.externalTwoByte [57, 54, 55, 50, 57, 53]))) = some r ∧
    ∀ n, r = some n ↔ Numeral [52, 50, 57, 52, 57, 54, 55, 50, 57, 53] n.toNat :=
  (array_index_alike (by decide) _ (.cons (.flat (.seqTwoByte [52, 50, 57, 52]))
    (.flat (.externalTwoByte [57, 54, 55, 50, 57, 53]))) (by decide) (.inl rfl)).2.1

end Strings

end W16.StringHash
