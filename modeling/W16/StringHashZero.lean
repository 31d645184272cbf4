import W16.ArrayIndices

/-!
# Hash values of zero

`GetHash` never returns zero, but two of its bits are shifted out of the hash field. The mixing
steps can be undone, so that the strings with such a hash are those that lead back to the start.
-/
namespace W16.StringHash

open StringBlocks StringHasher

set_option linter.dupNamespace false

/-! ## The steps undone -/

/-- Undo `x ^ (x >> n)`. -/
def unshift (n : Nat) : Nat → BitVec 32 → BitVec 32
  | 0, y => y
  | rounds + 1, y => y ^^^ (unshift n rounds y >>> n)

theorem unshift_xor (n rounds : Nat) (x : BitVec 32) :
    unshift n rounds (x ^^^ (x >>> n)) = x ^^^ (x >>> (n * (rounds + 1))) := by
  induction rounds with
  | zero => rw [zero_add, mul_one, unshift]
  | succ rounds ih =>
    rw [unshift, ih, BitVec.ushiftRight_xor_distrib, ← BitVec.shiftRight_add, BitVec.xor_assoc,
      ← BitVec.xor_assoc (x >>> n), BitVec.xor_self, BitVec.zero_xor]
    rfl

theorem xor_unshift (n rounds : Nat) (y : BitVec 32) :
    unshift n rounds y ^^^ (unshift n rounds y >>> n) = y ^^^ (y >>> (n * (rounds + 1))) := by
  induction rounds with
  | zero => rw [zero_add, mul_one, unshift]
  | succ rounds ih =>
    rw [unshift, BitVec.ushiftRight_xor_distrib]
    generalize unshift n rounds y = u at ih ⊢
    calc y ^^^ (u >>> n) ^^^ ((y >>> n) ^^^ (u >>> n >>> n))
        = y ^^^ ((y >>> n) ^^^ ((u >>> n) ^^^ (u >>> n >>> n))) := by ac_rfl
      _ = y ^^^ ((y >>> n) ^^^ ((y >>> n) ^^^ (y >>> (n * (rounds + 1)) >>> n))) := by
        rw [← BitVec.ushiftRight_xor_distrib u, ih, BitVec.ushiftRight_xor_distrib]
      _ = y ^^^ (y >>> (n * (rounds + 1 + 1))) := by
        grind -linarith

/-- Enough rounds shift everything out. -/
theorem xor_eq_iff {n rounds : Nat} (h : 32 ≤ n * (rounds + 1)) (x y : BitVec 32) :
    x ^^^ (x >>> n) = y ↔ x = unshift n rounds y := by
  have hout : ∀ z : BitVec 32, z >>> (n * (rounds + 1)) = 0#32 := fun z => BitVec.ushiftRight_eq_zero h
  constructor
  · rintro rfl
    rw [unshift_xor, hout, BitVec.xor_zero]
  · rintro rfl
    rw [xor_unshift, hout, BitVec.xor_zero]

theorem mul_eq_iff {a b : BitVec 32} (h : a * b = 1#32) (x y : BitVec 32) : x * a = y ↔ x = y * b := by
  grind -linarith

def unmix (hash : BitVec 32) (c : Nat) : BitVec 32 := unshift 6 5 hash * 3222273025#32 - BitVec.ofNat 32 c

theorem mix_eq_iff (hash z : BitVec 32) (c : Nat) : mix hash c = z ↔ hash = unmix z c := by
  unfold mix unmix
  rw [@xor_eq_iff _ 5 (by decide), mul_eq_iff (b := 3222273025#32) (by decide)]
  grind -linarith

theorem foldl_mix_eq_iff (chars : List Nat) (hash z : BitVec 32) :
    chars.foldl mix hash = z ↔ hash = chars.foldr (fun c z => unmix z c) z := by
  induction chars generalizing hash with
  | nil => rfl
  | cons c chars ih => rw [List.foldl_cons, ih, mix_eq_iff, List.foldr_cons]

/-- The last steps of `GetHash`. -/
def finish (hash : BitVec 32) : BitVec 32 :=
  let result := hash + (hash <<< 3)
  let result := result ^^^ (result >>> 11)
  result + (result <<< 15)

def unfinish (z : BitVec 32) : BitVec 32 := unshift 11 2 (z * 1073709057#32) * 954437177#32

theorem add_shiftLeft_eq (x : BitVec 32) : x + (x <<< 3) = x * 9#32 ∧ x + (x <<< 15) = x * 32769#32 := by
  constructor
  · apply BitVec.eq_of_toNat_eq
    simp [Nat.shiftLeft_eq]
    omega
  · apply BitVec.eq_of_toNat_eq
    simp [Nat.shiftLeft_eq]
    omega

theorem finish_eq_iff (hash z : BitVec 32) : finish hash = z ↔ hash = unfinish z := by
  unfold finish unfinish
  rw [(add_shiftLeft_eq _).2, mul_eq_iff (b := 1073709057#32) (by decide), (add_shiftLeft_eq _).1,
    @xor_eq_iff _ 2 (by decide), mul_eq_iff (b := 954437177#32) (by decide)]

/-! ## The hash value -/

theorem shifted_eq_zero (x : BitVec 32) :
    (x <<< kHashShift ||| kIsNotArrayIndexMask) >>> kHashShift = 0#32 ↔ x.toNat % 2 ^ 30 = 0 := by
  have hmask : kIsNotArrayIndexMask >>> kHashShift = 0#32 := by decide
  rw [BitVec.ushiftRight_or_distrib, hmask, BitVec.or_zero, ← BitVec.toNat_inj, BitVec.toNat_ushiftRight,
    BitVec.toNat_shiftLeft, Nat.shiftLeft_eq, Nat.shiftRight_eq_div_pow]
  unfold kHashShift
  simp
  omega

/-- The hashes whose low thirty bits are zero. -/
def zeroHashes : List (BitVec 32) := [0x40000000#32, 0x80000000#32, 0xC0000000#32]

theorem getHash_low (hasher : StringHasher) :
    hasher.getHash.toNat % 2 ^ 30 = 0 ↔ finish hasher.rawRunningHash ∈ zeroHashes := by
  have hget : hasher.getHash = if finish hasher.rawRunningHash = 0#32 then 27#32 else finish hasher.rawRunningHash := rfl
  have hmem : ∀ x : BitVec 32, x ∈ zeroHashes ↔ x.toNat % 2 ^ 30 = 0 ∧ x ≠ 0#32 := fun x => by
    simp only [zeroHashes, List.mem_cons, List.not_mem_nil, or_false]
    bv_omega
  grind -linarith

/-- Undoing the steps from one of these hashes leads back to the start. -/
def LeadsBack (chars : List Nat) : Prop :=
  ∃ z ∈ zeroHashes, chars.foldr (fun c hash => unmix hash c) (unfinish z) = 0#32

theorem index_hash_ne_zero {n length : Nat} (hpos : 0 < length) (hle : length ≤ kMaxArrayIndexSize) :
    makeArrayIndexHash (BitVec.ofNat 32 n) length >>> kHashShift ≠ 0#32 := by
  have hbit : ∀ length : Nat, length ≤ 10 → 0 < length → ∃ j < 4, length.testBit j = true := by decide
  obtain ⟨j, hj, htest⟩ := hbit length hle hpos
  intro hzero
  have hget := congrArg (·.getLsbD (24 + j)) hzero
  simp only [BitVec.getLsbD_ushiftRight, BitVec.getLsbD_zero, kHashShift] at hget
  rw [getLsbD_index (by omega), show 2 + (24 + j) - 26 = j by omega, htest, decide_eq_true (show 26 ≤ 2 + (24 + j) by omega)] at hget
  simp at hget

theorem hashSequentialString_zero {chars : List Nat} (hchars : ∀ c ∈ chars, c < 2 ^ 16) (hne : chars ≠ [])
    (hmax : chars.length ≤ kMaxLength) : hashSequentialString chars >>> kHashShift ≠ 0#32 ↔
      kMaxHashCalcLength < chars.length ∨ (∃ n < 2 ^ 32, Numeral chars n) ∨ ¬LeadsBack chars := by
  by_cases hindex : ∃ n < 2 ^ 32, Numeral chars n
  · obtain ⟨n, hn, h⟩ := hindex
    rw [field_of_numeral hchars h hn]
    exact ⟨fun _ => .inr (.inl ⟨n, hn, h⟩), fun _ => index_hash_ne_zero h.length_pos (h.length_le hn)⟩
  · obtain ⟨hasher, hraw, hfield⟩ := field_of_not hchars hindex
    rw [hfield, ne_eq, shifted_eq_zero]
    by_cases hlong : chars.length ≤ kMaxHashCalcLength
    · have hback : ∀ z, finish hasher.rawRunningHash = z ↔
          chars.foldr (fun c hash => unmix hash c) (unfinish z) = 0#32 := fun z => by
        rw [finish_eq_iff, hraw, foldl_mix_eq_iff, eq_comm]
      have hzero : finish hasher.rawRunningHash ∈ zeroHashes ↔ LeadsBack chars :=
        ⟨fun h => ⟨_, h, (hback _).1 rfl⟩, fun ⟨z, hz, h⟩ => (hback z).2 h ▸ hz⟩
      rw [if_pos hlong, getHash_low, hzero]
      grind -linarith
    grind -linarith [kMaxLength]

/-- The hash of a string is zero for no others than those that lead back to the start. -/
theorem hash_ne_zero_iff {s : Nat} (hs : 8 ≤ s) (buffer : InputBuffer s) (str : Str) (hne : str.chars ≠ [])
    (hmax : str.length ≤ kMaxLength) {fuel : Nat} (hfuel : str.length < fuel) {field : BitVec 32}
    (hfield : Stored field str) : ∃ value, hash stringReadBlock fuel buffer field str =
        some (value, hashSequentialString str.chars) ∧
      (value ≠ 0#32 ↔ kMaxHashCalcLength < str.length ∨ (∃ n < 2 ^ 32, Numeral str.chars n) ∨ ¬LeadsBack str.chars) := by
  refine ⟨_, hash_eq (stringReadBlock_good hs) buffer hfuel hfield, ?_⟩
  rw [← str.length_chars] at hmax ⊢
  exact hashSequentialString_zero (chars_lt str) hne hmax

def emptyBuffer : InputBuffer 8 := ⟨0, 0, .null, 0, .flat (.seqAscii []), Vector.replicate 8 0⟩

theorem hash_ne_zero_iff_a : ∃ value, hash stringReadBlock 2 emptyBuffer kEmptyHashField (.flat (.seqTwoByte [97])) =
      some (value, hashSequentialString [97]) ∧
    (value ≠ 0#32 ↔ kMaxHashCalcLength < 1 ∨ (∃ n < 2 ^ 32, Numeral [97] n) ∨ ¬LeadsBack [97]) :=
  hash_ne_zero_iff (by decide) emptyBuffer (.flat (.seqTwoByte [97])) (by decide) (by decide) (by decide) (.inl rfl)

/-- `kabpsg` -/
theorem hash_zero : hash stringReadBlock 7 emptyBuffer kEmptyHashField
    (.flat (.seqTwoByte [107, 97, 98, 112, 115, 103])) = some (0#32, kIsNotArrayIndexMask) := by decide +kernel

end W16.StringHash
