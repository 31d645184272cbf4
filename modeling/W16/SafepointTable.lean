import Mathlib

/-!
# Safepoint tables

`SafepointTableBuilder` emits a table behind the code: a header, for each safepoint its
pc with four packed fields, and for each one a bitmap of its registers and stack slots.
`SafepointTable` reads it. Register bytes of ones say that there are no registers.
-/
namespace W16.Safepoints

open List

set_option linter.dupNamespace false

abbrev Byte := BitVec 8

def kBitsPerByte : Nat := 8
def kIntSize : Nat := 4

/-- `BitField<T, shift, size>`. -/
structure BitField where
  shift : Nat
  size : Nat

def BitField.kMask (f : BitField) : BitVec 32 := ((1 <<< f.shift) <<< f.size) - (1 <<< f.shift)

def BitField.isValid (f : BitField) (value : Nat) : Bool := value < 2 ^ f.size

def BitField.encode (f : BitField) (value : BitVec 32) : BitVec 32 := value <<< f.shift

def BitField.decode (f : BitField) (value : BitVec 32) : BitVec 32 := (value &&& f.kMask) >>> f.shift

def kGapCodeSizeBits : Nat := 13
def kArgumentsFieldBits : Nat := 3
def kSaveDoublesFieldBits : Nat := 1
def kDeoptIndexBits : Nat := 32 - kGapCodeSizeBits - kArgumentsFieldBits - kSaveDoublesFieldBits

def gapCodeSizeField : BitField := ⟨0, kGapCodeSizeBits⟩
def deoptimizationIndexField : BitField := ⟨kGapCodeSizeBits, kDeoptIndexBits⟩
def argumentsField : BitField := ⟨kGapCodeSizeBits + kDeoptIndexBits, kArgumentsFieldBits⟩
def saveDoublesField : BitField :=
  ⟨kGapCodeSizeBits + kDeoptIndexBits + kArgumentsFieldBits, kSaveDoublesFieldBits⟩

/-- What `DefineSafepoint`, `SetPcAfterGap`, `DefinePointerSlot` and
`DefinePointerRegister` have recorded for a safepoint; the kind is a pair of flags. -/
structure Safepoint where
  pc : Nat
  withRegisters : Bool
  withDoubles : Bool
  deoptimizationIndex : Nat
  pcAfterGap : Nat
  arguments : Nat
  indexes : List Nat
  registers : List Nat

/-- `EncodeExceptPC`. -/
def encodeExceptPC (s : Safepoint) : BitVec 32 :=
  deoptimizationIndexField.encode (.ofNat 32 s.deoptimizationIndex) |||
    gapCodeSizeField.encode (.ofNat 32 s.pcAfterGap - .ofNat 32 s.pc) |||
    argumentsField.encode (.ofNat 32 s.arguments) |||
    saveDoublesField.encode (if s.withDoubles then 1 else 0)

/-- `Assembler::dd`. -/
def dd (w : BitVec 32) : List Byte :=
  [w.extractLsb' 0 8, w.extractLsb' 8 8, w.extractLsb' 16 8, w.extractLsb' 24 8]

/-- `bits[index >> kBitsPerByteLog2] |= 1 << (index & (kBitsPerByte - 1))`. -/
def setBit (bits : List Byte) (index : Nat) : List Byte :=
  bits.modify (index / kBitsPerByte) fun b => b ||| (1 : Byte) <<< (index % kBitsPerByte)

/-- The number of register bits is `kBitsPerByte * numRegBytes`. -/
def kNumSafepointRegisters (numRegBytes : Nat) : Nat := kBitsPerByte * numRegBytes

/-- The bits of an entry, with the register bits. -/
def totalBits (numRegBytes bitsPerEntry : Nat) : Nat :=
  bitsPerEntry + kNumSafepointRegisters numRegBytes

def bytesPerEntry (numRegBytes bitsPerEntry : Nat) : Nat :=
  (totalBits numRegBytes bitsPerEntry + (kBitsPerByte - 1)) / kBitsPerByte

/-- The bitmap of a safepoint. -/
def bitmap (numRegBytes bitsPerEntry : Nat) (s : Safepoint) : List Byte :=
  let bits := replicate (bytesPerEntry numRegBytes bitsPerEntry) 0
  let bits :=
    if s.withRegisters then s.registers.foldl setBit bits
    else (List.range numRegBytes).foldl (fun bits j => bits.set j 0xFF) bits
  s.indexes.foldl (fun bits slot =>
    setBit bits (totalBits numRegBytes bitsPerEntry - 1 - slot)) bits

/-- `Emit`; `code` is what was assembled before, padded and aligned. The table starts at
the length of `code`. -/
def emit (numRegBytes bitsPerEntry : Nat) (code : List Byte) (safepoints : List Safepoint) : List Byte :=
  code ++ dd (.ofNat 32 safepoints.length) ++ dd (.ofNat 32 (bytesPerEntry numRegBytes bitsPerEntry)) ++
    (safepoints.flatMap fun s => dd (.ofNat 32 s.pc) ++ dd (encodeExceptPC s)) ++
    safepoints.flatMap (bitmap numRegBytes bitsPerEntry)

/-! ## The table in the memory -/

def uint8At (memory : List Byte) (address : Nat) : Byte := memory.getD address 0

def uint32At (memory : List Byte) (address : Nat) : BitVec 32 :=
  uint8At memory (address + 3) ++ uint8At memory (address + 2) ++ uint8At memory (address + 1) ++
    uint8At memory address

structure SafepointTable where
  length : Nat
  entrySize : Nat
  pcAndDeoptimizationIndexes : Nat
  entries : Nat

def kHeaderSize : Nat := 2 * kIntSize
def kPcAndDeoptimizationIndexSize : Nat := 2 * kIntSize

/-- The constructor. Products of `unsigned` values are cut to 32 bits. -/
def SafepointTable.read (memory : List Byte) (header : Nat) : SafepointTable :=
  let length := (uint32At memory header).toNat
  { length := length
    entrySize := (uint32At memory (header + kIntSize)).toNat
    pcAndDeoptimizationIndexes := header + kHeaderSize
    entries := header + kHeaderSize + length * kPcAndDeoptimizationIndexSize % 2 ^ 32 }

/-- A valid `SafepointEntry`; `bits` is an address. -/
structure SafepointEntry where
  info : BitVec 32
  bits : Nat

def SafepointTable.getPcOffset (t : SafepointTable) (memory : List Byte) (index : Nat) : BitVec 32 :=
  uint32At memory (t.pcAndDeoptimizationIndexes + index * kPcAndDeoptimizationIndexSize % 2 ^ 32)

def SafepointTable.getEntry (t : SafepointTable) (memory : List Byte) (index : Nat) : SafepointEntry where
  info := uint32At memory
    (t.pcAndDeoptimizationIndexes + index * kPcAndDeoptimizationIndexSize % 2 ^ 32 + kIntSize)
  bits := t.entries + index * t.entrySize % 2 ^ 32

/-- `FindEntry`; there is no result for an invalid entry. The offset of the pc in the code
is cut to 32 bits. -/
def SafepointTable.findEntry (t : SafepointTable) (memory : List Byte) (pcOffset : Int) :
    Option SafepointEntry :=
  ((List.range t.length).find? fun i => t.getPcOffset memory i = BitVec.ofInt 32 pcOffset).map
    (t.getEntry memory)

namespace SafepointEntry

variable (e : SafepointEntry)

def deoptimizationIndex : Nat := (deoptimizationIndexField.decode e.info).toNat
def gapCodeSize : Nat := (gapCodeSizeField.decode e.info).toNat
def argumentCount : Nat := (argumentsField.decode e.info).toNat
def hasDoubles : Bool := saveDoublesField.decode e.info ≠ 0

def hasRegisters (numRegBytes : Nat) (memory : List Byte) : Bool :=
  (List.range numRegBytes).any fun i => uint8At memory (e.bits + i) ≠ 0xFF

/-- The test of `HasRegisterAt`, also used for the bits of the slots. -/
def bitAt (memory : List Byte) (index : Nat) : Bool :=
  (uint8At memory (e.bits + index / kBitsPerByte)).getLsbD (index % kBitsPerByte)

end SafepointEntry

/-! ## Fields -/

variable {s : Safepoint} {safepoints front rest : List Safepoint} {numRegBytes bitsPerEntry : Nat}
  {bits code : List Byte}

/-- The values of a safepoint fit their fields. -/
structure Fits (numRegBytes bitsPerEntry : Nat) (s : Safepoint) : Prop where
  gap : s.pc ≤ s.pcAfterGap
  pcAfterGap : s.pcAfterGap < 2 ^ 31
  gapCodeSize : gapCodeSizeField.isValid (s.pcAfterGap - s.pc)
  deoptimizationIndex : deoptimizationIndexField.isValid s.deoptimizationIndex
  arguments : argumentsField.isValid s.arguments
  indexes : ∀ slot ∈ s.indexes, slot < bitsPerEntry
  registers : ∀ r ∈ s.registers, r < kNumSafepointRegisters numRegBytes

theorem getLsbD_eq_false {v : BitVec 32} {size i : Nat} (hv : v.toNat < 2 ^ size) (hi : size ≤ i) :
    v.getLsbD i = false :=
  Nat.testBit_lt_two_pow (lt_of_lt_of_le hv (Nat.pow_le_pow_right (by decide) hi))

/-- The bits that are read from a field with the given mask. -/
theorem decode_getLsbD (f : BitField) (w : BitVec 32) (j : Nat)
    (hmask : ∀ i < 32, f.kMask.getLsbD i = decide (f.shift ≤ i ∧ i < f.shift + f.size)) :
    (f.decode w).getLsbD j = (decide (j < f.size) && w.getLsbD (f.shift + j)) := by
  rw [BitField.decode, BitVec.getLsbD_ushiftRight, BitVec.getLsbD_and]
  by_cases hj : f.shift + j < 32
  · grind
  · simp_all

section Fields

variable (gap index arguments doubles : BitVec 32)

/-- The four fields do not overlap. -/
theorem decode_fields (hgap : gap.toNat < 2 ^ 13) (hindex : index.toNat < 2 ^ 15)
    (harguments : arguments.toNat < 2 ^ 3) (hdoubles : doubles.toNat < 2 ^ 1) :
    let w := deoptimizationIndexField.encode index ||| gapCodeSizeField.encode gap |||
      argumentsField.encode arguments ||| saveDoublesField.encode doubles
    gapCodeSizeField.decode w = gap ∧ deoptimizationIndexField.decode w = index ∧
      argumentsField.decode w = arguments ∧ saveDoublesField.decode w = doubles := by
  intro w
  have hw : ∀ i, w.getLsbD i = (decide (i < 32) && ((!decide (i < 13) && index.getLsbD (i - 13)) ||
      gap.getLsbD i || (!decide (i < 28) && arguments.getLsbD (i - 28)) ||
      (!decide (i < 31) && doubles.getLsbD (i - 31)))) := by
    intro i
    simp only [w, BitField.encode, BitVec.getLsbD_or, BitVec.getLsbD_shiftLeft,
      deoptimizationIndexField, gapCodeSizeField, argumentsField, saveDoublesField,
      kGapCodeSizeBits, kDeoptIndexBits, kArgumentsFieldBits, kSaveDoublesFieldBits]
    by_cases hi : i < 32 <;> simp [hi]
  refine ⟨?_, ?_, ?_, ?_⟩ <;> apply BitVec.eq_of_getLsbD_eq <;> intro j hj <;>
    rw [decode_getLsbD _ _ _ (by decide), hw]
  · simp only [gapCodeSizeField, kGapCodeSizeBits]
    by_cases hlt : j < 13
    · grind -linarith
    · simp [hlt, getLsbD_eq_false hgap (Nat.not_lt.1 hlt)]
  · simp only [deoptimizationIndexField, kGapCodeSizeBits, kDeoptIndexBits, kArgumentsFieldBits,
      kSaveDoublesFieldBits]
    by_cases hlt : j < 15
    · have h₁ : 13 + j < 28 := by omega
      have h₂ : 13 + j < 31 := by omega
      have h₃ : 13 + j < 32 := by omega
      have h₄ : ¬13 + j < 13 := by omega
      rw [getLsbD_eq_false hgap (Nat.le_add_right 13 j)]
      simp [hlt, h₁, h₂, h₃, h₄]
    · simp [hlt, getLsbD_eq_false hindex (Nat.not_lt.1 hlt)]
  · simp only [argumentsField, kGapCodeSizeBits, kDeoptIndexBits, kArgumentsFieldBits, kSaveDoublesFieldBits]
    by_cases hlt : j < 3
    · have h₁ : 28 + j < 31 := by omega
      have h₂ : 28 + j < 32 := by omega
      have h₃ : 15 ≤ 28 + j - 13 := by omega
      have h₄ : 13 ≤ 28 + j := by omega
      have h₅ : ¬28 + j < 28 := by omega
      rw [getLsbD_eq_false hgap h₄, getLsbD_eq_false hindex h₃]
      simp [hlt, h₁, h₂, h₅]
    · simp [hlt, getLsbD_eq_false harguments (Nat.not_lt.1 hlt)]
  · simp only [saveDoublesField, kGapCodeSizeBits, kDeoptIndexBits, kArgumentsFieldBits, kSaveDoublesFieldBits]
    by_cases hlt : j < 1
    · have h₂ : 31 + j < 32 := by omega
      have h₃ : 15 ≤ 31 + j - 13 := by omega
      have h₄ : 13 ≤ 31 + j := by omega
      have h₅ : 3 ≤ 31 + j - 28 := by omega
      have h₆ : ¬31 + j < 31 := by omega
      rw [getLsbD_eq_false hgap h₄, getLsbD_eq_false hindex h₃, getLsbD_eq_false harguments h₅]
      simp [hlt, h₂, h₆]
    · simp [hlt, getLsbD_eq_false hdoubles (Nat.not_lt.1 hlt)]

end Fields

/-! ## Bitmaps -/

/-- A bit of a list of bytes. -/
def getBit (bits : List Byte) (index : Nat) : Bool :=
  (bits.getD (index / kBitsPerByte) 0).getLsbD (index % kBitsPerByte)

theorem length_setBit (bits : List Byte) (index : Nat) :
    (setBit bits index).length = bits.length := length_modify ..

theorem getBit_setBit {i : Nat} (hi : i < kBitsPerByte * bits.length) (k : Nat) :
    getBit (setBit bits i) k = (getBit bits k || decide (k = i)) := by
  have hbyte := Nat.div_lt_of_lt_mul hi
  have hbit : k % kBitsPerByte < 8 := Nat.mod_lt k (by decide)
  rw [getBit, getBit, setBit, getD_eq_getElem?_getD, getElem?_modify, getD_eq_getElem?_getD]
  by_cases hk : i / kBitsPerByte = k / kBitsPerByte
  · rw [getElem?_eq_getElem (hk ▸ hbyte)]
    simp only [hk, if_true, Option.map_eq_map, Option.map_some, Option.getD_some,
      BitVec.getLsbD_or, BitVec.getLsbD_shiftLeft]
    simp only [kBitsPerByte] at hk hbit ⊢
    grind -linarith
  grind -linarith

theorem length_foldl_setBit (l : List Nat) (bits : List Byte) : (l.foldl setBit bits).length = bits.length := by
  induction l generalizing bits with
  | nil => rfl
  | cons i l ih => rw [foldl_cons, ih, length_setBit]

theorem getBit_foldl_setBit (l : List Nat) (hl : ∀ i ∈ l, i < kBitsPerByte * bits.length) (k : Nat) :
    getBit (l.foldl setBit bits) k = (getBit bits k || decide (k ∈ l)) := by
  induction l generalizing bits with
  | nil => simp
  | cons i l ih =>
    rw [foldl_cons, ih (fun j hj => ?_), getBit_setBit (hl i mem_cons_self)]
    · simp [Bool.or_assoc]
    · rw [length_setBit]
      exact hl j (mem_cons_of_mem i hj)

theorem getBit_replicate (n k : Nat) : getBit (replicate n 0) k = false := by
  grind -linarith [getBit]

/-- The first `n` bytes are set to ones. -/
theorem getD_foldl_set (n : Nat) (bits : List Byte) (hn : n ≤ bits.length) (j : Nat) :
    ((List.range n).foldl (fun bits j => bits.set j 0xFF) bits).length = bits.length ∧
      ((List.range n).foldl (fun bits j => bits.set j 0xFF) bits).getD j 0 =
        if j < n then 0xFF else bits.getD j 0 := by
  induction n generalizing j with
  | zero => simp
  | succ n ih =>
    rw [range_succ, foldl_append, foldl_cons, foldl_nil]
    have hlen := (ih (by omega) j).1
    refine ⟨by rw [length_set, hlen], ?_⟩
    rw [getD_eq_getElem?_getD, getElem?_set]
    by_cases hj : n = j
    · subst hj
      have : n < bits.length := by omega
      grind -linarith
    · rw [if_neg hj, ← getD_eq_getElem?_getD, (ih (by omega) j).2]
      grind -linarith

/-- The bits of a bitmap: the register bytes, then the slots from the end. -/
theorem getBit_bitmap (hs : Fits numRegBytes bitsPerEntry s) (k : Nat) :
    getBit (bitmap numRegBytes bitsPerEntry s) k = ((if s.withRegisters then decide (k ∈ s.registers)
        else decide (k < kNumSafepointRegisters numRegBytes)) ||
      decide (∃ slot ∈ s.indexes, k = totalBits numRegBytes bitsPerEntry - 1 - slot)) := by
  have hbytes : totalBits numRegBytes bitsPerEntry ≤ kBitsPerByte * bytesPerEntry numRegBytes bitsPerEntry := by
    simp only [bytesPerEntry, kBitsPerByte]
    omega
  have hregs : numRegBytes ≤ bytesPerEntry numRegBytes bitsPerEntry := by
    simp only [bytesPerEntry, totalBits, kNumSafepointRegisters, kBitsPerByte]
    omega
  have hslots : ∀ i ∈ s.indexes.map fun slot => totalBits numRegBytes bitsPerEntry - 1 - slot,
      i < kBitsPerByte * bytesPerEntry numRegBytes bitsPerEntry := by
    intro i hi
    obtain ⟨slot, hslot, rfl⟩ := mem_map.1 hi
    have := hs.indexes slot hslot
    simp only [totalBits] at hbytes ⊢
    omega
  have hregisters : ∀ r ∈ s.registers, r < kBitsPerByte *
      (replicate (bytesPerEntry numRegBytes bitsPerEntry) (0 : Byte)).length := by
    intro r hr
    have := hs.registers r hr
    rw [length_replicate]
    exact Nat.lt_of_lt_of_le this (Nat.mul_le_mul_left _ hregs)
  have hnone := fun j => getD_foldl_set numRegBytes
    (replicate (bytesPerEntry numRegBytes bitsPerEntry) 0) (by simpa using hregs) j
  have hmem : decide (k ∈ s.indexes.map fun slot => totalBits numRegBytes bitsPerEntry - 1 - slot) =
      decide (∃ slot ∈ s.indexes, k = totalBits numRegBytes bitsPerEntry - 1 - slot) := by
    grind -linarith
  have hfirst : ∀ bits : List Byte, bits.length = bytesPerEntry numRegBytes bitsPerEntry →
      getBit (s.indexes.foldl (fun bits slot =>
        setBit bits (totalBits numRegBytes bitsPerEntry - 1 - slot)) bits) k =
      (getBit bits k || decide (∃ slot ∈ s.indexes, k = totalBits numRegBytes bitsPerEntry - 1 - slot)) := by
    intro bits hbits
    rw [← hmem, ← foldl_map, getBit_foldl_setBit]
    rwa [hbits]
  rw [bitmap, hfirst]
  · congr 1
    split
    · rw [getBit_foldl_setBit _ hregisters, getBit_replicate, Bool.false_or]
    · rw [getBit, (hnone _).2]
      have hk : k / kBitsPerByte < numRegBytes ↔ k < kNumSafepointRegisters numRegBytes := by
        simp only [kNumSafepointRegisters, kBitsPerByte]
        omega
      split
      · next hlt =>
        have hbit : k % kBitsPerByte < 8 := Nat.mod_lt k (by decide)
        rw [decide_eq_true (hk.1 hlt)]
        exact (by decide : ∀ j < 8, (0xFF : Byte).getLsbD j = true) _ hbit
      · next hlt =>
        rw [decide_eq_false (fun h => hlt (hk.2 h))]
        exact getBit_replicate _ k
  · split
    · rw [length_foldl_setBit, length_replicate]
    · rw [(hnone 0).1, length_replicate]

theorem length_bitmap (s : Safepoint) :
    (bitmap numRegBytes bitsPerEntry s).length = bytesPerEntry numRegBytes bitsPerEntry := by
  have hregs : numRegBytes ≤ bytesPerEntry numRegBytes bitsPerEntry := by
    simp only [bytesPerEntry, totalBits, kNumSafepointRegisters, kBitsPerByte]
    omega
  rw [bitmap, ← foldl_map, length_foldl_setBit]
  split
  · rw [length_foldl_setBit, length_replicate]
  · rw [(getD_foldl_set _ _ (by simpa using hregs) 0).1, length_replicate]

/-! ## The memory -/

theorem uint32At_dd {memory rest : List Byte} {a : Nat} (front : List Byte) (w : BitVec 32)
    (h : memory = front ++ (dd w ++ rest)) (ha : a = front.length) : uint32At memory a = w := by
  subst h ha
  have hbyte : ∀ j < 4, uint8At (front ++ (dd w ++ rest)) (front.length + j) = w.extractLsb' (8 * j) 8 := by
    intro j hj
    rw [uint8At, getD_eq_getElem?_getD, getElem?_append_right (Nat.le_add_right _ _),
      Nat.add_sub_cancel_left]
    rcases j with _ | _ | _ | _ | j
    · rfl
    · rfl
    · rfl
    · rfl
    · omega
  have hfirst := hbyte 0 (by decide)
  rw [Nat.add_zero] at hfirst
  rw [uint32At, hfirst, hbyte 1 (by decide), hbyte 2 (by decide), hbyte 3 (by decide)]
  apply BitVec.eq_of_getLsbD_eq
  intro j hj
  simp only [BitVec.getLsbD_append, BitVec.getLsbD_extractLsb']
  by_cases h₁ : j < 8
  · simp [h₁]
  by_cases h₂ : j - 8 < 8
  · grind
  by_cases h₃ : j - 8 - 8 < 8
  · grind
  · grind

/-- Where the parts of the table lie. -/
structure Layout (numRegBytes bitsPerEntry : Nat) (header : Nat) (memory : List Byte)
    (safepoints : List Safepoint) : Prop where
  length : (uint32At memory header).toNat = safepoints.length
  entrySize : (uint32At memory (header + kIntSize)).toNat = bytesPerEntry numRegBytes bitsPerEntry
  pc : ∀ (front : List Safepoint) (s : Safepoint) rest, safepoints = front ++ s :: rest →
    uint32At memory (header + kHeaderSize + front.length * kPcAndDeoptimizationIndexSize) = .ofNat 32 s.pc
  info : ∀ (front : List Safepoint) s rest, safepoints = front ++ s :: rest →
    uint32At memory (header + kHeaderSize + front.length * kPcAndDeoptimizationIndexSize + kIntSize) =
      encodeExceptPC s
  bits : ∀ (front : List Safepoint) s rest, safepoints = front ++ s :: rest →
    ∀ j < bytesPerEntry numRegBytes bitsPerEntry,
      uint8At memory (header + kHeaderSize + safepoints.length * kPcAndDeoptimizationIndexSize +
        front.length * bytesPerEntry numRegBytes bitsPerEntry + j) =
      (bitmap numRegBytes bitsPerEntry s).getD j 0

theorem length_dd (w : BitVec 32) : (dd w).length = 4 := rfl

theorem length_flatMap_const {α γ : Type} {n : Nat} (f : α → List γ) (hf : ∀ a, (f a).length = n)
    (l : List α) : (l.flatMap f).length = l.length * n := by
  simp [hf]

theorem emit_layout (hlen : safepoints.length < 2 ^ 32)
    (hbytes : bytesPerEntry numRegBytes bitsPerEntry < 2 ^ 32) :
    Layout numRegBytes bitsPerEntry code.length (emit numRegBytes bitsPerEntry code safepoints) safepoints := by
  have hpairs : ∀ l : List Safepoint,
      (l.flatMap fun s => dd (.ofNat 32 s.pc) ++ dd (encodeExceptPC s)).length = l.length * 8 :=
    length_flatMap_const _ fun s => rfl
  have hmaps : ∀ l : List Safepoint, (l.flatMap (bitmap numRegBytes bitsPerEntry)).length =
      l.length * bytesPerEntry numRegBytes bitsPerEntry :=
    length_flatMap_const _ fun s => length_bitmap s
  let header := dd (.ofNat 32 safepoints.length) ++
    dd (.ofNat 32 (bytesPerEntry numRegBytes bitsPerEntry))
  have hmemory : ∀ (front : List Safepoint) (s : Safepoint) rest, safepoints = front ++ s :: rest →
      emit numRegBytes bitsPerEntry code safepoints =
        (code ++ header ++ front.flatMap fun s => dd (.ofNat 32 s.pc) ++ dd (encodeExceptPC s)) ++
        (dd (.ofNat 32 s.pc) ++ dd (encodeExceptPC s) ++
          ((rest.flatMap fun s => dd (.ofNat 32 s.pc) ++ dd (encodeExceptPC s)) ++
          safepoints.flatMap (bitmap numRegBytes bitsPerEntry))) := by
    intro front s rest hsplit
    rw [emit]
    nth_rewrite 2 [hsplit]
    simp [append_assoc, header]
  refine ⟨?_, ?_, ?_, ?_, ?_⟩
  · have hword : uint32At (emit numRegBytes bitsPerEntry code safepoints) code.length =
        .ofNat 32 safepoints.length :=
      uint32At_dd code _ (by simp only [emit, append_assoc]; rfl) rfl
    grind
  · have hword : uint32At (emit numRegBytes bitsPerEntry code safepoints) (code.length + kIntSize) =
        .ofNat 32 (bytesPerEntry numRegBytes bitsPerEntry) := by
      refine uint32At_dd (code ++ dd (.ofNat 32 safepoints.length)) _
        (by simp only [emit, append_assoc]; rfl) ?_
      rw [length_append, length_dd]
      rfl
    grind
  · rintro front s rest hsplit
    rw [hmemory front s rest hsplit, append_assoc (dd (.ofNat 32 s.pc))]
    refine uint32At_dd _ _ rfl ?_
    simp only [length_append, hpairs, header, length_dd]
    rfl
  · rintro front s rest hsplit
    rw [hmemory front s rest hsplit, append_assoc (dd (.ofNat 32 s.pc)), ← append_assoc]
    refine uint32At_dd _ _ rfl ?_
    simp only [length_append, hpairs, header, length_dd]
    rfl
  · rintro front s rest hsplit j hj
    have hmemory : emit numRegBytes bitsPerEntry code safepoints = (code ++ header ++
        (safepoints.flatMap fun s => dd (.ofNat 32 s.pc) ++ dd (encodeExceptPC s)) ++
        front.flatMap (bitmap numRegBytes bitsPerEntry)) ++ (bitmap numRegBytes bitsPerEntry s ++
        rest.flatMap (bitmap numRegBytes bitsPerEntry)) := by
      rw [emit]
      nth_rewrite 3 [hsplit]
      simp [append_assoc, header]
    rw [hmemory, uint8At, getD_eq_getElem?_getD, getElem?_append_right,
      getElem?_append_left, getD_eq_getElem?_getD]
    · congr 2
      simp only [length_append, hpairs, hmaps, header, length_dd, kHeaderSize, kIntSize,
        kPcAndDeoptimizationIndexSize]
      omega
    · rw [length_bitmap]
      simp only [length_append, hpairs, hmaps, header, length_dd, kHeaderSize, kIntSize,
        kPcAndDeoptimizationIndexSize]
      omega
    · simp only [length_append, hpairs, hmaps, header, length_dd, kHeaderSize, kIntSize,
        kPcAndDeoptimizationIndexSize]
      omega

/-! ## Round trips -/

/-- What an entry says of a safepoint. Register bytes of ones are reserved: they say that
there are no registers. -/
structure Matches (numRegBytes bitsPerEntry : Nat) (memory : List Byte) (s : Safepoint)
    (e : SafepointEntry) : Prop where
  deoptimizationIndex : e.deoptimizationIndex = s.deoptimizationIndex
  gapCodeSize : s.pc + e.gapCodeSize = s.pcAfterGap
  argumentCount : e.argumentCount = s.arguments
  hasDoubles : e.hasDoubles = s.withDoubles
  slots : ∀ slot < bitsPerEntry,
    (e.bitAt memory (totalBits numRegBytes bitsPerEntry - 1 - slot) ↔ slot ∈ s.indexes)
  padding : ∀ k < kBitsPerByte * bytesPerEntry numRegBytes bitsPerEntry,
    totalBits numRegBytes bitsPerEntry ≤ k → e.bitAt memory k = false
  registers : s.withRegisters → ∀ r < kNumSafepointRegisters numRegBytes, (e.bitAt memory r ↔ r ∈ s.registers)
  hasRegisters : e.hasRegisters numRegBytes memory ↔
    s.withRegisters ∧ ∃ r < kNumSafepointRegisters numRegBytes, r ∉ s.registers

theorem bitmap_slots (hs : Fits numRegBytes bitsPerEntry s) {slot : Nat} (hslot : slot < bitsPerEntry) :
    getBit (bitmap numRegBytes bitsPerEntry s) (totalBits numRegBytes bitsPerEntry - 1 - slot) ↔
      slot ∈ s.indexes := by
  have hreg : kNumSafepointRegisters numRegBytes ≤ totalBits numRegBytes bitsPerEntry - 1 - slot := by
    simp only [totalBits]
    omega
  have hfirst : (if s.withRegisters then
      decide (totalBits numRegBytes bitsPerEntry - 1 - slot ∈ s.registers)
      else decide (totalBits numRegBytes bitsPerEntry - 1 - slot <
        kNumSafepointRegisters numRegBytes)) = false := by
    split
    · exact decide_eq_false fun h => Nat.not_lt.2 hreg (hs.registers _ h)
    · exact decide_eq_false (Nat.not_lt.2 hreg)
  rw [getBit_bitmap hs, hfirst, Bool.false_or, decide_eq_true_iff]
  constructor
  · rintro ⟨other, hother, heq⟩
    have := hs.indexes other hother
    simp only [totalBits] at heq
    obtain rfl : slot = other := by omega
    exact hother
  · exact fun h => ⟨slot, h, rfl⟩

theorem bitmap_padding (hs : Fits numRegBytes bitsPerEntry s) {k : Nat}
    (hk : totalBits numRegBytes bitsPerEntry ≤ k) :
    getBit (bitmap numRegBytes bitsPerEntry s) k = false := by
  have hreg := le_trans (Nat.le_add_left _ _) hk
  rw [getBit_bitmap hs, Bool.or_eq_false_iff]
  constructor
  · split
    · exact decide_eq_false fun h => Nat.not_lt.2 hreg (hs.registers _ h)
    · exact decide_eq_false (Nat.not_lt.2 hreg)
  · rw [decide_eq_false_iff_not]
    rintro ⟨slot, hslot, rfl⟩
    have := hs.indexes slot hslot
    simp only [totalBits] at hk
    omega

theorem bitmap_registers (hs : Fits numRegBytes bitsPerEntry s) {r : Nat}
    (hr : r < kNumSafepointRegisters numRegBytes) :
    getBit (bitmap numRegBytes bitsPerEntry s) r =
      if s.withRegisters then decide (r ∈ s.registers) else true := by
  have hslots : ¬∃ slot ∈ s.indexes, r = totalBits numRegBytes bitsPerEntry - 1 - slot := by
    rintro ⟨slot, hslot, rfl⟩
    have := hs.indexes slot hslot
    simp only [totalBits] at hr
    omega
  rw [getBit_bitmap hs, decide_eq_false hslots, Bool.or_false, decide_eq_true hr]

theorem eq_ones_iff (b : Byte) : b = 0xFF ↔ ∀ i < 8, b.getLsbD i = true := by
  constructor
  · rintro rfl i hi
    exact (by decide : ∀ i < 8, (0xFF : Byte).getLsbD i = true) i hi
  · intro h
    apply BitVec.eq_of_getLsbD_eq
    intro i hi
    rw [h i hi, (by decide : ∀ i < 8, (0xFF : Byte).getLsbD i = true) i hi]

section Read

variable {memory : List Byte} {header : Nat} (h : Layout numRegBytes bitsPerEntry header memory safepoints)
include h

theorem Layout.getPcOffset (hpairs : safepoints.length * kPcAndDeoptimizationIndexSize < 2 ^ 32)
    (hsplit : safepoints = front ++ s :: rest) :
    (SafepointTable.read memory header).getPcOffset memory front.length = .ofNat 32 s.pc := by
  have hle : front.length ≤ safepoints.length := by simp [hsplit]
  rw [SafepointTable.getPcOffset, SafepointTable.read,
    Nat.mod_eq_of_lt (Nat.lt_of_le_of_lt (Nat.mul_le_mul_right _ hle) hpairs)]
  exact h.pc front s rest hsplit

/-- The entry of a safepoint gives back what has been recorded. -/
theorem Layout.getEntry_matches (hpairs : safepoints.length * kPcAndDeoptimizationIndexSize < 2 ^ 32)
    (hmaps : safepoints.length * bytesPerEntry numRegBytes bitsPerEntry < 2 ^ 32)
    (hsplit : safepoints = front ++ s :: rest) (hs : Fits numRegBytes bitsPerEntry s) :
    Matches numRegBytes bitsPerEntry memory s
      ((SafepointTable.read memory header).getEntry memory front.length) := by
  let e := (SafepointTable.read memory header).getEntry memory front.length
  have hle : front.length ≤ safepoints.length := by simp [hsplit]
  have hinfo : e.info = encodeExceptPC s := by
    simp only [e, SafepointTable.getEntry, SafepointTable.read]
    rw [Nat.mod_eq_of_lt (Nat.lt_of_le_of_lt (Nat.mul_le_mul_right _ hle) hpairs)]
    exact h.info front s rest hsplit
  have hbits : e.bits = header + kHeaderSize + safepoints.length * kPcAndDeoptimizationIndexSize +
      front.length * bytesPerEntry numRegBytes bitsPerEntry := by
    simp only [e, SafepointTable.getEntry, SafepointTable.read, h.length, h.entrySize]
    rw [Nat.mod_eq_of_lt hpairs, Nat.mod_eq_of_lt (Nat.lt_of_le_of_lt (Nat.mul_le_mul_right _ hle) hmaps)]
  have hbyte : ∀ j < bytesPerEntry numRegBytes bitsPerEntry, uint8At memory (e.bits + j) =
      (bitmap numRegBytes bitsPerEntry s).getD j 0 := by
    intro j hj
    rw [hbits]
    exact h.bits front s rest hsplit j hj
  have hbit : ∀ k < kBitsPerByte * bytesPerEntry numRegBytes bitsPerEntry,
      e.bitAt memory k = getBit (bitmap numRegBytes bitsPerEntry s) k := by
    intro k hk
    rw [SafepointEntry.bitAt, getBit, hbyte _ (Nat.div_lt_of_lt_mul hk)]
  have htotal : totalBits numRegBytes bitsPerEntry ≤ kBitsPerByte * bytesPerEntry numRegBytes bitsPerEntry := by
    simp only [bytesPerEntry, kBitsPerByte]
    omega
  have hregs := Nat.le_trans (Nat.le_add_left _ _) htotal
  have hgap : (BitVec.ofNat 32 s.pcAfterGap - BitVec.ofNat 32 s.pc).toNat = s.pcAfterGap - s.pc := by
    have := hs.gap
    have := hs.pcAfterGap
    grind -linarith
  have hsize : ∀ f : BitField, ∀ v : Nat, f.size ≤ 32 → f.isValid v → (BitVec.ofNat 32 v).toNat = v := by
    intro f v hf hv
    have hlt : v < 2 ^ f.size := by simpa [BitField.isValid] using hv
    rw [BitVec.toNat_ofNat, Nat.mod_eq_of_lt]
    exact Nat.lt_of_lt_of_le hlt (Nat.pow_le_pow_right (by decide) hf)
  have hindex := hsize _ _ (by decide) hs.deoptimizationIndex
  have harguments := hsize _ _ (by decide) hs.arguments
  have hfields := decode_fields (.ofNat 32 s.pcAfterGap - .ofNat 32 s.pc)
    (.ofNat 32 s.deoptimizationIndex) (.ofNat 32 s.arguments) (if s.withDoubles then 1 else 0)
    (hgap ▸ of_decide_eq_true hs.gapCodeSize)
    (hindex.symm ▸ of_decide_eq_true hs.deoptimizationIndex)
    (harguments.symm ▸ of_decide_eq_true hs.arguments)
    (by cases s.withDoubles <;> decide)
  obtain ⟨h₁, h₂, h₃, h₄⟩ := hfields
  rw [← encodeExceptPC, ← hinfo] at h₁ h₂ h₃ h₄
  refine ⟨?_, ?_, ?_, ?_, ?_, ?_, ?_, ?_⟩
  · show (deoptimizationIndexField.decode e.info).toNat = _
    rw [h₂, hindex]
  · show s.pc + (gapCodeSizeField.decode e.info).toNat = _
    rw [h₁, hgap]
    exact Nat.add_sub_cancel' hs.gap
  · show (argumentsField.decode e.info).toNat = _
    rw [h₃, harguments]
  · show decide (saveDoublesField.decode e.info ≠ 0) = _
    rw [h₄]
    cases s.withDoubles <;> rfl
  · intro slot hslot
    rw [hbit _ (by simp only [totalBits] at htotal ⊢; omega)]
    exact bitmap_slots hs hslot
  · intro k hk hle
    rw [hbit k hk]
    exact bitmap_padding hs hle
  · intro hwith r hr
    rw [hbit r (Nat.lt_of_lt_of_le hr hregs), bitmap_registers hs hr, if_pos hwith, decide_eq_true_iff]
  · have hones : ∀ i < numRegBytes, (uint8At memory (e.bits + i) = 0xFF ↔
        ∀ j < 8, getBit (bitmap numRegBytes bitsPerEntry s) (8 * i + j) = true) := by
      intro i hi
      have hle : i < bytesPerEntry numRegBytes bitsPerEntry := by
        simp only [bytesPerEntry, totalBits, kNumSafepointRegisters, kBitsPerByte]
        omega
      rw [hbyte i hle, eq_ones_iff]
      refine forall₂_congr fun j hj => ?_
      have hdiv : (8 * i + j) / kBitsPerByte = i := by
        simp only [kBitsPerByte]
        omega
      have hmod : (8 * i + j) % kBitsPerByte = j := by
        simp only [kBitsPerByte]
        omega
      rw [getBit, hdiv, hmod]
    have hlt : ∀ i < numRegBytes, ∀ j < 8, 8 * i + j < kNumSafepointRegisters numRegBytes := by
      simp only [kNumSafepointRegisters, kBitsPerByte]
      omega
    rw [SafepointEntry.hasRegisters, any_eq_true]
    constructor
    · rintro ⟨i, hi, hne⟩
      rw [mem_range] at hi
      rw [decide_eq_true_iff] at hne
      have hsome : ¬∀ j < 8, getBit (bitmap numRegBytes bitsPerEntry s) (8 * i + j) = true :=
        fun hall => hne ((hones i hi).2 hall)
      push Not at hsome
      obtain ⟨j, hj, hclear⟩ := hsome
      rw [bitmap_registers hs (hlt i hi j hj)] at hclear
      grind -linarith
    · rintro ⟨hwith, r, hr, hnot⟩
      have hi : r / 8 < numRegBytes := by
        simp only [kNumSafepointRegisters, kBitsPerByte] at hr
        omega
      refine ⟨r / 8, mem_range.2 hi, decide_eq_true fun heq => hnot ?_⟩
      have hset := (hones _ hi).1 heq (r % 8) (Nat.mod_lt r (by decide))
      rw [Nat.div_add_mod, bitmap_registers hs hr, if_pos hwith] at hset
      exact of_decide_eq_true hset

theorem Layout.findEntry_some (hpairs : safepoints.length * kPcAndDeoptimizationIndexSize < 2 ^ 32)
    {pcOffset : Int} (hsplit : safepoints = front ++ s :: rest)
    (hfirst : ∀ q ∈ front, BitVec.ofNat 32 q.pc ≠ BitVec.ofInt 32 pcOffset)
    (hpc : BitVec.ofNat 32 s.pc = BitVec.ofInt 32 pcOffset) :
    (SafepointTable.read memory header).findEntry memory pcOffset =
      some ((SafepointTable.read memory header).getEntry memory front.length) := by
  have hlt : front.length < (SafepointTable.read memory header).length := by
    simp [SafepointTable.read, h.length, hsplit]
  refine congrArg (Option.map _) (find?_range_eq_some.2 ⟨?_, mem_range.2 hlt, ?_⟩)
  · rw [h.getPcOffset hpairs hsplit, hpc]
    simp
  · intro j hj
    have hj' : front = front.take j ++ front[j] :: front.drop (j + 1) := by
      simp
    have hsplit' : safepoints = front.take j ++ front[j] :: (front.drop (j + 1) ++ s :: rest) := by
      grind
    have hpc' := h.getPcOffset hpairs hsplit'
    grind

theorem Layout.findEntry_none (hpairs : safepoints.length * kPcAndDeoptimizationIndexSize < 2 ^ 32)
    {pcOffset : Int} (hpc : ∀ s ∈ safepoints, BitVec.ofNat 32 s.pc ≠ BitVec.ofInt 32 pcOffset) :
    (SafepointTable.read memory header).findEntry memory pcOffset = none := by
  rw [SafepointTable.findEntry, Option.map_eq_none_iff, find?_eq_none]
  intro j hj
  rw [mem_range] at hj
  simp only [SafepointTable.read, h.length] at hj
  have hsplit : safepoints = safepoints.take j ++ safepoints[j] :: safepoints.drop (j + 1) := by
    simp
  have hpc' := h.getPcOffset hpairs hsplit
  grind

end Read

/-- The safepoints of increasing pcs are read back, and no others. The offset of the pc is
compared in 32 bits. -/
theorem emit_roundTrips (numRegBytes bitsPerEntry : Nat) (code : List Byte)
    (safepoints : List Safepoint) (pcOffset : Int)
    (hincreasing : safepoints.Pairwise (·.pc < ·.pc))
    (hfits : ∀ s ∈ safepoints, Fits numRegBytes bitsPerEntry s)
    (hbits : totalBits numRegBytes bitsPerEntry < 2 ^ 31)
    (hsize : (emit numRegBytes bitsPerEntry code safepoints).length < 2 ^ 31) :
    let memory := emit numRegBytes bitsPerEntry code safepoints
    let entry := (SafepointTable.read memory code.length).findEntry memory pcOffset
    (∀ s ∈ safepoints, BitVec.ofNat 32 s.pc = BitVec.ofInt 32 pcOffset →
      ∃ e, entry = some e ∧ Matches numRegBytes bitsPerEntry memory s e) ∧
    ((∀ s ∈ safepoints, BitVec.ofNat 32 s.pc ≠ BitVec.ofInt 32 pcOffset) → entry = none) := by
  have hlength : (emit numRegBytes bitsPerEntry code safepoints).length = code.length + 4 + 4 +
      safepoints.length * 8 + safepoints.length * bytesPerEntry numRegBytes bitsPerEntry := by
    have hinfos : (safepoints.flatMap fun s => dd (.ofNat 32 s.pc) ++ dd (encodeExceptPC s)).length =
        safepoints.length * 8 := length_flatMap_const (n := 8) _ (fun _ => rfl) _
    simp only [emit, length_append, length_dd, hinfos, length_flatMap_const _ length_bitmap]
  have hbytes : bytesPerEntry numRegBytes bitsPerEntry < 2 ^ 32 := by
    simp only [bytesPerEntry, kBitsPerByte]
    omega
  have hpairs : safepoints.length * kPcAndDeoptimizationIndexSize < 2 ^ 32 := by
    simp only [kPcAndDeoptimizationIndexSize, kIntSize]
    omega
  have layout : Layout numRegBytes bitsPerEntry code.length
      (emit numRegBytes bitsPerEntry code safepoints) safepoints := emit_layout (by omega) hbytes
  refine ⟨fun s hs hpc => ?_, layout.findEntry_none hpairs⟩
  obtain ⟨front, rest, hsplit⟩ := append_of_mem hs
  have hfirst : ∀ q ∈ front, BitVec.ofNat 32 q.pc ≠ BitVec.ofInt 32 pcOffset := by
    intro q hq heq
    have hlt : q.pc < s.pc := by
      grind
    have hfit := hfits s hs
    have hlarge : s.pc < 2 ^ 32 := by
      have := hfit.gap
      have := hfit.pcAfterGap
      omega
    have hnat := congrArg BitVec.toNat (heq.trans hpc.symm)
    grind
  exact ⟨_, layout.findEntry_some hpairs hsplit hfirst hpc,
    layout.getEntry_matches hpairs (by omega) hsplit (hfits s hs)⟩

/-- Two safepoints, at 5 with a register and two slots, and at 9 without registers. -/
def smallTable : List Safepoint :=
  [⟨5, true, false, 7, 8, 1, [0, 4], [3]⟩, ⟨9, false, true, 2 ^ 15 - 1, 9, 0, [2], []⟩]

theorem smallTable_fits : ∀ s ∈ smallTable, Fits 1 5 s := by
  intro s hs
  simp only [smallTable, mem_cons, not_mem_nil, or_false] at hs
  rcases hs with rfl | rfl <;> exact ⟨by decide, by decide, by decide, by decide, by decide,
    by decide, by decide⟩

theorem emit_roundTrips_small : let memory := emit 1 5 [0, 0, 0, 0] smallTable
    let entry := (SafepointTable.read memory 4).findEntry memory 5
    ∃ e, entry = some e ∧ Matches 1 5 memory ⟨5, true, false, 7, 8, 1, [0, 4], [3]⟩ e :=
  (emit_roundTrips 1 5 [0, 0, 0, 0] smallTable 5 (by decide) smallTable_fits (by decide)
    (by decide)).1 _ mem_cons_self rfl

/-- A safepoint where all registers are pointers reads as one without registers. -/
theorem allRegisters_reads_none : let s : Safepoint := ⟨5, true, false, 7, 8, 1, [0], List.range 8⟩
    let memory := emit 1 1 [0, 0, 0, 0] [s]
    Fits 1 1 s ∧ s.withRegisters ∧ ∃ e, (SafepointTable.read memory 4).findEntry memory 5 = some e ∧
        e.hasRegisters 1 memory = false := by
  refine ⟨⟨by decide, by decide, by decide, by decide, by decide, by decide, by decide⟩, rfl,
    ⟨_, _⟩, rfl, by decide⟩

end W16.Safepoints
