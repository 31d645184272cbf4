import W16.StringBlocks

/-!
# All readings of a string agree

The characters of a string are those of its leaves. What the block readers deliver, what is
written to flat memory and what `Get` returns are these characters.
-/
namespace W16.StringBlocks

open Unibrow Option

set_option linter.dupNamespace false

variable {s : Nat}

/-! ## Characters -/

def FlatString.chars : FlatString → List Nat
  | .seqAscii chars => chars.map (·.val.toNat)
  | .seqTwoByte chars => chars.map (·.toNat)
  | .externalAscii data => data.map (·.val.toNat)
  | .externalTwoByte data => data.map (·.toNat)

/-- The characters of the leaves. -/
def Str.chars : Str → List Nat
  | .flat string => string.chars
  | .cons first second => first.chars ++ second.chars
  | .sliced parent offset length _ => (parent.chars.drop offset).take length

@[simp] theorem FlatString.length_chars (string : FlatString) : string.chars.length = string.length := by
  cases string <;> exact List.length_map _

@[simp] theorem Str.length_chars (str : Str) : str.chars.length = str.length := by
  induction str with
  | flat string => exact string.length_chars
  | cons first second ih₁ ih₂ => rw [Str.chars, List.length_append, ih₁, ih₂, Str.length]
  | sliced parent offset length h =>
    rw [Str.chars, List.length_take, List.length_drop, parent.length_chars, Str.length]
    omega

/-- A range of a string. -/
def Str.range (str : Str) (offset n : Nat) : List Nat := (str.chars.drop offset).take n

variable {offset length maxChars : Nat} {str : Str} {parent : FlatString} {buffer : Vector UInt8 s}
  {cs : List Nat} {rbb : ReadBlockBuffer s}

theorem Str.length_range {n : Nat} (h : offset + n ≤ str.length) : (str.range offset n).length = n := by
  rw [Str.range, List.length_take, List.length_drop, str.length_chars]
  omega

theorem Str.range_sliced {start n : Nat} (h : start + length ≤ parent.length) (hn : offset + n ≤ length) :
    (Str.sliced parent start length h).range offset n = (Str.flat parent).range (offset + start) n := by
  rw [Str.range, Str.chars, Str.range, Str.chars, List.drop_take, List.take_take, List.drop_drop,
    min_eq_left (by omega), add_comm]

theorem Str.range_left {first second : Str} {n : Nat} (h : offset + n ≤ first.length) :
    (Str.cons first second).range offset n = first.range offset n := by
  have hlen := first.length_chars
  grind [Str.range, Str.chars]

theorem Str.range_right {first second : Str} {n : Nat} (h : first.length ≤ offset) :
    (Str.cons first second).range offset n = second.range (offset - first.length) n := by
  simp [Str.range, Str.chars, List.drop_append, List.drop_of_length_le, h]

theorem Str.range_add (str : Str) (offset m n : Nat) :
    str.range offset (m + n) = str.range offset m ++ str.range (offset + m) n := by
  rw [Str.range, Str.range, Str.range, ← List.drop_drop, List.take_add]

/-! ## Writes into the buffer -/

theorem Holds.append {read : Nat → Option UInt8} {i j k : Nat} {a b : List Nat} (ha : Holds read i a j)
    (hb : Holds read j b k) : Holds read i (a ++ b) k := by
  induction ha with
  | nil => exact hb
  | cons h _ ih => exact .cons h (ih hb)

/-- The characters between the start and the cursor. -/
structure Fills (rbb : ReadBlockBuffer s) (cs : List Nat) : Prop where
  holds : Holds (fun i => rbb.utilBuffer[i]?) 0 cs rbb.cursor
  remaining : rbb.remaining = cs.length
  cursor : rbb.cursor ≤ s

/-- Characters of `source` from `offset` on are added, and the new offset is behind them. An
empty buffer takes at least one. -/
def Extends (str : Str) (rbb : ReadBlockBuffer s) (cs : List Nat) (offset maxChars : Nat)
    (result : Option (ReadBlockBuffer s × Nat)) : Prop :=
  ∃ rbb' n, result = some (rbb', offset + n) ∧ n ≤ maxChars ∧ Fills rbb' (cs ++ str.range offset n) ∧
    (rbb.cursor = 0 → 0 < maxChars → 0 < n)

theorem encodeAsciiCharacter_le {c offset' : Nat} {buffer' : Vector UInt8 s}
    (h : encodeAsciiCharacter c buffer offset = some (buffer', offset')) : offset' ≤ s := by
  unfold encodeAsciiCharacter at h
  grind

theorem encodeNonAsciiCharacter_le {c offset' : Nat} {buffer' : Vector UInt8 s}
    (h : encodeNonAsciiCharacter c buffer offset = some (buffer', offset')) : offset' ≤ s := by
  unfold encodeNonAsciiCharacter at h
  grind

/-- One character of two bytes. -/
theorem encode_spec {c : UInt16} {cursor : Nat} {r : Vector UInt8 s × Nat}
    (h : (if c.toNat ≤ kMaxOneByteChar then encodeAsciiCharacter c.toNat buffer cursor
      else encodeNonAsciiCharacter c.toNat buffer cursor) = some r) :
    decodeCharacter (fun i => r.1[i]?) cursor = some (c.toNat, r.2) ∧ (∀ n < cursor, r.1[n]? = buffer[n]?) ∧
      r.2 ≤ s := by
  have hc := c.toNat_lt
  split at h
  · rename_i hascii
    obtain ⟨hdec, hsame⟩ := encodeAsciiCharacter_spec hascii h
    exact ⟨hdec, hsame, encodeAsciiCharacter_le h⟩
  · obtain ⟨hdec, hsame⟩ := encodeNonAsciiCharacter_spec (by omega) h
    exact ⟨hdec, hsame, encodeNonAsciiCharacter_le h⟩

theorem encode_empty (hs : 8 ≤ s) (c : UInt16) (buffer : Vector UInt8 s) :
    (if c.toNat ≤ kMaxOneByteChar then encodeAsciiCharacter c.toNat buffer 0
      else encodeNonAsciiCharacter c.toNat buffer 0) ≠ none := by
  split
  · exact (fits_empty hs c.toNat buffer).1
  · exact (fits_empty hs c.toNat buffer).2

theorem twoByteReadBlockLoop_spec (hs : 8 ≤ s) {data : List UInt16} : ∀ (left : Nat) (rbb : ReadBlockBuffer s)
    (cs : List Nat) (offset charsRead : Nat), Holds (fun i => rbb.utilBuffer[i]?) 0 cs rbb.cursor → rbb.cursor ≤ s →
    offset + left ≤ data.length →
    ∃ rbb' n, twoByteReadBlockLoop data left rbb offset charsRead = some (rbb', offset + n, charsRead + n) ∧
      n ≤ left ∧ Holds (fun i => rbb'.utilBuffer[i]?) 0
        (cs ++ (((data.map UInt16.toNat).drop offset).take n)) rbb'.cursor ∧
      rbb'.remaining = rbb.remaining ∧ rbb'.cursor ≤ s ∧ (rbb.cursor = 0 → 0 < left → 0 < n) := by
  intro left
  induction left with
  | zero =>
    intro rbb cs offset charsRead hholds hcur _
    exact ⟨rbb, 0, rfl, Nat.le_refl _, by simpa using hholds, rfl, hcur, fun _ h => h⟩
  | succ left ih =>
    intro rbb cs offset charsRead hholds hcur hle
    have hlt : offset < data.length := by omega
    have hget := List.getElem?_eq_getElem hlt
    unfold twoByteReadBlockLoop
    simp only [hget, bind_eq_bind, bind_some]
    cases hwrite : (if data[offset].toNat ≤ kMaxOneByteChar then
        encodeAsciiCharacter data[offset].toNat rbb.utilBuffer rbb.cursor
      else encodeNonAsciiCharacter data[offset].toNat rbb.utilBuffer rbb.cursor) with
    | none =>
      refine ⟨rbb, 0, rfl, Nat.zero_le _, by simpa using hholds, rfl, hcur, fun hzero => ?_⟩
      simp_all [encode_empty]
    | some r =>
      obtain ⟨hdec, hsame, hfits⟩ := encode_spec hwrite
      obtain ⟨rbb', n, hrun, hn, hholds', hrem, hcur', -⟩ :=
        ih { rbb with utilBuffer := r.1, cursor := r.2 } (cs ++ [data[offset].toNat]) (offset + 1) (charsRead + 1)
          ((hholds.congr hsame).snoc hdec) hfits (by omega)
      have hlt' : offset < (data.map UInt16.toNat).length := by rwa [List.length_map]
      refine ⟨rbb', n + 1, ?_, Nat.succ_le_succ hn, ?_, hrem, hcur', fun _ _ => Nat.succ_pos _⟩
      · grind
      · rw [List.drop_eq_getElem_cons hlt', List.take_succ_cons, List.getElem_map]
        rwa [List.append_assoc, List.singleton_append] at hholds'

theorem twoByteReadBlockIntoBuffer_spec (hs : 8 ≤ s) {data : List UInt16}
    (hchars : str.chars = data.map UInt16.toNat)
    (h : Fills rbb cs) (hle : offset + maxChars ≤ str.length) :
    Extends str rbb cs offset maxChars (twoByteReadBlockIntoBuffer data rbb offset maxChars) := by
  have hlen : str.length = data.length := by rw [← str.length_chars, hchars, List.length_map]
  have hdata := hlen ▸ hle
  obtain ⟨rbb', n, hrun, hn, hholds, hrem, hcur, hfirst⟩ :=
    twoByteReadBlockLoop_spec hs maxChars rbb cs offset 0 h.holds h.cursor hdata
  refine ⟨{ rbb' with remaining := rbb'.remaining + n }, n, ?_, hn, ⟨?_, ?_, hcur⟩, hfirst⟩
  · rw [twoByteReadBlockIntoBuffer, hrun, zero_add]
    rfl
  · rw [Str.range, hchars]
    exact hholds
  · have hrange : (str.range offset n).length = n := Str.length_range (by omega)
    rw [List.length_append, hrange, hrem, h.remaining]

theorem memcpy_spec (bytes : List UInt8) : ∀ (buffer : Vector UInt8 s) (start : Nat), start + bytes.length ≤ s →
    ∃ buffer', memcpy buffer start bytes = some buffer' ∧ (∀ n < start, buffer'[n]? = buffer[n]?) ∧
      ∀ i < bytes.length, buffer'[start + i]? = bytes[i]? := by
  induction bytes with
  | nil => exact fun buffer start _ => ⟨buffer, rfl, fun _ _ => rfl, fun i hi => absurd hi (Nat.not_lt_zero i)⟩
  | cons b bytes ih =>
    intro buffer start hle
    rw [List.length_cons] at hle
    have hlt : start < s := by omega
    obtain ⟨buffer', hrun, hbelow, habove⟩ := ih (buffer.set start b) (start + 1) (by omega)
    refine ⟨buffer', ?_, fun n hn => ?_, fun i hi => ?_⟩
    · rw [memcpy, dif_pos hlt, hrun]
    · rw [hbelow n (by omega)]
      exact Vector.getElem?_set_ne hlt (by omega)
    · cases i with
      | zero =>
        rw [add_zero, hbelow start (Nat.lt_succ_self start), List.getElem?_cons_zero]
        exact Vector.getElem?_set_self hlt
      | succ i =>
        grind

/-- ASCII bytes are characters of themselves. -/
theorem holds_ascii (read : Nat → Option UInt8) : ∀ (chars : List AsciiChar) (start : Nat),
    (∀ i < chars.length, read (start + i) = (chars.map Subtype.val)[i]?) →
    Holds read start (chars.map (·.val.toNat)) (start + chars.length) := by
  intro chars
  induction chars with
  | nil => exact fun _ _ => .nil
  | cons b chars ih =>
    intro start hread
    have hfirst : read start = some b.val := hread 0 (Nat.succ_pos _)
    have hrest := ih (start + 1) fun i hi => by
      have hnext := hread (i + 1) (Nat.succ_lt_succ hi)
      rwa [add_comm i 1, ← add_assoc, add_comm 1 i] at hnext
    rw [add_assoc, add_comm 1] at hrest
    exact .cons (decodeCharacter_ascii read hfirst b.property) hrest

theorem elements_eq {α : Type} {data : List α} {count : Nat} (h : offset + count ≤ data.length) :
    elements data offset count = some ((data.drop offset).take count) := if_pos h

theorem asciiReadBlockIntoBuffer_spec (hs : 8 ≤ s) {data : List AsciiChar}
    (hchars : str.chars = data.map (·.val.toNat))
    (h : Fills rbb cs) (hle : offset + maxChars ≤ str.length) :
    Extends str rbb cs offset maxChars (asciiReadBlockIntoBuffer data rbb offset maxChars) := by
  have hlength : str.length = data.length := by rw [← str.length_chars, hchars, List.length_map]
  have hcur := h.cursor
  obtain ⟨n, hn⟩ : ∃ n, n = if maxChars > s - rbb.cursor then s - rbb.cursor else maxChars := ⟨_, rfl⟩
  have hn' : n ≤ maxChars ∧ rbb.cursor + n ≤ s ∧ (rbb.cursor = 0 → 0 < maxChars → 0 < n) := by
    split at hn <;> omega
  have hlen : (((data.drop offset).take n).map Subtype.val).length = n := by
    grind
  obtain ⟨utilBuffer, hrun, hbelow, habove⟩ :=
    memcpy_spec (((data.drop offset).take n).map Subtype.val) rbb.utilBuffer rbb.cursor (by omega)
  refine ⟨⟨utilBuffer, rbb.cursor + n, rbb.remaining + n⟩, n, ?_, hn'.1, ⟨?_, ?_, hn'.2.1⟩, hn'.2.2⟩
  · rw [asciiReadBlockIntoBuffer, if_pos hcur]
    dsimp only
    rw [← hn, elements_eq (by omega)]
    simp only [bind_eq_bind, bind_some, hrun]
    rfl
  · have hascii := holds_ascii (fun i => utilBuffer[i]?) ((data.drop offset).take n) rbb.cursor fun i hi => habove i (by rwa [List.length_map])
    rw [List.length_map] at hlen
    rw [hlen, List.map_take, List.map_drop, ← hchars] at hascii
    exact Holds.append (h.holds.congr hbelow) hascii
  · have hrange : (str.range offset n).length = n := Str.length_range (by omega)
    rw [List.length_append, hrange, h.remaining]

/-! ## Blocks into the buffer -/

theorem flatReadBlockIntoBuffer_spec (hs : 8 ≤ s) (string : FlatString) (h : Fills rbb cs) (hle : offset + maxChars ≤ string.length) :
    Extends (.flat string) rbb cs offset maxChars (flatReadBlockIntoBuffer rbb offset maxChars string) := by
  unfold flatReadBlockIntoBuffer
  split
  · exact ⟨rbb, 0, rfl, Nat.zero_le _, by simpa [Str.range] using h, fun _ hpos => by omega⟩
  · cases string with
    | seqAscii chars => exact asciiReadBlockIntoBuffer_spec hs rfl h hle
    | seqTwoByte chars => exact twoByteReadBlockIntoBuffer_spec hs rfl h hle
    | externalAscii data => exact asciiReadBlockIntoBuffer_spec hs rfl h hle
    | externalTwoByte data => exact twoByteReadBlockIntoBuffer_spec hs rfl h hle

theorem slicedStringReadBlockIntoBuffer_spec (hs : 8 ≤ s) {start : Nat}
    (hpar : start + length ≤ parent.length)
    (h : Fills rbb cs) (hle : offset + maxChars ≤ length) :
    Extends (.sliced parent start length hpar) rbb cs offset maxChars
      (slicedStringReadBlockIntoBuffer parent start rbb offset maxChars) := by
  obtain ⟨rbb', n, hrun, hn, hfills, hfirst⟩ :=
    flatReadBlockIntoBuffer_spec hs parent h (show offset + start + maxChars ≤ parent.length by omega)
  refine ⟨rbb', n, ?_, hn, ?_, hfirst⟩
  · grind [slicedStringReadBlockIntoBuffer]
  · rwa [Str.range_sliced hpar (by omega)]

/-- The correction is added at the end. -/
theorem consStringReadBlockIntoBuffer_correction (current : Str) : ∀ (rbb : ReadBlockBuffer s)
    (offset correction maxChars : Nat), consStringReadBlockIntoBuffer current rbb offset correction maxChars =
      (consStringReadBlockIntoBuffer current rbb offset 0 maxChars).map fun r => (r.1, r.2 + correction) := by
  induction current with
  | flat string => exact fun _ _ _ _ => rfl
  | sliced parent offset length h => exact fun _ _ _ _ => rfl
  | cons left right ihl ihr =>
    intro rbb offset correction maxChars
    unfold consStringReadBlockIntoBuffer
    by_cases hleft : left.length > offset ∧ maxChars ≤ left.length - offset
    · rw [if_pos hleft, if_pos hleft]
      by_cases hcons : left.isCons = true
      · rw [if_pos hcons, if_pos hcons]
        exact ihl rbb offset correction maxChars
      · rw [if_neg hcons, if_neg hcons]
        cases readBlockIntoBufferOf _ left rbb offset maxChars <;> rfl
    · rw [if_neg hleft, if_neg hleft]
      by_cases hright : left.length ≤ offset
      · rw [if_pos hright, if_pos hright]
        by_cases hcons : right.isCons = true
        · rw [if_pos hcons, if_pos hcons, ihr, ihr _ _ (0 + left.length), map_map]
          refine congrFun (congrArg _ (funext fun r => ?_)) _
          grind
        · rw [if_neg hcons, if_neg hcons]
          cases readBlockIntoBufferOf _ right rbb (offset - left.length) maxChars with
          | none => rfl
          | some r =>
            grind
      · rw [if_neg hright, if_neg hright]
        cases readBlockIntoBufferOf _ left rbb offset (left.length - offset) with
        | none => rfl
        | some r =>
          simp only [bind_eq_bind, bind_some]
          by_cases hend : r.2 = left.length
          · rw [if_pos hend, if_pos hend]
            cases readBlockIntoBufferOf _ right r.1 (r.2 - left.length) (maxChars - (left.length - offset)) with
            | none => rfl
            | some r' =>
              grind
          · rw [if_neg hend, if_neg hend]
            rfl

/-- The loop goes on with a string as it would read that string alone. -/
theorem readBlockIntoBuffer_step (current : Str) (rbb : ReadBlockBuffer s) (offset correction : Nat)
    (hmax : maxChars ≠ 0) :
    (if current.isCons then consStringReadBlockIntoBuffer current rbb offset correction maxChars
      else do
        let (rbb, offset) ← readBlockIntoBufferOf
          (fun rbb offset maxChars => consStringReadBlockIntoBuffer current rbb offset 0 maxChars) current rbb offset maxChars
        return (rbb, offset + correction)) =
      (readBlockIntoBuffer current rbb offset maxChars).map fun r => (r.1, r.2 + correction) := by
  by_cases hcons : current.isCons = true
  · rw [if_pos hcons, consStringReadBlockIntoBuffer_correction]
    cases current with
    | cons left right => rw [readBlockIntoBuffer, readBlockIntoBufferOf, if_neg hmax]
    | flat string => cases hcons
    | sliced parent start length h => cases hcons
  · rw [if_neg hcons]
    show readBlockIntoBuffer current rbb offset maxChars >>= _ = _
    cases readBlockIntoBuffer current rbb offset maxChars <;> rfl

theorem readBlockIntoBuffer_cons (left right : Str) (rbb : ReadBlockBuffer s) (offset : Nat)
    (hmax : maxChars ≠ 0) : readBlockIntoBuffer (.cons left right) rbb offset maxChars =
      if left.length > offset ∧ maxChars ≤ left.length - offset then
        (readBlockIntoBuffer left rbb offset maxChars).map fun r => (r.1, r.2 + 0)
      else if left.length ≤ offset then
        (readBlockIntoBuffer right rbb (offset - left.length) maxChars).map fun r => (r.1, r.2 + (0 + left.length))
      else do
        let (rbb, offset') ← readBlockIntoBuffer left rbb offset (left.length - offset)
        if offset' = left.length then
          let (rbb, offset') ← readBlockIntoBuffer right rbb (offset' - left.length) (maxChars - (left.length - offset))
          return (rbb, offset' + (0 + left.length))
        else return (rbb, offset' + 0) := by
  rw [readBlockIntoBuffer, readBlockIntoBufferOf, if_neg hmax]
  rw [consStringReadBlockIntoBuffer, readBlockIntoBuffer_step left rbb offset 0 hmax,
    readBlockIntoBuffer_step right rbb (offset - left.length) (0 + left.length) hmax]
  rfl

theorem readBlockIntoBuffer_spec (hs : 8 ≤ s) (str : Str) : ∀ {rbb : ReadBlockBuffer s} {cs : List Nat}
    (offset maxChars : Nat), Fills rbb cs → offset + maxChars ≤ str.length →
    Extends str rbb cs offset maxChars (readBlockIntoBuffer str rbb offset maxChars) := by
  induction str with
  | flat string =>
    intro rbb cs offset maxChars h hle
    by_cases hmax : maxChars = 0
    · rw [readBlockIntoBuffer, readBlockIntoBufferOf, if_pos hmax]
      exact ⟨rbb, 0, rfl, Nat.zero_le _, by simpa [Str.range] using h, fun _ hpos => by omega⟩
    · rw [readBlockIntoBuffer, readBlockIntoBufferOf, if_neg hmax]
      exact flatReadBlockIntoBuffer_spec hs string h hle
  | sliced parent start length hpar =>
    intro rbb cs offset maxChars h hle
    by_cases hmax : maxChars = 0
    · rw [readBlockIntoBuffer, readBlockIntoBufferOf, if_pos hmax]
      exact ⟨rbb, 0, rfl, Nat.zero_le _, by simpa [Str.range] using h, fun _ hpos => by omega⟩
    · rw [readBlockIntoBuffer, readBlockIntoBufferOf, if_neg hmax]
      exact slicedStringReadBlockIntoBuffer_spec hs hpar h hle
  | cons left right ihl ihr =>
    intro rbb cs offset maxChars h hle
    rw [Str.length] at hle
    by_cases hmax : maxChars = 0
    · rw [readBlockIntoBuffer, readBlockIntoBufferOf, if_pos hmax]
      exact ⟨rbb, 0, rfl, Nat.zero_le _, by simpa [Str.range] using h, fun _ hpos => by omega⟩
    · rw [readBlockIntoBuffer_cons left right rbb offset hmax]
      by_cases hleft : left.length > offset ∧ maxChars ≤ left.length - offset
      · rw [if_pos hleft]
        obtain ⟨rbb', n, hrun, hn, hfills, hfirst⟩ := ihl offset maxChars h (by omega)
        refine ⟨rbb', n, by rw [hrun]; rfl, hn, ?_, hfirst⟩
        rwa [Str.range_left (by omega)]
      · rw [if_neg hleft]
        by_cases hright : left.length ≤ offset
        · rw [if_pos hright]
          obtain ⟨rbb', n, hrun, hn, hfills, hfirst⟩ :=
            ihr (offset - left.length) maxChars h (by omega)
          refine ⟨rbb', n, ?_, hn, ?_, hfirst⟩
          · rw [hrun, map_some]
            congr 2
            omega
          · rwa [Str.range_right hright]
        · -- the block spans both sides
          rw [if_neg hright]
          obtain ⟨rbb', n, hrun, hn, hfills, hfirst⟩ :=
            ihl offset (left.length - offset) h (by omega)
          simp only [hrun, bind_eq_bind, bind_some]
          by_cases hend : offset + n = left.length
          · rw [if_pos hend, hend, Nat.sub_self]
            obtain ⟨rbb'', m, hrun', hm, hfills', -⟩ :=
              ihr 0 (maxChars - (left.length - offset)) hfills (by omega)
            refine ⟨rbb'', n + m, ?_, by omega, ?_, fun hzero _ => by omega⟩
            · simp only [hrun', bind_some]
              rw [show 0 + m + (0 + left.length) = offset + (n + m) by omega]
              rfl
            · rw [Str.range_add, Str.range_left (by omega), Str.range_right (by omega), hend, Nat.sub_self,
                ← List.append_assoc]
              exact hfills'
          · rw [if_neg hend]
            refine ⟨rbb', n, rfl, by omega, ?_, fun hzero _ => hfirst hzero (by omega)⟩
            rwa [Str.range_left (by omega)]

/-! ## Blocks -/

/-- A block of at least one character. -/
def Delivers (str : Str) (offset maxChars : Nat) (result : Option (Block × ReadBlockBuffer s × Nat)) : Prop :=
  ∃ block rbb n k, result = some (block, rbb, offset + n) ∧ 0 < n ∧ n ≤ maxChars ∧ rbb.remaining = n ∧
    Holds (block.read rbb.utilBuffer) 0 (str.range offset n) k

/-- Nothing is in the buffer. -/
def ReadBlockBuffer.Fresh (rbb : ReadBlockBuffer s) : Prop := rbb.cursor = 0 ∧ rbb.remaining = 0

theorem ReadBlockBuffer.Fresh.fills (h : rbb.Fresh) : Fills rbb [] where
  holds := h.1 ▸ .nil
  remaining := h.2
  cursor := h.1 ▸ Nat.zero_le s

/-- What was read into the buffer is a block. -/
theorem Extends.delivers
    {result : Option (ReadBlockBuffer s × Nat)} (h : Extends str rbb [] offset maxChars result) (hfresh : rbb.Fresh)
    (hmax : 0 < maxChars) (hle : offset + maxChars ≤ str.length) :
    Delivers str offset maxChars (result.map fun r => (.util, r.1, r.2)) := by
  obtain ⟨rbb', n, rfl, hn, hfills, hfirst⟩ := h
  have hrange : (str.range offset n).length = n := Str.length_range (by omega)
  refine ⟨.util, rbb', n, rbb'.cursor, rfl, hfirst hfresh.1 hmax, hn, ?_, hfills.holds⟩
  rw [hfills.remaining, List.nil_append, hrange]

theorem asciiReadBlock_spec {data : List AsciiChar} (hchars : str.chars = data.map (·.val.toNat))
    (rbb : ReadBlockBuffer s) (hmax : 0 < maxChars) (hle : offset + maxChars ≤ str.length) :
    Delivers str offset maxChars (some (asciiReadBlock data rbb offset maxChars)) := by
  have hlength : str.length = data.length := by rw [← str.length_chars, hchars, List.length_map]
  have hlen : ((data.drop offset).take maxChars).length = maxChars := by
    rw [List.length_take, List.length_drop]
    omega
  refine ⟨_, _, maxChars, 0 + maxChars, rfl, hmax, le_rfl, rfl, ?_⟩
  have hascii := holds_ascii (fun i => ((data.drop offset).map Subtype.val)[i]?) ((data.drop offset).take maxChars) 0
    fun i hi => by rw [List.map_take, zero_add, List.getElem?_take, if_pos (by omega)]
  rw [hlen] at hascii
  have hrange : str.range offset maxChars = ((data.drop offset).take maxChars).map (·.val.toNat) := by
    rw [Str.range, hchars, List.map_take, List.map_drop]
  rw [hrange]
  exact hascii

theorem flatReadBlock_spec (hs : 8 ≤ s) (string : FlatString)
    (h : rbb.Fresh) (hmax : 0 < maxChars) (hle : offset + maxChars ≤ string.length) :
    Delivers (.flat string) offset maxChars (flatReadBlock rbb offset maxChars string) := by
  have hne : maxChars ≠ 0 := ne_of_gt hmax
  have hinto := (flatReadBlockIntoBuffer_spec hs string h.fills hle).delivers h hmax hle
  unfold flatReadBlockIntoBuffer at hinto
  unfold flatReadBlock
  rw [if_neg hne] at hinto ⊢
  cases string with
  | seqAscii chars => exact asciiReadBlock_spec rfl rbb hmax hle
  | externalAscii data => exact asciiReadBlock_spec rfl rbb hmax hle
  | seqTwoByte chars =>
    dsimp only at hinto ⊢
    cases hrun : seqTwoByteStringReadBlockIntoBuffer rbb offset maxChars chars with
    | none => rwa [hrun] at hinto
    | some r => rwa [hrun] at hinto
  | externalTwoByte data =>
    dsimp only at hinto ⊢
    cases hrun : externalTwoByteStringReadBlockIntoBuffer rbb offset maxChars data with
    | none => rwa [hrun] at hinto
    | some r => rwa [hrun] at hinto

theorem slicedStringReadBlock_spec (hs : 8 ≤ s) {start : Nat}
    (hpar : start + length ≤ parent.length) (h : rbb.Fresh)
    (hmax : 0 < maxChars) (hle : offset + maxChars ≤ length) :
    Delivers (.sliced parent start length hpar) offset maxChars
      (slicedStringReadBlock parent start rbb offset maxChars) := by
  obtain ⟨block, rbb', n, k, hrun, hpos, hn, hrem, hholds⟩ :=
    flatReadBlock_spec hs parent h hmax (show offset + start + maxChars ≤ parent.length by omega)
  refine ⟨block, rbb', n, k, ?_, hpos, hn, hrem, ?_⟩
  · grind [slicedStringReadBlock]
  · rwa [Str.range_sliced hpar (by omega)]

theorem consStringReadBlock_correction (current : Str) : ∀ (rbb : ReadBlockBuffer s) (offset correction maxChars : Nat),
    consStringReadBlock current rbb offset correction maxChars =
      (consStringReadBlock current rbb offset 0 maxChars).map fun r => (r.1, r.2.1, r.2.2 + correction) := by
  induction current with
  | flat string => exact fun _ _ _ _ => rfl
  | sliced parent offset length h => exact fun _ _ _ _ => rfl
  | cons left right ihl ihr =>
    intro rbb offset correction maxChars
    unfold consStringReadBlock
    by_cases hleft : left.length > offset ∧ (maxChars ≤ left.length - offset ∨ s ≤ left.length - offset)
    · rw [if_pos hleft, if_pos hleft]
      by_cases hcons : left.isCons = true
      · rw [if_pos hcons, if_pos hcons]
        exact ihl rbb offset correction _
      · rw [if_neg hcons, if_neg hcons]
        cases readBlockOf _ left rbb offset _ <;> rfl
    · rw [if_neg hleft, if_neg hleft]
      by_cases hright : left.length ≤ offset
      · rw [if_pos hright, if_pos hright]
        by_cases hcons : right.isCons = true
        · rw [if_pos hcons, if_pos hcons, ihr, ihr _ _ (0 + left.length), map_map]
          refine congrFun (congrArg _ (funext fun r => ?_)) _
          grind
        · rw [if_neg hcons, if_neg hcons]
          cases readBlockOf _ right rbb (offset - left.length) maxChars with
          | none => rfl
          | some r =>
            grind
      · rw [if_neg hright, if_neg hright]
        split
        · simp
        · rfl

theorem readBlock_step (current : Str) (rbb : ReadBlockBuffer s) (offset correction : Nat)
    (hmax : maxChars ≠ 0) :
    (if current.isCons then consStringReadBlock current rbb offset correction maxChars
      else do
        let (block, rbb, offset) ← readBlockOf
          (fun rbb offset maxChars => consStringReadBlock current rbb offset 0 maxChars) current rbb offset maxChars
        return (block, rbb, offset + correction)) =
      (readBlock current rbb offset maxChars).map fun r => (r.1, r.2.1, r.2.2 + correction) := by
  by_cases hcons : current.isCons = true
  · rw [if_pos hcons, consStringReadBlock_correction]
    cases current with
    | cons left right => rw [readBlock, readBlockOf, if_neg hmax]
    | flat string => cases hcons
    | sliced parent start length h => cases hcons
  · rw [if_neg hcons]
    show readBlock current rbb offset maxChars >>= _ = _
    cases readBlock current rbb offset maxChars <;> rfl

theorem readBlock_cons (left right : Str) (h : rbb.Fresh) (offset : Nat)
    (hmax : maxChars ≠ 0) : readBlock (.cons left right) rbb offset maxChars =
      if left.length > offset ∧ (maxChars ≤ left.length - offset ∨ s ≤ left.length - offset) then
        (readBlock left rbb offset (if maxChars ≤ left.length - offset then maxChars else left.length - offset)).map
          fun r => (r.1, r.2.1, r.2.2 + 0)
      else if left.length ≤ offset then
        (readBlock right rbb (offset - left.length) maxChars).map fun r => (r.1, r.2.1, r.2.2 + (0 + left.length))
      else
        (readBlockIntoBuffer (.cons left right) rbb offset (if maxChars > s then s else maxChars)).map
          fun r => (.util, r.1, r.2 + 0) := by
  rw [readBlock, readBlockOf, if_neg hmax]
  rw [consStringReadBlock]
  by_cases hleft : left.length > offset ∧ (maxChars ≤ left.length - offset ∨ s ≤ left.length - offset)
  · rw [if_pos hleft, if_pos hleft]
    exact readBlock_step left rbb offset 0 (by split <;> omega)
  · rw [if_neg hleft, if_neg hleft]
    by_cases hright : left.length ≤ offset
    · rw [if_pos hright, if_pos hright]
      grind [readBlock_step]
    · have hne : (if maxChars > s then s else maxChars) ≠ 0 := by split <;> omega
      rw [if_neg hright, if_neg hright, if_pos ⟨h.2, h.1⟩]
      generalize (if maxChars > s then s else maxChars) = m at hne
      rw [readBlockIntoBuffer, readBlockIntoBufferOf, if_neg hne]
      cases consStringReadBlockIntoBuffer (.cons left right) rbb offset 0 m <;> rfl

theorem readBlock_spec (hs : 8 ≤ s) (str : Str) : ∀ {rbb : ReadBlockBuffer s} (offset maxChars : Nat), rbb.Fresh →
    0 < maxChars → offset + maxChars ≤ str.length →
    Delivers str offset maxChars (readBlock str rbb offset maxChars) := by
  induction str with
  | flat string =>
    intro rbb offset maxChars h hmax hle
    rw [readBlock, readBlockOf, if_neg (ne_of_gt hmax)]
    exact flatReadBlock_spec hs string h hmax hle
  | sliced parent start length hpar =>
    intro rbb offset maxChars h hmax hle
    rw [readBlock, readBlockOf, if_neg (ne_of_gt hmax)]
    exact slicedStringReadBlock_spec hs hpar h hmax hle
  | cons left right ihl ihr =>
    intro rbb offset maxChars h hmax hle
    rw [readBlock_cons left right h offset (ne_of_gt hmax)]
    by_cases hleft : left.length > offset ∧ (maxChars ≤ left.length - offset ∨ s ≤ left.length - offset)
    · rw [if_pos hleft]
      obtain ⟨m, hm⟩ : ∃ m, m = if maxChars ≤ left.length - offset then maxChars else left.length - offset := ⟨_, rfl⟩
      rw [← hm]
      have hm' : 0 < m ∧ m ≤ maxChars ∧ offset + m ≤ left.length := by split at hm <;> omega
      obtain ⟨block, rbb', n, k, hrun, hpos, hn, hrem, hholds⟩ := ihl offset m h hm'.1 hm'.2.2
      refine ⟨block, rbb', n, k, by rw [hrun]; rfl, hpos, by omega, hrem, ?_⟩
      rwa [Str.range_left (by omega)]
    · rw [if_neg hleft]
      rw [Str.length] at hle
      by_cases hright : left.length ≤ offset
      · rw [if_pos hright]
        obtain ⟨block, rbb', n, k, hrun, hpos, hn, hrem, hholds⟩ :=
          ihr (offset - left.length) maxChars h hmax (by omega)
        refine ⟨block, rbb', n, k, ?_, hpos, hn, hrem, ?_⟩
        · grind
        · rwa [Str.range_right hright]
      · rw [if_neg hright]
        obtain ⟨m, hm⟩ : ∃ m, m = if maxChars > s then s else maxChars := ⟨_, rfl⟩
        rw [← hm]
        have hm' : 0 < m ∧ m ≤ maxChars := by split at hm <;> omega
        have hroom : offset + m ≤ (Str.cons left right).length := by
          rw [Str.length]
          omega
        obtain ⟨block, rbb', n, k, hrun, hpos, hn, hrem, hholds⟩ :=
          (readBlockIntoBuffer_spec hs (.cons left right) offset m h.fills hroom).delivers h hm'.1 hroom
        exact ⟨block, rbb', n, k, hrun, hpos, by omega, hrem, hholds⟩

/-! ## Input buffers -/

/-- A reader fills a block, which is empty at the end of the string only. -/
def Reader.Good (reader : Reader s) : Prop :=
  ∀ (input : Str) (utilBuffer : Vector UInt8 s) (offset : Nat), offset ≤ input.length →
    ∃ block utilBuffer' n k, reader input utilBuffer offset = some (block, utilBuffer', n, offset + n) ∧
      offset + n ≤ input.length ∧ (offset < input.length → 0 < n) ∧
      Holds (block.read utilBuffer') 0 (input.range offset n) k

theorem stringReadBlock_good (hs : 8 ≤ s) : Reader.Good (stringReadBlock (s := s)) := by
  intro input utilBuffer offset hle
  unfold stringReadBlock
  rcases Nat.eq_or_lt_of_le hle with heq | hlt
  · refine ⟨.null, utilBuffer, 0, 0, ?_, hle, fun h => absurd h (by omega), .nil⟩
    rw [heq, Nat.sub_self]
    rfl
  · have hfresh : (ReadBlockBuffer.mk utilBuffer 0 0).Fresh := ⟨rfl, rfl⟩
    obtain ⟨block, rbb, n, k, hrun, hpos, hn, hrem, hholds⟩ :=
      readBlock_spec hs input offset (input.length - offset) hfresh (by omega) (by omega)
    refine ⟨block, rbb.utilBuffer, n, k, ?_, by omega, fun _ => hpos, hholds⟩
    simp only [hrun, bind_eq_bind, bind_some, hrem]
    rfl

theorem safeStringReadBlock_good (hs : 8 ≤ s) : Reader.Good (safeStringReadBlock (s := s)) := by
  intro input utilBuffer offset hle
  obtain ⟨m, hm⟩ : ∃ m, m = if input.length - offset > s then s else input.length - offset := ⟨_, rfl⟩
  have hm' : offset + m ≤ input.length ∧ (offset < input.length → 0 < m) := by split at hm <;> omega
  have hfresh : (ReadBlockBuffer.mk utilBuffer 0 0).Fresh := ⟨rfl, rfl⟩
  obtain ⟨rbb, n, hrun, hn, hfills, hfirst⟩ := readBlockIntoBuffer_spec hs input offset m hfresh.fills hm'.1
  have hrange : (input.range offset n).length = n := Str.length_range (by omega)
  refine ⟨.util, rbb.utilBuffer, n, rbb.cursor, ?_, by omega, fun hlt => hfirst rfl (hm'.2 hlt), hfills.holds⟩
  unfold safeStringReadBlock
  dsimp only
  rw [← hm, hrun]
  simp only [bind_eq_bind, bind_some, hfills.remaining, List.nil_append, hrange]
  rfl

namespace InputBuffer

variable {reader : Reader s}

/-- The characters still to be delivered: those of the block, then those behind it. -/
structure Ready (st : InputBuffer s) (cs : List Nat) : Prop where
  chars : ∃ block k, cs = block ++ st.input.chars.drop st.offset ∧ st.remaining = block.length ∧
    Holds (st.buffer.read st.utilBuffer) st.cursor block k ∧ (block = [] → st.input.length ≤ st.offset)
  le_length : st.offset ≤ st.input.length

theorem fillBuffer_spec (hread : reader.Good) (st : InputBuffer s) (hle : st.offset ≤ st.input.length) :
    ∃ st', fillBuffer reader st = some st' ∧ (st.offset < st.input.length → 0 < st'.remaining) ∧
      (st.cursor = 0 → Ready st' (st.input.chars.drop st.offset)) := by
  obtain ⟨block, utilBuffer, n, k, hrun, hn, hpos, hholds⟩ := hread st.input st.utilBuffer st.offset hle
  have hrange := Str.length_range hn
  refine ⟨{ st with buffer := block, utilBuffer := utilBuffer, remaining := n, offset := st.offset + n }, ?_, hpos,
    fun hcur => ⟨⟨st.input.range st.offset n, k, ?_, hrange.symm, ?_, fun hnil => ?_⟩, hn⟩⟩
  · rw [fillBuffer, hrun]
    rfl
  · rw [Str.range, ← List.drop_drop, List.take_append_drop]
  · rw [hcur]
    exact hholds
  grind

theorem getNext_ready (hread : reader.Good) {st : InputBuffer s} {c : Nat} {cs : List Nat} (h : Ready st (c :: cs)) :
    ∃ st', getNext reader st = some (c, st') ∧ Ready st' cs := by
  obtain ⟨⟨block, k, heq, hrem, hholds, hlast⟩, hle⟩ := h
  cases hholds with
  | nil =>
    simp_all [List.drop_of_length_le]
  | @cons _ j _ c' block hdec hholds =>
    obtain ⟨rfl, rfl⟩ := List.cons.inj heq
    unfold getNext
    simp only [hdec, bind_eq_bind, bind_some]
    by_cases hone : st.remaining = 1
    · rw [if_pos hone]
      have hnil : block = [] := by
        grind
      subst hnil
      obtain ⟨st', hfill, -, hready⟩ := fillBuffer_spec hread { st with cursor := 0 } hle
      simp only [hfill, bind_some]
      exact ⟨st', rfl, hready rfl⟩
    · rw [if_neg hone]
      refine ⟨_, rfl, ⟨block, k, rfl, ?_, hholds, fun hnil => ?_⟩, hle⟩
      · simp [hrem]
      simp_all

theorem Ready.deliver (hread : reader.Good) {cs : List Nat} : ∀ {st : InputBuffer s} {fuel : Nat},
    Ready st cs → cs.length < fuel → deliver reader fuel st = some cs := by
  induction cs with
  | nil =>
    intro st fuel h hfuel
    obtain ⟨⟨block, k, heq, hrem, -⟩, -⟩ := h
    have hnil : block = [] := (List.append_eq_nil_iff.1 heq.symm).1
    cases fuel with
    | zero => omega
    | succ fuel => simp [InputBuffer.deliver, hasMore, hrem, hnil]
  | cons c cs ih =>
    intro st fuel h hfuel
    cases fuel with
    | zero => omega
    | succ fuel =>
      have hmore : st.hasMore = true := by
        obtain ⟨⟨block, k, heq, hrem, -, hlast⟩, -⟩ := h
        cases block with
        | nil =>
          simp_all [List.drop_of_length_le]
        | cons b block => simp [hasMore, hrem]
      obtain ⟨st', hnext, hready⟩ := getNext_ready hread h
      simp_all [InputBuffer.deliver]

/-- From a start position the characters behind it are delivered. -/
theorem reset_deliver (hread : reader.Good) (st : InputBuffer s) (input : Str) {position : Nat}
    (hle : position ≤ input.length) : ∃ st', reset reader st position input = some st' ∧
      ∀ fuel > input.length - position, deliver reader fuel st' = some (input.chars.drop position) := by
  obtain ⟨st', hrun, -, hready⟩ := fillBuffer_spec hread
    { st with input := input, remaining := 0, cursor := 0, offset := position } hle
  refine ⟨st', hrun, fun fuel hfuel => (hready rfl).deliver hread ?_⟩
  rw [List.length_drop, input.length_chars]
  exact hfuel

end InputBuffer

/-! ## Single characters -/

theorem FlatString.get_eq (string : FlatString) (index : Nat) : string.get index = string.chars[index]? := by
  cases string <;> exact (List.getElem?_map).symm

theorem get_sliced {index : Nat} (h : index < length) :
    parent.get (offset + index) = ((parent.chars.drop offset).take length)[index]? := by
  rw [parent.get_eq, List.getElem?_take, if_pos h, List.getElem?_drop]

theorem getElem?_cons {first second : Str} (index : Nat) : (Str.cons first second).chars[index]? =
    if first.length > index then first.chars[index]? else second.chars[index - first.length]? := by
  rw [Str.chars, List.getElem?_append, first.length_chars]

theorem consStringGetLoop_eq (str : Str) : ∀ index < str.length, consStringGetLoop str index = str.chars[index]? := by
  induction str with
  | flat string => exact fun index _ => string.get_eq index
  | sliced parent offset length h => exact fun index hlt => get_sliced hlt
  | cons left right ihl ihr =>
    intro index hlt
    rw [Str.length] at hlt
    rw [consStringGetLoop, getElem?_cons]
    split
    · exact ihl index (by omega)
    · exact ihr _ (by omega)

theorem Str.get_eq (str : Str) : ∀ index < str.length, str.get index = str.chars[index]? := by
  induction str with
  | flat string => exact fun index _ => string.get_eq index
  | sliced parent offset length h => exact fun index hlt => get_sliced hlt
  | cons left right ihl _ =>
    intro index hlt
    rw [Str.get]
    split
    · rw [Str.length] at hlt
      rw [ihl index (by omega), getElem?_cons, if_pos (by omega)]
    · exact consStringGetLoop_eq (.cons left right) index hlt

/-! ## Flat memory -/

section WriteToFlat

variable {σ : Type} (toSink : Nat → σ)

/-- The memory with other characters from `sink` on. -/
def written (memory : List σ) (sink : Nat) (chars : List Nat) : List σ :=
  memory.take sink ++ chars.map toSink ++ memory.drop (sink + chars.length)

variable {memory : List σ}

theorem length_written {sink : Nat} {chars : List Nat} (h : sink + chars.length ≤ memory.length) :
    (written toSink memory sink chars).length = memory.length := by
  rw [written, List.length_append, List.length_append, List.length_take, List.length_map, List.length_drop]
  omega

/-- Two ranges side by side are one, in whatever order they are written. -/
theorem written_append {sink : Nat} {a b : List Nat} (h : sink + (a ++ b).length ≤ memory.length) :
    written toSink (written toSink memory sink a) (sink + a.length) b = written toSink memory sink (a ++ b) ∧
      written toSink (written toSink memory (sink + a.length) b) sink a = written toSink memory sink (a ++ b) := by
  rw [List.length_append] at h
  have hsink : (memory.take sink).length = sink := by
    rw [List.length_take]
    omega
  unfold written
  constructor
  · have hfront : (memory.take sink ++ a.map toSink).length = sink + a.length := by
      rw [List.length_append, hsink, List.length_map]
    rw [List.take_append_of_le_length (by omega), List.take_of_length_le (le_of_eq hfront), List.drop_append,
      List.drop_of_length_le (by omega), List.nil_append, hfront, List.drop_drop, List.map_append, List.length_append]
    simp only [List.append_assoc]
    congr 4
    omega
  · have hfront : (memory.take (sink + a.length)).length = sink + a.length := by
      rw [List.length_take]
      omega
    have htake : (memory.take (sink + a.length) ++ b.map toSink ++ memory.drop (sink + a.length + b.length)).take sink =
        memory.take sink := by
      rw [List.append_assoc, List.take_append_of_le_length (by omega), List.take_take, min_eq_left (by omega)]
    have hdrop : (memory.take (sink + a.length) ++ b.map toSink ++ memory.drop (sink + a.length + b.length)).drop
        (sink + a.length) = b.map toSink ++ memory.drop (sink + a.length + b.length) := by
      simp [hfront]
    rw [htake, hdrop, List.map_append, List.length_append, add_assoc]
    simp only [List.append_assoc]

theorem copyChars_eq {sink : Nat} {chars : List Nat} (h : sink + chars.length ≤ memory.length) :
    copyChars toSink memory sink chars = some (written toSink memory sink chars) := if_pos h

theorem flatWriteToFlat_spec (source : FlatString) (memory : List σ) (sink : Nat) {from_ to_ : Nat} (hle : from_ ≤ to_)
    (hto : to_ ≤ source.length) (hsink : sink + (to_ - from_) ≤ memory.length) :
    flatWriteToFlat toSink source memory sink from_ to_ =
      some (written toSink memory sink ((Str.flat source).range from_ (to_ - from_))) := by
  have hcount : ((to_ : Int) - from_).toNat = to_ - from_ := by omega
  have hrange : ((Str.flat source).range from_ (to_ - from_)).length = to_ - from_ :=
    Str.length_range (show from_ + (to_ - from_) ≤ source.length by omega)
  rw [← copyChars_eq toSink (by omega)]
  unfold flatWriteToFlat
  rw [if_pos (by omega)]
  have hroom : from_ + (to_ - from_) ≤ source.length := by omega
  cases source with
  | seqAscii chars =>
    simp only [Int.toNat_natCast, hcount, elements_eq hroom, bind_eq_bind, bind_some]
    rw [Str.range, Str.chars, FlatString.chars, List.map_take, List.map_drop]
  | seqTwoByte chars =>
    simp only [Int.toNat_natCast, hcount, elements_eq hroom, bind_eq_bind, bind_some]
    rw [Str.range, Str.chars, FlatString.chars, List.map_take, List.map_drop]
  | externalAscii data =>
    simp only [Int.toNat_natCast, hcount, elements_eq hroom, bind_eq_bind, bind_some]
    rw [Str.range, Str.chars, FlatString.chars, List.map_take, List.map_drop]
  | externalTwoByte data =>
    simp only [Int.toNat_natCast, hcount, elements_eq hroom, bind_eq_bind, bind_some]
    rw [Str.range, Str.chars, FlatString.chars, List.map_take, List.map_drop]

/-- The range of a string is written, and no other memory. -/
theorem writeToFlat_spec (source : Str) : ∀ (memory : List σ) (sink : Nat) {from_ to_ : Nat}, from_ ≤ to_ →
    to_ ≤ source.length → sink + (to_ - from_) ≤ memory.length →
    writeToFlat toSink source memory sink from_ to_ =
      some (written toSink memory sink (source.range from_ (to_ - from_))) := by
  induction source with
  | flat source => exact fun memory sink _ _ hle hto hsink => flatWriteToFlat_spec toSink source memory sink hle hto hsink
  | sliced parent offset length h =>
    intro memory sink from_ to_ hle hto hsink
    have hto' : to_ ≤ length := hto
    have hflat := flatWriteToFlat_spec toSink parent memory sink (show from_ + offset ≤ to_ + offset by omega)
      (by omega) (by omega)
    rw [writeToFlat, if_pos (by omega), Str.range_sliced h (by omega)]
    grind
  | cons first second ih₁ ih₂ =>
    intro memory sink from_ to_ hle hto hsink
    rw [Str.length] at hto
    rw [writeToFlat, if_pos (by omega)]
    rcases Nat.lt_or_ge from_ first.length with hleft | hleft
    · rcases Nat.lt_or_ge first.length to_ with hright | hright
      · -- both parts are written, in either order
        have hto_ : (to_ : Int) - first.length = ((to_ - first.length : Nat) : Int) := by omega
        have hsplit : (Str.cons first second).range from_ (to_ - from_) =
            first.range from_ (first.length - from_) ++ second.range 0 (to_ - first.length) := by
          rw [show to_ - from_ = first.length - from_ + (to_ - first.length) by omega, Str.range_add,
            Str.range_left (by omega), Str.range_right (by omega)]
          congr 2
          omega
        have hfirst : (first.range from_ (first.length - from_)).length = first.length - from_ :=
          Str.length_range (by omega)
        have hsnd : (second.range 0 (to_ - first.length)).length = to_ - first.length := Str.length_range (by omega)
        have hplace : sink + first.length - (from_ : Int).toNat = sink + (first.length - from_) := by omega
        have hroom : sink + (first.range from_ (first.length - from_) ++ second.range 0 (to_ - first.length)).length ≤
            memory.length := by
          rw [List.length_append]
          omega
        obtain ⟨hleftFirst, hrightFirst⟩ := written_append toSink hroom
        rw [hfirst] at hleftFirst hrightFirst
        have hwr : ∀ chars place, place + chars.length ≤ memory.length →
            (written toSink memory place chars).length = memory.length := fun _ _ h => length_written toSink h
        rw [hplace, hto_, hsplit]
        split
        · rw [if_pos (by omega), ih₁ memory sink (by omega) (Nat.le_refl _) (by omega), ← hleftFirst]
          exact ih₂ _ _ (Nat.zero_le _) (by omega) (by rw [hwr _ _ (by omega)]; omega)
        · have hrun := ih₂ memory (sink + (first.length - from_)) (Nat.zero_le (to_ - first.length)) (by omega) (by omega)
          rw [if_pos (by omega), ← hrightFirst]
          rw [Nat.sub_zero] at hrun
          refine (congrArg (· >>= _) hrun).trans ?_
          exact ih₁ _ _ (by omega) (Nat.le_refl _) (by rw [hwr _ _ (by omega)]; omega)
      · rw [if_neg (by omega), if_neg (by omega), Str.range_left (by omega)]
        exact ih₁ memory sink hle hright hsink
    · have hfrom : (from_ : Int) - first.length = ((from_ - first.length : Nat) : Int) := by omega
      have hto_ : (to_ : Int) - first.length = ((to_ - first.length : Nat) : Int) := by omega
      have hcount : to_ - first.length - (from_ - first.length) = to_ - from_ := by omega
      rw [if_pos (by omega), if_neg (by omega), hfrom, hto_, Str.range_right hleft]
      grind

end WriteToFlat

/-- The characters of an input buffer from any start, those that are written to flat memory and
those of `Get` are the characters of the leaves. -/
theorem readings_agree (hs : 8 ≤ s) (reader : Reader s) (hreader : reader = stringReadBlock ∨ reader = safeStringReadBlock)
    (str : Str) :
    (∀ (st : InputBuffer s) (start : Nat), start ≤ str.length →
      ∃ st', InputBuffer.reset reader st start str = some st' ∧
        ∀ fuel > str.length - start, InputBuffer.deliver reader fuel st' = some (str.chars.drop start)) ∧
    (∀ st : InputBuffer s, st.input = str → st.offset < str.length →
      ∃ st', InputBuffer.fillBuffer reader st = some st' ∧ 0 < st'.remaining) ∧
    (∀ (σ : Type) (toSink : Nat → σ) (memory : List σ) (sink from_ to_ : Nat), from_ ≤ to_ → to_ ≤ str.length →
      sink + (to_ - from_) ≤ memory.length → writeToFlat toSink str memory sink from_ to_ =
        some (memory.take sink ++ ((str.chars.drop from_).take (to_ - from_)).map toSink ++
          memory.drop (sink + (to_ - from_)))) ∧
    ∀ index < str.length, str.get index = str.chars[index]? := by
  have hgood : reader.Good := by
    rcases hreader with rfl | rfl
    · exact stringReadBlock_good hs
    · exact safeStringReadBlock_good hs
  refine ⟨fun st start hle => InputBuffer.reset_deliver hgood st str hle, ?_, ?_, str.get_eq⟩
  · rintro st rfl hlt
    obtain ⟨st', hrun, hpos, -⟩ := InputBuffer.fillBuffer_spec hgood st (Nat.le_of_lt hlt)
    exact ⟨st', hrun, hpos hlt⟩
  · intro σ toSink memory sink from_ to_ hle hto hsink
    have hrange : (str.range from_ (to_ - from_)).length = to_ - from_ := Str.length_range (by omega)
    rw [writeToFlat_spec toSink str memory sink hle hto hsink, written, hrange]
    rfl

/-- A slice of a string of two bytes behind an empty part, read with a buffer of 8 bytes. -/
theorem readings_agree_slice : ∃ st', InputBuffer.reset safeStringReadBlock
      ⟨0, 0, .null, 0, .flat (.seqAscii []), Vector.replicate 8 0⟩ 1
      (.cons (.flat (.seqAscii [])) (.sliced (.seqTwoByte [97, 955, 98]) 1 2 (by decide))) = some st' ∧
    ∀ fuel > 1, InputBuffer.deliver safeStringReadBlock fuel st' = some [98] :=
  (readings_agree (by decide) safeStringReadBlock (.inr rfl)
    (.cons (.flat (.seqAscii [])) (.sliced (.seqTwoByte [97, 955, 98]) 1 2 (by decide)))).1 _ 1 (by decide)

end W16.StringBlocks
