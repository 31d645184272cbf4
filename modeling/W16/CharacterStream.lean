import Mathlib.Data.Vector.Basic
import W16.Utf8

/-!
# Character streams

`Utf8::ReadBlock` and the input buffer that reads with it. A block is either a part of the input
that is ASCII, or the buffer with characters of one byte and of an aligned word. Offsets into the
buffer are below its size, which is a constant of the code, and do not overflow.
-/
namespace W16.Unibrow

open Option

set_option linter.dupNamespace false

variable {s : Nat}

/-- `(offset + 0x3) & ~0x3` -/
def aligned (offset : Nat) : Nat := (offset + 0x3) / 4 * 4

theorem le_aligned (offset : Nat) : offset ≤ aligned offset := by
  unfold aligned
  omega

/-- `sizeof(uchar)` -/
def kUcharSize : Nat := 4

/-- The new buffer and offset, or none for a result of `false`. -/
def encodeAsciiCharacter (c : Nat) (buffer : Vector UInt8 s) (offset : Nat) : Option (Vector UInt8 s × Nat) :=
  if h : offset < s then some (buffer.set offset (.ofNat c) h, offset + 1) else none

/-- A little-endian store. -/
def storeUchar (buffer : Vector UInt8 s) (i value : Nat) (h : i + kUcharSize ≤ s) : Vector UInt8 s :=
  (((buffer.set i (.ofNat value) (lt_of_lt_of_le (by simp [kUcharSize]) h)).set (i + 1)
    (.ofNat (value >>> 8)) (lt_of_lt_of_le (by simp [kUcharSize]) h)).set (i + 2)
    (.ofNat (value >>> 16)) (lt_of_lt_of_le (by simp [kUcharSize]) h)).set (i + 3)
    (.ofNat (value >>> 24)) (lt_of_lt_of_le (by simp [kUcharSize]) h)

def encodeNonAsciiCharacter (c : Nat) (buffer : Vector UInt8 s) (offset : Nat) :
    Option (Vector UInt8 s × Nat) :=
  if h : aligned offset + kUcharSize > s then none
  else
    let h' : aligned offset + kUcharSize ≤ s := Nat.le_of_not_lt h
    let buffer' :=
      if offset = aligned offset then storeUchar buffer (aligned offset) ((c <<< 8) ||| 0x80) h'
      else
        storeUchar (buffer.set offset 0x80 (Nat.lt_of_le_of_lt (le_aligned offset)
          (Nat.lt_of_lt_of_le (Nat.lt_add_of_pos_right (by decide)) h'))) (aligned offset) (c <<< 8) h'
    some (buffer', aligned offset + kUcharSize)

/-- A little-endian load. -/
def loadUchar (read : Nat → Option UInt8) (i : Nat) : Option Nat := do
  let b0 ← read i
  let b1 ← read (i + 1)
  let b2 ← read (i + 2)
  let b3 ← read (i + 3)
  return b0.toNat + b1.toNat * 2 ^ 8 + b2.toNat * 2 ^ 16 + b3.toNat * 2 ^ 24

/-- The character and the new offset, none where the buffer is read outside. -/
def decodeCharacter (read : Nat → Option UInt8) (offset : Nat) : Option (Nat × Nat) := do
  let b ← read offset
  if b.toNat ≤ kMaxOneByteChar then return (b.toNat, offset + 1)
  else
    let value ← loadUchar read (aligned offset)
    return (value >>> 8, aligned offset + kUcharSize)

/-- What `ReadBlock` returns: `NULL`, a place in the input, or the buffer it was given. -/
inductive Block where
  | null
  | data (offset : Nat)
  | util
  deriving DecidableEq

/-- How many of the bytes are ASCII before the first that is not. -/
def asciiRun : List UInt8 → Nat
  | [] => 0
  | b :: rest => if b.toNat ≤ kMaxOneByteChar then asciiRun rest + 1 else 0

/-- The loop that fills the buffer: the buffer, `offset` and `chars_read` at its end. -/
def fillLoop (data : List UInt8) : Nat → Vector UInt8 s → Nat → Nat → Nat → Option (Vector UInt8 s × Nat × Nat)
  | 0, _, _, _, _ => none
  | fuel + 1, buffer, cursor, offset, charsRead =>
    if offset < data.length then do
      let c ← data[offset]?
      if c.toNat ≤ kMaxOneByteChar then
        match encodeAsciiCharacter c.toNat buffer cursor with
        | none => some (buffer, offset, charsRead)
        | some (buffer, cursor) => fillLoop data fuel buffer cursor (offset + 1) (charsRead + 1)
      else do
        let (c, chars) ← valueOf (data.drop offset)
        match encodeNonAsciiCharacter c buffer cursor with
        | none => some (buffer, offset, charsRead)
        | some (buffer, cursor) =>
          fillLoop data fuel buffer cursor (offset + chars) (charsRead + 1)
    else some (buffer, offset, charsRead)

/-- The block, the buffer, `chars_read` and the new offset. -/
def readBlock (data : List UInt8) (buffer : Vector UInt8 s) (offset : Nat) :
    Option (Block × Vector UInt8 s × Nat × Nat) :=
  if offset = data.length then some (.null, buffer, 0, offset) else do
    let b ← data[offset]?
    if b.toNat ≤ kMaxOneByteChar then
      let offset' := offset + 1 + asciiRun (data.drop (offset + 1))
      return (.data offset, buffer, offset' - offset, offset')
    else
      let (buffer, offset', charsRead) ← fillLoop data (data.length - offset + 1) buffer 0 offset 0
      return (.util, buffer, charsRead, offset')

/-- `Utf8InputBuffer<s>` -/
structure Utf8InputBuffer (s : Nat) where
  remaining : Nat
  cursor : Nat
  buffer : Block
  offset : Nat
  input : List UInt8
  utilBuffer : Vector UInt8 s

/-- The byte that `buffer_[i]` denotes. -/
def Utf8InputBuffer.read (st : Utf8InputBuffer s) (i : Nat) : Option UInt8 :=
  match st.buffer with
  | .null => none
  | .data offset => st.input[offset + i]?
  | .util => st.utilBuffer[i]?

def Utf8InputBuffer.hasMore (st : Utf8InputBuffer s) : Bool := st.remaining ≠ 0

def Utf8InputBuffer.fillBuffer (st : Utf8InputBuffer s) : Option (Utf8InputBuffer s) := do
  let (buffer, utilBuffer, remaining, offset) ← readBlock st.input st.utilBuffer st.offset
  return { st with buffer, utilBuffer, remaining, offset }

def Utf8InputBuffer.reset (st : Utf8InputBuffer s) (position : Nat) (input : List UInt8) :
    Option (Utf8InputBuffer s) :=
  Utf8InputBuffer.fillBuffer { st with input, remaining := 0, cursor := 0, offset := position }

def Utf8InputBuffer.getNext (st : Utf8InputBuffer s) : Option (Nat × Utf8InputBuffer s) := do
  let (result, cursor) ← decodeCharacter st.read st.cursor
  if st.remaining = 1 then do
    let st' ← Utf8InputBuffer.fillBuffer { st with cursor := 0 }
    return (result, st')
  else return (result, { st with cursor, remaining := st.remaining - 1 })

/-- The characters that `GetNext` delivers while there are more, at most `fuel` of them. -/
def Utf8InputBuffer.deliver : Nat → Utf8InputBuffer s → Option (List Nat)
  | 0, _ => none
  | fuel + 1, st =>
    if st.hasMore then do
      let (c, st') ← st.getNext
      let cs ← Utf8InputBuffer.deliver fuel st'
      return c :: cs
    else some []

/-! ## Characters in a block -/

/-- The characters between two offsets of a block. -/
inductive Holds (read : Nat → Option UInt8) : Nat → List Nat → Nat → Prop
  | nil {i : Nat} : Holds read i [] i
  | cons {i j k c : Nat} {cs : List Nat} : decodeCharacter read i = some (c, j) →
      Holds read j cs k → Holds read i (c :: cs) k

variable {c i j n : Nat} {cs : List Nat} {read : Nat → Option UInt8} {data bytes : List UInt8}

theorem Holds.snoc {k : Nat} (h : Holds read i cs j) (hc : decodeCharacter read j = some (c, k)) :
    Holds read i (cs ++ [c]) k := by
  induction h with
  | nil => exact .cons hc .nil
  | cons h _ ih => exact .cons h (ih hc)

theorem decodeCharacter_ascii (read : Nat → Option UInt8) {b : UInt8}
    (hb : read i = some b) (h : b.toNat ≤ kMaxOneByteChar) :
    decodeCharacter read i = some (b.toNat, i + 1) := by
  simp [decodeCharacter, hb, h]

theorem decodeCharacter_word (read : Nat → Option UInt8) {value : Nat} {b : UInt8}
    (hb : read i = some b) (h : kMaxOneByteChar < b.toNat)
    (hvalue : loadUchar read (aligned i) = some value) :
    decodeCharacter read i = some (value >>> 8, aligned i + kUcharSize) := by
  simp [decodeCharacter, hb, Nat.not_le_of_lt h, hvalue]

theorem decodeCharacter_lt (h : decodeCharacter read i = some (c, j)) : i < j := by
  have hle := le_aligned i
  have hsize : kUcharSize = 4 := rfl
  unfold decodeCharacter at h
  cases hb : read i with
  | none => simp [hb] at h
  | some b =>
    simp only [hb, bind_eq_bind, bind_some] at h
    split at h
    · cases h
      exact Nat.lt_succ_self _
    · cases hw : loadUchar read (aligned i) with
      | none => simp [hw] at h
      | some value =>
        grind

/-- Decoding reads below the new offset only. -/
theorem decodeCharacter_congr {read' : Nat → Option UInt8}
    (h : decodeCharacter read i = some (c, j)) (hsame : ∀ k < j, read' k = read k) :
    decodeCharacter read' i = some (c, j) := by
  have hlt := decodeCharacter_lt h
  unfold decodeCharacter at h ⊢
  rw [hsame i hlt]
  cases hb : read i with
  | none => simp [hb] at h
  | some b =>
    simp only [hb, bind_eq_bind, bind_some] at h ⊢
    split
    case isTrue hle => rwa [if_pos hle] at h
    case isFalse hle =>
      rw [if_neg hle] at h
      have hj : j = aligned i + kUcharSize := by
        cases hw : loadUchar read (aligned i) with
        | none => simp [hw] at h
        | some value =>
          grind
      have hsize : kUcharSize = 4 := rfl
      have hload : loadUchar read' (aligned i) = loadUchar read (aligned i) := by
        unfold loadUchar
        grind
      rwa [hload]

theorem Holds.le {k : Nat} (h : Holds read i cs k) : i ≤ k := by
  induction h with
  | nil => exact le_rfl
  | cons h _ ih => exact le_trans (le_of_lt (decodeCharacter_lt h)) ih

theorem Holds.congr {read' : Nat → Option UInt8} {k : Nat}
    (h : Holds read i cs k) (hsame : ∀ n < k, read' n = read n) : Holds read' i cs k := by
  induction h with
  | nil => exact .nil
  | cons h hrest ih =>
    exact .cons (decodeCharacter_congr h fun n hn =>
      hsame n (lt_of_lt_of_le hn hrest.le)) (ih hsame)

/-! ## Writing a character -/

theorem encodeAsciiCharacter_spec {offset offset' : Nat} {buffer buffer' : Vector UInt8 s}
    (hc : c ≤ kMaxOneByteChar)
    (h : encodeAsciiCharacter c buffer offset = some (buffer', offset')) :
    decodeCharacter (fun i => buffer'[i]?) offset = some (c, offset') ∧
      ∀ n < offset, buffer'[n]? = buffer[n]? := by
  have hc' : c ≤ 127 := hc
  unfold encodeAsciiCharacter at h
  split at h
  case isFalse => cases h
  case isTrue hlt =>
    obtain ⟨rfl, rfl⟩ := h
    have hbyte : (UInt8.ofNat c).toNat = c := by
      rw [UInt8.toNat_ofNat']
      omega
    refine ⟨?_, fun n hn => ?_⟩
    · grind [decodeCharacter_ascii]
    · exact Vector.getElem?_set_ne hlt (by omega)

theorem storeUchar_read (buffer : Vector UInt8 s) {value : Nat} (h : i + kUcharSize ≤ s) (n : Nat) :
    (storeUchar buffer i value h)[n]? = if i + 3 = n then some (.ofNat (value >>> 24))
      else if i + 2 = n then some (.ofNat (value >>> 16))
      else if i + 1 = n then some (.ofNat (value >>> 8))
      else if i = n then some (.ofNat value)
      else buffer[n]? := by
  unfold storeUchar
  simp only [Vector.getElem?_set]

theorem storeUchar_first (buffer : Vector UInt8 s) (value : Nat) (h : i + kUcharSize ≤ s)
    (hn : n = i) : (storeUchar buffer i value h)[n]? = some (.ofNat value) := by
  simp [storeUchar_read, hn]

theorem storeUchar_below (buffer : Vector UInt8 s) {value : Nat} (h : i + kUcharSize ≤ s)
    (hn : n < i) : (storeUchar buffer i value h)[n]? = buffer[n]? := by
  rw [storeUchar_read, if_neg (by omega), if_neg (by omega), if_neg (by omega), if_neg (by omega)]

theorem loadUchar_storeUchar (buffer : Vector UInt8 s) (value : Nat) (h : i + kUcharSize ≤ s)
    (hvalue : value < 2 ^ 32) :
    loadUchar (fun n => (storeUchar buffer i value h)[n]?) i = some value := by
  have h1 : (storeUchar buffer i value h)[i + 1]? = some (.ofNat (value >>> 8)) := by
    simp [storeUchar_read]
  have h2 : (storeUchar buffer i value h)[i + 2]? = some (.ofNat (value >>> 16)) := by
    rw [storeUchar_read, if_neg (by omega), if_pos rfl]
  have h3 : (storeUchar buffer i value h)[i + 3]? = some (.ofNat (value >>> 24)) := by
    rw [storeUchar_read, if_pos rfl]
  simp only [loadUchar, storeUchar_first buffer value h rfl, h1, h2, h3, bind_eq_bind,
    bind_some, UInt8.toNat_ofNat', Nat.shiftRight_eq_div_pow]
  exact congrArg some (by omega)

theorem shift_marker (c : Nat) : (c <<< 8) ||| 0x80 = c * 256 + 128 := by
  rw [← Nat.shiftLeft_add_eq_or_of_lt (i := 8) (b := 0x80) (by decide), Nat.shiftLeft_eq]

theorem encodeNonAsciiCharacter_spec {offset offset' : Nat} {buffer buffer' : Vector UInt8 s} (hc : c < 2 ^ 24)
    (h : encodeNonAsciiCharacter c buffer offset = some (buffer', offset')) :
    decodeCharacter (fun i => buffer'[i]?) offset = some (c, offset') ∧
      ∀ n < offset, buffer'[n]? = buffer[n]? := by
  have hle := le_aligned offset
  unfold encodeNonAsciiCharacter at h
  split at h
  case isTrue => cases h
  case isFalse hroom =>
    have hroom' : aligned offset + kUcharSize ≤ s := Nat.le_of_not_lt hroom
    obtain ⟨rfl, rfl⟩ := h
    by_cases heq : offset = aligned offset
    · rw [if_pos heq]
      have hload := loadUchar_storeUchar buffer ((c <<< 8) ||| 0x80) hroom' (by rw [shift_marker]; omega)
      have hfirst := storeUchar_first buffer ((c <<< 8) ||| 0x80) hroom' heq
      have hmarker : kMaxOneByteChar < (UInt8.ofNat ((c <<< 8) ||| 0x80)).toNat := by
        simp [kMaxOneByteChar, shift_marker]
      have hback : ((c <<< 8) ||| 0x80) >>> 8 = c := by
        rw [shift_marker, Nat.shiftRight_eq_div_pow]
        omega
      refine ⟨?_, fun n hn => storeUchar_below buffer hroom' (by omega)⟩
      have hdec := decodeCharacter_word
        (fun i => (storeUchar buffer (aligned offset) ((c <<< 8) ||| 0x80) hroom')[i]?)
        hfirst hmarker hload
      rwa [hback] at hdec
    · rw [if_neg heq]
      have hlt : offset < s := by
        omega
      have hload := loadUchar_storeUchar (buffer.set offset 0x80 hlt) (c <<< 8) hroom' (by omega)
      have hmark : (storeUchar (buffer.set offset 0x80 hlt) (aligned offset) (c <<< 8)
          hroom')[offset]? = some 0x80 := by
        grind [storeUchar_below]
      have hback : (c <<< 8) >>> 8 = c := by
        omega
      refine ⟨?_, fun n hn => ?_⟩
      · have hdec := decodeCharacter_word
          (fun i => (storeUchar (buffer.set offset 0x80 hlt) (aligned offset) (c <<< 8)
            hroom')[i]?) hmark (by decide) hload
        rwa [hback] at hdec
      grind [storeUchar_below]

/-! ## Filling the buffer -/

/-- The characters of the input between two offsets. -/
inductive Spans (data : List UInt8) : Nat → List Nat → Nat → Prop
  | nil {i : Nat} : Spans data i [] i
  | cons {i n k c : Nat} {cs : List Nat} : i < data.length →
      valueOf (data.drop i) = some (c, n) → Spans data (i + n) cs k → Spans data i (c :: cs) k

theorem Spans.snoc (h : Spans data i cs j) (hlt : j < data.length) (hc : valueOf (data.drop j) = some (c, n)) :
    Spans data i (cs ++ [c]) (j + n) := by
  induction h with
  | nil => exact .cons hlt hc .nil
  | cons hi h _ ih => exact .cons hi h (ih hlt hc)

theorem drop_ne_nil (h : i < data.length) : data.drop i ≠ [] := by
  rw [← List.length_pos_iff, List.length_drop]
  omega

theorem Spans.decodes {later : List Nat} (h : Spans data i cs j)
    (hlater : Decodes (data.drop j) later) : Decodes (data.drop i) (cs ++ later) := by
  induction h with
  | nil => exact hlater
  | @cons i n k c cs hi h _ ih =>
    refine .cons (drop_ne_nil hi) h ?_
    rw [List.drop_drop]
    exact ih hlater

theorem valueOf_ascii {b : UInt8} (hb : data[i]? = some b)
    (h : b.toNat ≤ kMaxOneByteChar) : valueOf (data.drop i) = some (b.toNat, 1) := by
  obtain ⟨hlt, rfl⟩ := List.getElem?_eq_some_iff.1 hb
  rw [List.drop_eq_getElem_cons hlt, valueOf, List.length_cons, if_neg (Nat.succ_ne_zero _)]
  grind

/-- A step that is good has a character that fits a word beside its marker, and so has a bad one. -/
theorem Step.lt_word (h : Step bytes c n) : c < 2 ^ 24 := by
  cases h with
  | good h => exact lt_of_le_of_lt h.le_max (by decide)
  | bad h => decide

theorem fits_empty (hs : 8 ≤ s) (c : Nat) (buffer : Vector UInt8 s) :
    encodeAsciiCharacter c buffer 0 ≠ none ∧ encodeNonAsciiCharacter c buffer 0 ≠ none := by
  constructor
  · rw [encodeAsciiCharacter, dif_pos (by omega)]
    exact some_ne_none _
  · have hroom : ¬ aligned 0 + kUcharSize > s := Nat.not_lt_of_le (le_trans (by decide) hs)
    rw [encodeNonAsciiCharacter, dif_neg hroom]
    exact some_ne_none _

/-- The characters that the buffer holds are those of the input up to the offset. -/
structure Filled (data : List UInt8) (start : Nat) (buffer : Vector UInt8 s) (cs : List Nat)
    (cursor offset : Nat) : Prop where
  holds : Holds (fun i => buffer[i]?) 0 cs cursor
  spans : Spans data start cs offset
  le_length : offset ≤ data.length
  empty : cs = [] → cursor = 0 ∧ offset < data.length

theorem fillLoop_spec (hs : 8 ≤ s) {start : Nat} {fuel : Nat} :
    ∀ {buffer : Vector UInt8 s} {cs : List Nat} {cursor offset : Nat},
      Filled data start buffer cs cursor offset → data.length - offset < fuel →
      ∃ buffer' offset' cs' cursor',
        fillLoop data fuel buffer cursor offset cs.length = some (buffer', offset', cs'.length) ∧
          Filled data start buffer' cs' cursor' offset' ∧ cs' ≠ [] := by
  induction fuel with
  | zero => omega
  | succ fuel ih =>
    intro buffer cs cursor offset h hfuel
    unfold fillLoop
    by_cases hlt : offset < data.length
    case neg =>
      rw [if_neg hlt]
      exact ⟨_, _, _, _, rfl, h, fun hnil => hlt (h.empty hnil).2⟩
    rw [if_pos hlt]
    have hget := List.getElem?_eq_getElem hlt
    simp only [hget, bind_eq_bind, bind_some]
    by_cases hascii : data[offset].toNat ≤ kMaxOneByteChar
    · rw [if_pos hascii]
      cases hwrite : encodeAsciiCharacter data[offset].toNat buffer cursor with
      | none =>
        refine ⟨_, _, _, _, rfl, h, fun hnil => ?_⟩
        rw [(h.empty hnil).1] at hwrite
        exact (fits_empty hs _ buffer).1 hwrite
      | some r =>
        obtain ⟨hdec, hsame⟩ := encodeAsciiCharacter_spec hascii hwrite
        have hvalue := valueOf_ascii hget hascii
        have hfill : Filled data start r.1 (cs ++ [data[offset].toNat]) r.2 (offset + 1) :=
          ⟨(h.holds.congr hsame).snoc hdec, h.spans.snoc hlt hvalue, hlt, by simp⟩
        have hrun := ih hfill (by omega)
        rwa [List.length_append] at hrun
    · rw [if_neg hascii]
      obtain ⟨c, n, hvalue, hstep⟩ := valueOf_step (drop_ne_nil hlt)
      have hpos := hstep.pos
      have hle := hstep.le_length (drop_ne_nil hlt)
      rw [List.length_drop] at hle
      simp only [hvalue, bind_some]
      cases hwrite : encodeNonAsciiCharacter c buffer cursor with
      | none =>
        refine ⟨_, _, _, _, rfl, h, fun hnil => ?_⟩
        rw [(h.empty hnil).1] at hwrite
        exact (fits_empty hs _ buffer).2 hwrite
      | some r =>
        obtain ⟨hdec, hsame⟩ := encodeNonAsciiCharacter_spec hstep.lt_word hwrite
        have hfill : Filled data start r.1 (cs ++ [c]) r.2 (offset + n) :=
          ⟨(h.holds.congr hsame).snoc hdec, h.spans.snoc hlt hvalue, by omega, by simp⟩
        have hrun := ih hfill (by omega)
        rwa [List.length_append] at hrun

/-! ## Blocks -/

/-- The ASCII bytes from a place on are a block of themselves. -/
theorem asciiRun_spec (data : List UInt8) (start : Nat) : ∀ {rest : List UInt8} {i : Nat},
    rest = data.drop (start + i) → start + i ≤ data.length → ∃ cs, cs.length = asciiRun rest ∧
        Holds (fun n => data[start + n]?) i cs (i + asciiRun rest) ∧
        Spans data (start + i) cs (start + i + asciiRun rest) ∧
        start + i + asciiRun rest ≤ data.length := by
  intro rest
  induction rest with
  | nil => exact fun _ hle => ⟨[], rfl, .nil, .nil, hle⟩
  | cons b rest ih =>
    intro i hrest hle
    by_cases hb : b.toNat ≤ kMaxOneByteChar
    · have hget : data[start + i]? = some b := by
        have := congrArg (fun l => l[0]?) hrest
        simpa using this.symm
      obtain ⟨hlt, -⟩ := List.getElem?_eq_some_iff.1 hget
      have hnext : rest = data.drop (start + (i + 1)) := by
        have := congrArg List.tail hrest
        rwa [List.tail_cons, List.tail_drop, add_assoc] at this
      obtain ⟨cs, hlen, hholds, hspans, hend⟩ := ih hnext hlt
      refine ⟨b.toNat :: cs, ?_, .cons (decodeCharacter_ascii _ hget hb) ?_,
        .cons hlt (valueOf_ascii hget hb) ?_, ?_⟩ <;>
        simp only [asciiRun, if_pos hb, List.length_cons]
      · omega
      · grind
      · grind
      · omega
    · refine ⟨[], ?_, ?_, ?_, ?_⟩ <;> simp only [asciiRun, if_neg hb]
      · rfl
      · exact .nil
      · exact .nil
      · exact hle

/-- The characters still to be delivered: those of the block, then those behind it. -/
structure Ready (st : Utf8InputBuffer s) (cs : List Nat) : Prop where
  chars : ∃ block later k, cs = block ++ later ∧ st.remaining = block.length ∧
    Holds st.read st.cursor block k ∧ Decodes (st.input.drop st.offset) later ∧
    (block = [] → later = [])
  le_length : st.offset ≤ st.input.length

/-- A block with the characters of the input from `start` on leaves those behind it. -/
theorem ready_of_block {st : Utf8InputBuffer s} {start : Nat} (block : List Nat) (k : Nat)
    (hcs : Decodes (st.input.drop start) cs) (hrem : st.remaining = block.length)
    (hholds : Holds st.read st.cursor block k) (hspans : Spans st.input start block st.offset)
    (hle : st.offset ≤ st.input.length) (hblock : block ≠ []) : Ready st cs := by
  obtain ⟨later, hlater⟩ := decodes_total (st.input.drop st.offset)
  have heq := hcs.unique (hspans.decodes hlater)
  exact ⟨⟨block, later, k, heq, hrem, hholds, hlater, fun hnil => absurd hnil hblock⟩, hle⟩

theorem fillBuffer_ready (hs : 8 ≤ s) (st : Utf8InputBuffer s)
    (hcur : st.cursor = 0) (hle : st.offset ≤ st.input.length)
    (hcs : Decodes (st.input.drop st.offset) cs) :
    ∃ st', st.fillBuffer = some st' ∧ Ready st' cs := by
  unfold Utf8InputBuffer.fillBuffer readBlock
  by_cases hend : st.offset = st.input.length
  · simp only [if_pos hend, bind_eq_bind, bind_some]
    have hdrop := List.drop_eq_nil_iff.2 (le_of_eq hend.symm)
    have hnil : cs = [] := (hdrop ▸ hcs).unique .nil
    exact ⟨_, rfl, ⟨⟨[], cs, _, rfl, rfl, .nil, hcs, fun _ => hnil⟩, hle⟩⟩
  have hlt := Nat.lt_of_le_of_ne hle hend
  have hget := List.getElem?_eq_getElem hlt
  simp only [if_neg hend, hget, bind_eq_bind, bind_some]
  by_cases hascii : st.input[st.offset].toNat ≤ kMaxOneByteChar
  · simp only [if_pos hascii]
    obtain ⟨block, hlen, hholds, hspans, hlast⟩ :=
      asciiRun_spec st.input st.offset (i := 1) rfl hlt
    refine ⟨_, rfl, ready_of_block (st.input[st.offset].toNat :: block) _ hcs ?_
      (.cons (decodeCharacter_ascii _ ?_ hascii) (k := 1 + asciiRun (st.input.drop (st.offset + 1))) ?_)
      (.cons hlt (valueOf_ascii hget hascii) hspans)
      hlast (List.cons_ne_nil _ _)⟩
    · simp only [List.length_cons]
      omega
    · rw [hcur]
      exact hget
    · rw [hcur]
      exact hholds
  · simp only [if_neg hascii]
    have hempty : Filled st.input st.offset st.utilBuffer [] 0 st.offset :=
      ⟨.nil, .nil, hle, fun _ => ⟨rfl, hlt⟩⟩
    obtain ⟨buffer, offset, block, cursor, hrun, hfill, hne⟩ :=
      fillLoop_spec hs hempty (Nat.lt_succ_self _)
    rw [List.length_nil] at hrun
    simp only [hrun, bind_some]
    refine ⟨_, rfl, ready_of_block block cursor hcs rfl ?_ hfill.spans hfill.le_length hne⟩
    rw [hcur]
    exact hfill.holds

theorem getNext_ready (hs : 8 ≤ s) {st : Utf8InputBuffer s}
    (h : Ready st (c :: cs)) : ∃ st', st.getNext = some (c, st') ∧ Ready st' cs := by
  obtain ⟨⟨block, later, k, heq, hrem, hholds, hlater, hlast⟩, hle⟩ := h
  cases hholds with
  | nil => grind
  | @cons _ j _ c' block hdec hholds =>
    obtain ⟨rfl, rfl⟩ := List.cons.inj heq
    unfold Utf8InputBuffer.getNext
    simp only [hdec, bind_eq_bind, bind_some]
    by_cases hone : st.remaining = 1
    · rw [if_pos hone]
      have hnil : block = [] := by
        grind
      subst hnil
      obtain ⟨st', hfill, hready⟩ := fillBuffer_ready hs { st with cursor := 0 } rfl hle hlater
      grind
    · rw [if_neg hone]
      refine ⟨_, rfl, ⟨block, later, k, rfl, ?_, hholds, hlater, fun hnil => ?_⟩, hle⟩
      · simp [hrem]
      grind

theorem Ready.deliver (hs : 8 ≤ s) : ∀ {st : Utf8InputBuffer s} {fuel : Nat},
    Ready st cs → cs.length < fuel → st.deliver fuel = some cs := by
  induction cs with
  | nil =>
    intro st fuel h hfuel
    obtain ⟨⟨block, later, k, heq, hrem, -⟩, -⟩ := h
    have hnil : block = [] := (List.append_eq_nil_iff.1 heq.symm).1
    cases fuel with
    | zero => omega
    | succ fuel => simp [Utf8InputBuffer.deliver, Utf8InputBuffer.hasMore, hrem, hnil]
  | cons c cs ih =>
    intro st fuel h hfuel
    cases fuel with
    | zero => omega
    | succ fuel =>
      have hmore : st.hasMore = true := by
        obtain ⟨⟨block, later, k, heq, hrem, -, -, hlast⟩, -⟩ := h
        grind [Utf8InputBuffer.hasMore]
      obtain ⟨st', hnext, hready⟩ := getNext_ready hs h
      simp_all [Utf8InputBuffer.deliver]

theorem Decodes.length_le (h : Decodes bytes cs) : cs.length ≤ bytes.length := by
  induction h with
  | nil => exact le_rfl
  | @cons bytes c n cs hne hvalue _ ih =>
    obtain ⟨c', n', hvalue', hstep⟩ := valueOf_step hne
    rw [hvalue] at hvalue'
    cases hvalue'
    have hpos := hstep.pos
    have hlen := List.length_pos_iff.2 hne
    rw [List.length_drop] at ih
    rw [List.length_cons]
    omega

/-- Whatever buffer reads the bytes, it delivers the characters that decoding them gives. -/
theorem reset_deliver (hs : 8 ≤ s) (st : Utf8InputBuffer s)
    (h : Decodes bytes cs) : ∃ st', st.reset 0 bytes = some st' ∧
      ∀ fuel, bytes.length < fuel → st'.deliver fuel = some cs := by
  obtain ⟨st', hfill, hready⟩ := fillBuffer_ready hs
    { st with input := bytes, remaining := 0, cursor := 0, offset := 0 } rfl
    (Nat.zero_le _) h
  exact ⟨st', hfill, fun fuel hfuel =>
    hready.deliver hs (Nat.lt_of_le_of_lt h.length_le hfuel)⟩

theorem good_iff_shortest (hn : n ≤ bytes.length) :
    Good bytes c n ↔ Octets.Shortest (octets (bytes.take n)) c := by
  rw [Octets.shortest_iff]
  exact ⟨fun h => ⟨lt_of_le_of_lt h.le_max (by decide), h.octets⟩,
    fun h => ⟨Nat.le_of_lt_succ h.1, hn, h.2⟩⟩

/-- Decoding never reads behind the bytes, takes shortest forms only, gives back what was encoded,
and is the same through a buffer of any size. -/
theorem utf8_decoding : (∀ bytes : List UInt8, bytes ≠ [] → ∃ c n, valueOf bytes = some (c, n) ∧ 0 < n ∧
      n ≤ bytes.length ∧ (Octets.Shortest (octets (bytes.take n)) c ∨
        c = kBadChar ∧ n = 1 ∧ ∀ k c', ¬ Octets.Shortest (octets (bytes.take k)) c')) ∧
    (∀ c, c ≤ kMaxFourByteChar → (encode c).length = length c ∧
      ∀ rest, valueOf (encode c ++ rest) = some (c, length c)) ∧
    (∀ cs : List Nat, (∀ c ∈ cs, c ≤ kMaxFourByteChar) →
      decode ((cs.flatMap encode).length + 1) (cs.flatMap encode) = some cs) ∧
    (∀ bytes : List UInt8, ∃ cs, decode (bytes.length + 1) bytes = some cs ∧
      ∀ s, 8 ≤ s → ∀ st : Utf8InputBuffer s, ∃ st', st.reset 0 bytes = some st' ∧
        ∀ fuel, bytes.length < fuel → st'.deliver fuel = some cs) := by
  refine ⟨fun bytes hne => ?_, fun c hc => ⟨length_encode c, fun rest => ?_⟩, fun cs hcs => ?_, fun bytes => ?_⟩
  · obtain ⟨c, n, hvalue, hstep⟩ := valueOf_step hne
    refine ⟨c, n, hvalue, hstep.pos, hstep.le_length hne, ?_⟩
    cases hstep with
    | good h => exact .inl ((good_iff_shortest h.le_length).1 h)
    | bad h =>
      refine .inr ⟨rfl, rfl, fun k c' hshort => ?_⟩
      rw [List.take_eq_take_min] at hshort
      exact h c' _ ((good_iff_shortest (Nat.min_le_right _ _)).2 hshort)
  · exact (octets_encode_good hc rest).valueOf
  · exact (decodes_encode hcs).decode (Nat.lt_succ_self _)
  · obtain ⟨cs, hcs⟩ := decodes_total bytes
    exact ⟨cs, hcs.decode (Nat.lt_succ_self _), fun s hs st => reset_deliver hs st hcs⟩

end W16.Unibrow
