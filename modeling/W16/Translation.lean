import Mathlib

/-!
# Deoptimization translations

A translation is a sequence of commands, written as 32-bit integers. An integer is
stored as its magnitude and its sign, in groups of seven bits whose lowest bit says
whether another group follows. The smallest integer has no magnitude of 31 bits, and
it is the only one that is not read back.
-/
namespace W16.Deoptimizer

open List

set_option linter.dupNamespace false

abbrev Byte := BitVec 8

/-- The loop of `TranslationBuffer::Add`; five rounds are enough for 32 bits. -/
def addBits : Nat → BitVec 32 → List Byte
  | 0, _ => []
  | n + 1, bits =>
    let next := bits >>> 7
    (((bits <<< 1) &&& 0xFF) ||| (if next ≠ 0 then 1 else 0)).setWidth 8 ::
      if next ≠ 0 then addBits n next else []

/-- The sign in the lowest bit and the magnitude above it. -/
def signMagnitude (value : BitVec 32) : BitVec 32 :=
  ((if value.slt 0 then -value else value) <<< 1) ||| (if value.slt 0 then 1 else 0)

/-- `TranslationBuffer::Add`: the bytes that are added. -/
def add (value : BitVec 32) : List Byte := addBits 5 (signMagnitude value)

/-- The loop of `TranslationIterator::Next`. The iterator is the list of the bytes from
its index on. -/
def nextBits : List Byte → Nat → BitVec 32 → Option (BitVec 32 × List Byte)
  | [], _, _ => none
  | next :: rest, i, bits =>
    let bits := bits ||| ((next >>> 1).setWidth 32 <<< i)
    if next &&& 1 = 0 then some (bits, rest) else nextBits rest (i + 7) bits

def fromSignMagnitude (bits : BitVec 32) : BitVec 32 :=
  if bits &&& 1 = 1 then -(bits >>> 1) else bits >>> 1

/-- `TranslationIterator::Next`. -/
def next (buffer : List Byte) : Option (BitVec 32 × List Byte) :=
  (nextBits buffer 0 0).map fun r => (fromSignMagnitude r.1, r.2)

/-- `TranslationIterator::Skip`. -/
def skip : Nat → List Byte → Option (List Byte)
  | 0, buffer => some buffer
  | n + 1, buffer => (next buffer).bind fun r => skip n r.2

/-- The integers that `n` calls of `Next` return, and what is left. -/
def nexts : Nat → List Byte → Option (List (BitVec 32) × List Byte)
  | 0, buffer => some ([], buffer)
  | n + 1, buffer => do
    let (value, buffer) ← next buffer
    let (values, buffer) ← nexts n buffer
    some (value :: values, buffer)

inductive Opcode where
  | begin
  | frame
  | register
  | int32Register
  | doubleRegister
  | stackSlot
  | int32StackSlot
  | doubleStackSlot
  | literal
  | argumentsObject
  | duplicate
  deriving DecidableEq, Repr

def opcodes : List Opcode :=
  [.begin, .frame, .register, .int32Register, .doubleRegister, .stackSlot, .int32StackSlot,
    .doubleStackSlot, .literal, .argumentsObject, .duplicate]

/-- The value of the enumerator. -/
def Opcode.value (op : Opcode) : BitVec 32 := .ofNat 32 (opcodes.idxOf op)

def numberOfOperandsFor : Opcode → Nat
  | .argumentsObject | .duplicate => 0
  | .begin | .register | .int32Register | .doubleRegister | .stackSlot | .int32StackSlot
  | .doubleStackSlot | .literal => 1
  | .frame => 3

/-- The commands of `Translation` with their operands; `begin` is written by the
constructor. A register is given by its code or its allocation index. -/
inductive Command where
  | begin (frameCount : BitVec 32)
  | beginFrame (nodeId literalId height : BitVec 32)
  | storeRegister (reg : BitVec 32)
  | storeInt32Register (reg : BitVec 32)
  | storeDoubleRegister (reg : BitVec 32)
  | storeStackSlot (index : BitVec 32)
  | storeInt32StackSlot (index : BitVec 32)
  | storeDoubleStackSlot (index : BitVec 32)
  | storeLiteral (literalId : BitVec 32)
  | storeArgumentsObject
  | markDuplicate
  deriving DecidableEq, Repr

def Command.opcode : Command → Opcode
  | begin _ => .begin
  | beginFrame _ _ _ => .frame
  | storeRegister _ => .register
  | storeInt32Register _ => .int32Register
  | storeDoubleRegister _ => .doubleRegister
  | storeStackSlot _ => .stackSlot
  | storeInt32StackSlot _ => .int32StackSlot
  | storeDoubleStackSlot _ => .doubleStackSlot
  | storeLiteral _ => .literal
  | storeArgumentsObject => .argumentsObject
  | markDuplicate => .duplicate

def Command.operands : Command → List (BitVec 32)
  | begin v | storeRegister v | storeInt32Register v | storeDoubleRegister v | storeStackSlot v
  | storeInt32StackSlot v | storeDoubleStackSlot v | storeLiteral v => [v]
  | beginFrame nodeId literalId height => [nodeId, literalId, height]
  | storeArgumentsObject | markDuplicate => []

/-- The integers that a command adds. -/
def Command.values (c : Command) : List (BitVec 32) := c.opcode.value :: c.operands

def Command.write (c : Command) : List Byte := c.values.flatMap add

def write (commands : List Command) : List Byte := commands.flatMap Command.write

variable {w v : BitVec 32} {rest : List Byte}

/-- The seven bits of a group. -/
theorem group_getLsbD (w : BitVec 32) (k : Nat) (flag : BitVec 32) (hflag : flag = 0 ∨ flag = 1) :
    ((((w <<< 1) &&& 0xFF ||| flag).setWidth 8 >>> 1).setWidth 32).getLsbD k =
      (decide (k < 7) && w.getLsbD k) := by
  have hflag' : flag.getLsbD (1 + k) = false := by
    grind -linarith
  have hmask : (0xFF : BitVec 32).getLsbD (1 + k) = decide (k < 7) := by
    have : (0xFF : BitVec 32) = (BitVec.allOnes 8).setWidth 32 := by decide
    rw [this, BitVec.getLsbD_setWidth, BitVec.getLsbD_allOnes, Bool.and_eq_decide]
    grind -linarith
  grind -linarith

/-- A group of seven bits and the remaining ones. -/
theorem or_groups (bits w : BitVec 32) (i : Nat) (flag : BitVec 32) (hflag : flag = 0 ∨ flag = 1) :
    bits ||| ((((w <<< 1) &&& 0xFF ||| flag).setWidth 8 >>> 1).setWidth 32 <<< i) |||
        (w >>> 7) <<< (i + 7) = bits ||| w <<< i := by
  apply BitVec.eq_of_getLsbD_eq
  intro j hj
  simp only [BitVec.getLsbD_or, BitVec.getLsbD_shiftLeft, BitVec.getLsbD_ushiftRight,
    group_getLsbD w _ flag hflag]
  grind -linarith

/-- The lowest bit of a group. -/
theorem group_and_one (w flag : BitVec 32) (hflag : flag = 0 ∨ flag = 1) :
    ((((w <<< 1) &&& 0xFF ||| flag).setWidth 8 &&& 1 = (0 : Byte)) ↔ flag = 0) := by
  have hbit : ((w <<< 1 &&& 0xFF ||| flag).setWidth 8 : Byte).getLsbD 0 = flag.getLsbD 0 := by
    simp
  constructor
  · intro h
    have h₀ : (((w <<< 1 &&& 0xFF ||| flag).setWidth 8 : Byte) &&& 1).getLsbD 0 = false := by
      rw [h]
      simp
    grind -linarith
  grind -linarith

/-- The last group. -/
theorem nextBits_last (n : Nat) (w bits : BitVec 32) (i : Nat) (hw : w >>> 7 = 0#32) (rest : List Byte) :
    nextBits (addBits (n + 1) w ++ rest) i bits = some (bits ||| w <<< i, rest) := by
  have hlast := (group_and_one w 0 (.inl rfl)).2 rfl
  have hgroups := or_groups bits w i 0 (.inl rfl)
  rw [hw, BitVec.zero_shiftLeft, BitVec.or_zero] at hgroups
  simp_all [addBits, nextBits]

/-- What is read from the groups of `w`. -/
theorem nextBits_addBits (n : Nat) (w bits : BitVec 32) (i : Nat)
    (hw : w.toNat < 2 ^ (7 * (n + 1))) (rest : List Byte) :
    nextBits (addBits (n + 1) w ++ rest) i bits = some (bits ||| w <<< i, rest) := by
  induction n generalizing w bits i with
  | zero =>
    refine nextBits_last 0 w bits i (BitVec.eq_of_toNat_eq ?_) rest
    rw [BitVec.toNat_ushiftRight, Nat.shiftRight_eq_div_pow]
    exact Nat.div_eq_of_lt hw
  | succ n ih =>
    by_cases hnext : w >>> 7 = 0#32
    · exact nextBits_last _ w bits i hnext rest
    · have hmore : ¬(((w <<< 1) &&& 0xFF ||| 1).setWidth 8 &&& 1 = (0 : Byte)) := by
        rw [group_and_one w 1 (.inr rfl)]
        decide
      have hsmall : (w >>> 7).toNat < 2 ^ (7 * (n + 1)) := by
        rw [BitVec.toNat_ushiftRight, Nat.shiftRight_eq_div_pow]
        grind -linarith
      have hnext' : w >>> 7 ≠ 0 := hnext
      rw [addBits]
      simp only [hnext', ne_eq, not_false_eq_true, if_true, cons_append, nextBits, hmore, if_false]
      rw [ih _ _ _ hsmall, or_groups bits w i 1 (.inr rfl)]

theorem length_addBits (n : Nat) (w : BitVec 32) : (addBits n w).length ≤ n := by
  induction n generalizing w with
  | zero => simp [addBits]
  | succ n ih =>
    grind -linarith [addBits]

/-- A magnitude of 31 bits with its sign below. -/
theorem fromSignMagnitude_magnitude (m flag : BitVec 32) (hm : m.msb = false) (hflag : flag = 0 ∨ flag = 1) :
    fromSignMagnitude (m <<< 1 ||| flag) = if flag = 1 then -m else m := by
  have hand : (m <<< 1 ||| flag) &&& 1 = flag := by
    grind -linarith
  have hshift : (m <<< 1 ||| flag) >>> 1 = m := by
    grind -linarith
  rw [fromSignMagnitude, hand, hshift]

/-- The sign and the magnitude are those of every integer but the smallest. -/
theorem fromSignMagnitude_signMagnitude (hv : v ≠ BitVec.intMin 32) :
    fromSignMagnitude (signMagnitude v) = v := by
  rw [signMagnitude]
  by_cases hneg : v.msb = true
  · have hslt : v.slt 0 = true := BitVec.slt_zero_eq_msb.trans hneg
    have hne : v ≠ 0#32 := by
      rintro rfl
      simp at hneg
    have hmsb : (-v).msb = false := by
      simp [hv, hneg]
    rw [if_pos hslt, if_pos hslt, fromSignMagnitude_magnitude _ _ hmsb (.inr rfl), if_pos rfl, BitVec.neg_neg]
  · rw [Bool.not_eq_true] at hneg
    have hslt : ¬v.slt 0 = true := by
      rw [Bool.not_eq_true]
      exact BitVec.slt_zero_eq_msb.trans hneg
    rw [if_neg hslt, if_neg hslt, fromSignMagnitude_magnitude _ _ hneg (.inl rfl), if_neg (by decide)]

/-- What is read back for an integer. -/
def readBack (v : BitVec 32) : BitVec 32 := fromSignMagnitude (signMagnitude v)

theorem readBack_eq_iff : readBack v = v ↔ v ≠ BitVec.intMin 32 := by
  refine ⟨?_, fromSignMagnitude_signMagnitude⟩
  rintro h rfl
  revert h
  decide

theorem map_readBack_eq_iff {vs : List (BitVec 32)} : vs.map readBack = vs ↔ ∀ v ∈ vs, readBack v = v := by
  have h := map_inj_left (l := vs) (f := readBack) (g := id)
  rwa [map_id] at h

theorem readBack_opcode (op : Opcode) : readBack op.value = op.value := by
  cases op <;> decide

theorem next_add (v : BitVec 32) (rest : List Byte) : next (add v ++ rest) = some (readBack v, rest) := by
  have hsmall : (signMagnitude v).toNat < 2 ^ (7 * (4 + 1)) :=
    Nat.lt_trans (signMagnitude v).isLt (by decide)
  rw [next, add, nextBits_addBits 4 _ 0 0 hsmall]
  simp [readBack]

/-- What is read from any integers. -/
theorem nexts_add (vs : List (BitVec 32)) (rest : List Byte) :
    nexts vs.length (vs.flatMap add ++ rest) = some (vs.map readBack, rest) := by
  induction vs with
  | nil => rfl
  | cons v vs ih =>
    simp [nexts, next_add, ih]

theorem skip_add (vs : List (BitVec 32)) (rest : List Byte) :
    skip vs.length (vs.flatMap add ++ rest) = some rest := by
  induction vs with
  | nil => rfl
  | cons v vs ih =>
    simp [skip, next_add, ih]

theorem length_operands (c : Command) : c.operands.length = numberOfOperandsFor c.opcode := by
  cases c <;> rfl

/-- Reading the translation: from the index of any command on, the opcodes and operands
are returned in their order, the operands of an opcode are skipped as a whole, and no
integer takes more than five bytes. -/
structure RoundTrips (contents : List Byte) (commands : List Command) : Prop where
  read : ∀ front rest, commands = front ++ rest → nexts (rest.flatMap Command.values).length
        ((contents ++ write commands).drop (contents ++ write front).length) =
      some (rest.flatMap Command.values, [])
  skip : ∀ front (c : Command) rest, commands = front ++ c :: rest →
    ((next ((contents ++ write commands).drop (contents ++ write front).length)).bind fun r =>
        (Deoptimizer.skip (numberOfOperandsFor c.opcode) r.2).map fun buffer => (r.1, buffer)) =
      some (c.opcode.value, (contents ++ write commands).drop (contents ++ write (front ++ [c])).length)
  size : ∀ c ∈ commands, ∀ v ∈ c.values, (add v).length ≤ 5

theorem write_append (front rest : List Command) : write (front ++ rest) = write front ++ write rest :=
  flatMap_append

theorem drop_write (contents : List Byte) (front rest : List Command) :
    (contents ++ write (front ++ rest)).drop (contents ++ write front).length = write rest := by
  rw [write_append, ← append_assoc, drop_left]

/-- A translation is read back exactly when it does not contain the smallest integer. -/
theorem roundTrips_iff (contents : List Byte) (commands : List Command) :
    RoundTrips contents commands ↔ ∀ c ∈ commands, ∀ v ∈ c.operands, v ≠ BitVec.intMin 32 := by
  have hwrite : ∀ rest : List Command, write rest = (rest.flatMap Command.values).flatMap add := by
    intro rest
    rw [write, flatMap_assoc]
    rfl
  have hread : ∀ rest : List Command, nexts (rest.flatMap Command.values).length (write rest) =
      some ((rest.flatMap Command.values).map readBack, []) := by
    intro rest
    have := nexts_add (rest.flatMap Command.values) []
    rwa [append_nil, ← hwrite] at this
  constructor
  · intro h c hc v hv
    have hall := h.read [] commands rfl
    have hdrop := drop_write contents [] commands
    rw [nil_append] at hdrop
    rw [hdrop, hread, Option.some.injEq, Prod.mk.injEq, map_readBack_eq_iff] at hall
    have hmem : v ∈ commands.flatMap Command.values :=
      mem_flatMap.2 ⟨c, hc, mem_cons_of_mem _ hv⟩
    exact readBack_eq_iff.1 (hall.1 v hmem)
  · intro h
    refine ⟨?_, ?_, ?_⟩
    · rintro front rest rfl
      rw [drop_write, hread]
      refine congrArg (fun values => some (values, [])) (map_readBack_eq_iff.2 fun v hv => ?_)
      obtain ⟨c, hc, hv⟩ := mem_flatMap.1 hv
      rcases mem_cons.1 hv with rfl | hv
      · exact readBack_opcode c.opcode
      · exact readBack_eq_iff.2 (h c (mem_append_right _ hc) v hv)
    · rintro front c rest rfl
      have hnext := drop_write contents (front ++ [c]) rest
      rw [append_assoc, singleton_append] at hnext
      rw [drop_write, hnext]
      have hsplit : write (c :: rest) = add c.opcode.value ++ (c.operands.flatMap add ++ write rest) := by
        rw [← singleton_append, write_append, write, flatMap_singleton, Command.write,
          Command.values, flatMap_cons, append_assoc]
      rw [hsplit, next_add, Option.bind_some, readBack_opcode, ← length_operands, skip_add]
      rfl
    · exact fun c _ v _ => length_addBits 5 _

/-- A literal with the smallest integer as its id is read as the literal 0. -/
theorem intMin_not_readBack : ¬RoundTrips [] [.storeLiteral (BitVec.intMin 32)] := by
  intro h
  have hread := h.read [] [.storeLiteral (BitVec.intMin 32)] rfl
  revert hread
  decide

end W16.Deoptimizer
