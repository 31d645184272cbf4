import W16.BitFields

/-!
# Unallocated operands

`LUnallocated` packs the operand kind, a policy, a lifetime, a virtual register and a
signed fixed index into a word of 32 bits. The virtual register has a field of 17 bits, and
`kMaxVirtualRegisters` is twice what that field can hold.
-/
namespace W16.Lithium.Unallocated

open BitFields

set_option linter.dupNamespace false

/-- `LOperand::Kind`. -/
inductive Kind where
  | invalid
  | unallocated
  | constantOperand
  | stackSlot
  | doubleStackSlot
  | register
  | doubleRegister
  | argument
  deriving DecidableEq, Repr

inductive Policy where
  | none
  | any
  | fixedRegister
  | fixedDoubleRegister
  | fixedSlot
  | mustHaveRegister
  | writableRegister
  | sameAsFirstInput
  | ignore
  deriving DecidableEq, Repr

inductive Lifetime where
  | usedAtStart
  | usedAtEnd
  deriving DecidableEq, Repr

def Kind.code : Kind → BitVec 32
  | .invalid => 0
  | .unallocated => 1
  | .constantOperand => 2
  | .stackSlot => 3
  | .doubleStackSlot => 4
  | .register => 5
  | .doubleRegister => 6
  | .argument => 7

def Policy.code : Policy → BitVec 32
  | .none => 0
  | .any => 1
  | .fixedRegister => 2
  | .fixedDoubleRegister => 3
  | .fixedSlot => 4
  | .mustHaveRegister => 5
  | .writableRegister => 6
  | .sameAsFirstInput => 7
  | .ignore => 8

def Lifetime.code : Lifetime → BitVec 32
  | .usedAtStart => 0
  | .usedAtEnd => 1

def kKindFieldWidth : Nat := 3
def kPolicyWidth : Nat := 4
def kLifetimeWidth : Nat := 1
def kVirtualRegisterWidth : Nat := 17

def kPolicyShift : Nat := kKindFieldWidth
def kLifetimeShift : Nat := kPolicyShift + kPolicyWidth
def kVirtualRegisterShift : Nat := kLifetimeShift + kLifetimeWidth
def kFixedIndexShift : Nat := kVirtualRegisterShift + kVirtualRegisterWidth

def KindField : Field 32 := ⟨0, kKindFieldWidth, by decide⟩
def PolicyField : Field 32 := ⟨kPolicyShift, kPolicyWidth, by decide⟩
def LifetimeField : Field 32 := ⟨kLifetimeShift, kLifetimeWidth, by decide⟩
def VirtualRegisterField : Field 32 := ⟨kVirtualRegisterShift, kVirtualRegisterWidth, by decide⟩

def kMaxVirtualRegisters : Nat := 1 <<< (kVirtualRegisterWidth + 1)
def kMaxFixedIndex : Int := 63
def kMinFixedIndex : Int := -64

end Unallocated

open BitFields Unallocated

/-- An operand of kind `UNALLOCATED`, as its word. -/
structure LUnallocated where
  value_ : BitVec 32
  deriving DecidableEq, Repr

namespace LUnallocated

/-- The constructors: `ConvertTo(UNALLOCATED, 0)`, then `Initialize`. -/
def initialized (policy : Policy) (fixed_index : Int) (lifetime : Lifetime) : LUnallocated :=
  ⟨KindField.encode Kind.unallocated.code ||| BitVec.ofInt 32 0 <<< kKindFieldWidth |||
    PolicyField.encode policy.code ||| LifetimeField.encode lifetime.code |||
    BitVec.ofInt 32 fixed_index <<< kFixedIndexShift⟩

variable (operand : LUnallocated)

/-- The code of `kind()`. -/
def kind : BitVec 32 := KindField.decode operand.value_

/-- The code of `policy()`. -/
def policy : BitVec 32 := PolicyField.decode operand.value_

def isUsedAtStart : Bool := LifetimeField.decode operand.value_ == Lifetime.usedAtStart.code

def fixed_index : Int := (operand.value_.sshiftRight kFixedIndexShift).toInt

def virtual_register : BitVec 32 := VirtualRegisterField.decode operand.value_

def hasFixedPolicy : Bool :=
  operand.policy == Policy.fixedRegister.code ||
    operand.policy == Policy.fixedDoubleRegister.code || operand.policy == Policy.fixedSlot.code

def set_policy (policy : Policy) : LUnallocated := ⟨PolicyField.update operand.value_ policy.code⟩

def set_virtual_register (id : BitVec 32) : LUnallocated :=
  ⟨VirtualRegisterField.update operand.value_ id⟩

/-- `LAllocator::RecordTemporary`, with `next_virtual_register_` before and after. Its
assertion is the only bound on the ids. -/
def recordTemporary (next_virtual_register : Nat) : Option (Nat × LUnallocated) :=
  if next_virtual_register < kMaxVirtualRegisters then
    if operand.hasFixedPolicy then some (next_virtual_register, operand)
    else some (next_virtual_register + 1, operand.set_virtual_register (.ofNat 32 next_virtual_register))
  else none

end LUnallocated

namespace Unallocated

/-- What an operand says, as a record. -/
structure Fields where
  kind : Kind
  policy : Policy
  usedAtStart : Bool
  fixedIndex : Int
  virtualRegister : BitVec 32
  deriving DecidableEq, Repr

/-- The operand reads as the record. -/
structure Shows (operand : LUnallocated) (fields : Fields) : Prop where
  kind : operand.kind = fields.kind.code
  policy : operand.policy = fields.policy.code
  usedAtStart : operand.isUsedAtStart = fields.usedAtStart
  fixedIndex : operand.fixed_index = fields.fixedIndex
  virtualRegister : operand.virtual_register = fields.virtualRegister

/-- A call of one of the setters. -/
inductive Call where
  | setPolicy (value : Policy)
  | setVirtualRegister (id : BitVec 32)
  deriving DecidableEq, Repr

def Call.run (operand : LUnallocated) : Call → LUnallocated
  | .setPolicy value => operand.set_policy value
  | .setVirtualRegister id => operand.set_virtual_register id

/-- What a call is for: one field is set, the others stay. -/
def Call.intended (fields : Fields) : Call → Fields
  | .setPolicy value => { fields with policy := value }
  | .setVirtualRegister id => { fields with virtualRegister := id }

/-- The operand shows the values set last, now and after each of the calls. -/
def Tracks (operand : LUnallocated) (fields : Fields) : List Call → Prop
  | [] => Shows operand fields
  | call :: calls => Shows operand fields ∧ Tracks (call.run operand) (call.intended fields) calls

/-- The ids of the calls fit into the field of the virtual register. -/
def IdsFit (calls : List Call) : Prop :=
  ∀ id, Call.setVirtualRegister id ∈ calls → id.toNat < 2 ^ kVirtualRegisterWidth

theorem Kind.code_lt (kind : Kind) : kind.code.toNat < 2 ^ KindField.size := by
  cases kind <;> decide

theorem Policy.code_lt (policy : Policy) : policy.code.toNat < 2 ^ PolicyField.size := by
  cases policy <;> decide

theorem Kind.code_injective {p q : Kind} (h : p.code = q.code) : p = q := by
  cases p <;> cases q <;> first | rfl | exact absurd h (by decide)

theorem Policy.code_injective {p q : Policy} (h : p.code = q.code) : p = q := by
  cases p <;> cases q <;> first | rfl | exact absurd h (by decide)

variable {operand : LUnallocated} {fields : Fields}

/-- An operand shows one record only. -/
theorem Shows.unique {f g : Fields} (hf : Shows operand f) (hg : Shows operand g) : f = g := by
  have hkind := Kind.code_injective (hf.kind.symm.trans hg.kind)
  have hpolicy := Policy.code_injective (hf.policy.symm.trans hg.policy)
  have hstart := hf.usedAtStart.symm.trans hg.usedAtStart
  have hindex := hf.fixedIndex.symm.trans hg.fixedIndex
  have hreg := hf.virtualRegister.symm.trans hg.virtualRegister
  cases f
  simp_all

/-- `set_policy` shows the policy and keeps the rest. -/
theorem set_policy_shows (policy : Policy) (h : Shows operand fields) :
    Shows (operand.set_policy policy) { fields with policy := policy } := by
  have hv := policy.code_lt
  constructor
  case kind =>
    have hbelow := PolicyField.decode_update_below KindField operand.value_ policy.code (by decide)
    exact hbelow.trans h.kind
  case policy => exact PolicyField.decode_update operand.value_ policy.code hv
  case usedAtStart =>
    have habove :=
      PolicyField.decode_update_above LifetimeField operand.value_ policy.code hv (by decide)
    rw [LUnallocated.isUsedAtStart, LUnallocated.set_policy, habove]
    exact h.usedAtStart
  case fixedIndex =>
    have habove := sshiftRight_update PolicyField operand.value_ policy.code
      (k := kFixedIndexShift) (by decide) hv (by decide)
    rw [LUnallocated.fixed_index, LUnallocated.set_policy, habove]
    exact h.fixedIndex
  case virtualRegister =>
    have habove :=
      PolicyField.decode_update_above VirtualRegisterField operand.value_ policy.code hv (by decide)
    exact habove.trans h.virtualRegister

/-- `set_virtual_register` shows an id that fits and keeps the rest. -/
theorem set_virtual_register_shows {id : BitVec 32}
    (hv : id.toNat < 2 ^ kVirtualRegisterWidth) (h : Shows operand fields) :
    Shows (operand.set_virtual_register id) { fields with virtualRegister := id } := by
  constructor
  case kind =>
    have hbelow := VirtualRegisterField.decode_update_below KindField operand.value_ id (by decide)
    exact hbelow.trans h.kind
  case policy =>
    have hbelow :=
      VirtualRegisterField.decode_update_below PolicyField operand.value_ id (by decide)
    exact hbelow.trans h.policy
  case usedAtStart =>
    have hbelow :=
      VirtualRegisterField.decode_update_below LifetimeField operand.value_ id (by decide)
    rw [LUnallocated.isUsedAtStart, LUnallocated.set_virtual_register, hbelow]
    exact h.usedAtStart
  case fixedIndex =>
    have habove := sshiftRight_update VirtualRegisterField operand.value_ id
      (k := kFixedIndexShift) (by decide) hv (by decide)
    rw [LUnallocated.fixed_index, LUnallocated.set_virtual_register, habove]
    exact h.fixedIndex
  case virtualRegister => exact VirtualRegisterField.decode_update operand.value_ id hv

/-- Whatever was set, the id that is read fits the field. -/
theorem virtual_register_lt (operand : LUnallocated) :
    operand.virtual_register.toNat < 2 ^ kVirtualRegisterWidth :=
  VirtualRegisterField.decode_lt operand.value_

theorem tracks_shows {calls : List Call} (h : Tracks operand fields calls) : Shows operand fields := by
  cases calls with
  | nil => exact h
  | cons call calls => exact h.1

/-- A run of calls tracks the record just when its ids fit. -/
theorem tracks_iff (calls : List Call)
    (h : Shows operand fields) : Tracks operand fields calls ↔ IdsFit calls := by
  induction calls generalizing operand fields with
  | nil => simp [Tracks, IdsFit, h]
  | cons call calls ih =>
    cases call with
    | setPolicy value =>
      have hnext := ih (set_policy_shows value h)
      simpa [Tracks, IdsFit, h, Call.run, Call.intended] using hnext
    | setVirtualRegister id =>
      constructor
      · intro htracks
        have hshows := tracks_shows htracks.2
        have hid : id.toNat < 2 ^ kVirtualRegisterWidth := by
          have hlt := virtual_register_lt (operand.set_virtual_register id)
          rwa [show (operand.set_virtual_register id).virtual_register = id from
            hshows.virtualRegister] at hlt
        have hrest := (ih (set_virtual_register_shows hid h)).1 htracks.2
        intro other hother
        cases List.mem_cons.1 hother with
        | inl heq => cases heq; exact hid
        | inr hmem => exact hrest other hmem
      · intro hfit
        have hid := hfit id List.mem_cons_self
        have hnext := ih (set_virtual_register_shows hid h)
        exact ⟨h, hnext.2 fun other hother => hfit other (List.mem_cons_of_mem _ hother)⟩

/-- The word of a new operand below the fixed index. -/
def lowBits (policy : Policy) (lifetime : Lifetime) : BitVec 32 :=
  KindField.encode Kind.unallocated.code ||| BitVec.ofInt 32 0 <<< kKindFieldWidth |||
    PolicyField.encode policy.code ||| LifetimeField.encode lifetime.code

theorem lowBits_lt (policy : Policy) (lifetime : Lifetime) :
    (lowBits policy lifetime).toNat < 2 ^ kVirtualRegisterShift := by
  cases policy <;> cases lifetime <;> decide

/-- A shifted index adds no bits to a field below it. -/
theorem decode_or_index (f : Field 32) (low : BitVec 32) (index : Int)
    (h : f.shift + f.size ≤ kFixedIndexShift) :
    f.decode (low ||| BitVec.ofInt 32 index <<< kFixedIndexShift) = f.decode low := by
  apply BitVec.eq_of_getLsbD_eq
  grind -linarith [Field.decode_getLsbD]

theorem fixed_index_shifted (n : Fin 128) :
    ((BitVec.ofInt 32 ((n.val : Int) - 64) <<< kFixedIndexShift).sshiftRight
      kFixedIndexShift).toInt = (n.val : Int) - 64 := by
  revert n
  decide

/-- What the constructors show. -/
theorem initialized_shows (policy : Policy) {fixed_index : Int} (lifetime : Lifetime)
    (hmin : kMinFixedIndex ≤ fixed_index) (hmax : fixed_index ≤ kMaxFixedIndex) :
    Shows (.initialized policy fixed_index lifetime)
      ⟨.unallocated, policy, lifetime == .usedAtStart, fixed_index, 0⟩ := by
  have hlow := lowBits_lt policy lifetime
  constructor
  case kind =>
    refine (decode_or_index KindField (lowBits policy lifetime) fixed_index (by decide)).trans ?_
    cases policy <;> cases lifetime <;> rfl
  case policy =>
    refine (decode_or_index PolicyField (lowBits policy lifetime) fixed_index (by decide)).trans ?_
    cases policy <;> cases lifetime <;> rfl
  case usedAtStart =>
    have h := decode_or_index LifetimeField (lowBits policy lifetime) fixed_index (by decide)
    have hvalue : (LUnallocated.initialized policy fixed_index lifetime).value_ =
        lowBits policy lifetime ||| BitVec.ofInt 32 fixed_index <<< kFixedIndexShift := rfl
    rw [LUnallocated.isUsedAtStart, hvalue, h]
    cases policy <;> cases lifetime <;> rfl
  case fixedIndex =>
    have hn : fixed_index = ((fixed_index + 64).toNat : Int) - 64 := by
      simp only [kMinFixedIndex] at hmin
      omega
    have hfin : (fixed_index + 64).toNat < 128 := by
      simp only [kMaxFixedIndex] at hmax
      omega
    have hshift := fixed_index_shifted ⟨(fixed_index + 64).toNat, hfin⟩
    have hcongr := sshiftRight_congr
      (x := lowBits policy lifetime ||| BitVec.ofInt 32 fixed_index <<< kFixedIndexShift)
      (y := BitVec.ofInt 32 fixed_index <<< kFixedIndexShift) (k := kFixedIndexShift) (by decide)
      (by
        intro i hi _
        have hzero := Field.getLsbD_of_lt _ hlow (i := i) (le_trans (by decide) hi)
        rw [BitVec.getLsbD_or, hzero, Bool.false_or])
    rw [← hn] at hshift
    exact (congrArg BitVec.toInt hcongr).trans hshift
  case virtualRegister =>
    refine (decode_or_index VirtualRegisterField (lowBits policy lifetime) fixed_index (by decide)).trans ?_
    cases policy <;> cases lifetime <;> rfl

/-- A new operand tracks every run of calls whose ids fit into 17 bits, and no other. -/
theorem fields_track_iff (policy : Policy) {fixed_index : Int} (lifetime : Lifetime)
    (hmin : kMinFixedIndex ≤ fixed_index) (hmax : fixed_index ≤ kMaxFixedIndex)
    (calls : List Call) :
    Tracks (.initialized policy fixed_index lifetime)
        ⟨.unallocated, policy, lifetime == .usedAtStart, fixed_index, 0⟩ calls ↔
      IdsFit calls :=
  tracks_iff calls (initialized_shows policy lifetime hmin hmax)

theorem fields_track_slot : kMinFixedIndex ≤ -5 ∧ (-5 : Int) ≤ kMaxFixedIndex ∧
      (Tracks (.initialized .fixedSlot (-5) .usedAtEnd) ⟨.unallocated, .fixedSlot, false, -5, 0⟩
          [.setVirtualRegister 131071, .setPolicy .any] ↔
        IdsFit [.setVirtualRegister 131071, .setPolicy .any]) :=
  ⟨by decide, by decide, fields_track_iff .fixedSlot .usedAtEnd (by decide) (by decide)
      [.setVirtualRegister 131071, .setPolicy .any]⟩

/-- `RecordTemporary` hands out the id 131072, which leaves the register 0 and a bit in the
fixed index. -/
theorem recordTemporary_corrupts : 131072 < kMaxVirtualRegisters ∧
      (LUnallocated.initialized .any 0 .usedAtEnd).recordTemporary 131072 =
        some (131073, (LUnallocated.initialized .any 0 .usedAtEnd).set_virtual_register 131072) ∧
      ((LUnallocated.initialized .any 0 .usedAtEnd).set_virtual_register 131072).virtual_register = 0 ∧
      ((LUnallocated.initialized .any 0 .usedAtEnd).set_virtual_register 131072).fixed_index = 1 ∧
      ¬ Tracks (.initialized .any 0 .usedAtEnd) ⟨.unallocated, .any, false, 0, 0⟩
        [.setVirtualRegister 131072] := by
  refine ⟨by decide, by decide, by decide, by decide, ?_⟩
  intro h
  exact absurd h.2.virtualRegister (by decide)

end Unallocated

end W16.Lithium
