import W16.GapResolverIa32

/-!
# The code of the ia32 resolver

What the emitted instructions do to the words of a machine. While a register is spilled its
value is on the stack, and the register itself is a temporary: the logical memory is the
one in which it still has its value.
-/
namespace W16.Ia32

open Lithium MoveOperands GapResolver Function List

set_option linter.dupNamespace false

/-- The words of an operand. -/
@[simp]
def locs : Operand → List Loc
  | .register n => [.reg n]
  | .doubleRegister n => [.xmm n false, .xmm n true]
  | .stackSlot i => [.word (frameWord i)]
  | .doubleStackSlot i => [.word (frameWord i), .word (frameWord i + 1)]
  | .constant _ | .unallocated _ => []

def IsScratch (l : Loc) : Prop := ∃ high, l = .xmm0 high

/-- The words hold the value that the source has in a state. -/
def Delivers (constants : Nat → BitVec 32) (m : Memory) (source : Operand) (v : List (BitVec 32)) : Prop :=
  match source with
  | .constant c => v = [constants c]
  | source => v = (locs source).map m

theorem locs_not_scratch (a : Operand) : ∀ l ∈ locs a, ¬IsScratch l := by
  cases a <;> simp [IsScratch]

theorem delivers_variable {constants : Nat → BitVec 32} {m : Memory} {a : Operand} {v : List (BitVec 32)}
    (h : a.isConstant = false) : Delivers constants m a v ↔ v = (locs a).map m := by
  cases a <;> simp_all [Delivers]

theorem delivers_constant {constants : Nat → BitVec 32} {m m' : Memory} {a : Operand} {v : List (BitVec 32)}
    (h : a.isConstant = true) : Delivers constants m a v ↔ Delivers constants m' a v := by
  cases a <;> simp_all [Delivers]

/-- The two words of a double slot are different. -/
@[simp]
theorem offset_ne_succ (x : Int) : ¬x = x + 1 := by omega

@[simp]
theorem succ_ne_offset (x : Int) : ¬x + 1 = x := by omega

/-! ## Instructions that leave the stack alone -/

def isMemoryOnly : Instr → Bool
  | .push _ | .pop _ => false
  | _ => true

def runMemory (code : List Instr) (m : Memory) : Memory := code.foldl execMemory m

theorem run_append (code code' : List Instr) (m : Machine) : run (code ++ code') m = run code' (run code m) :=
  foldl_append

theorem run_memoryOnly {code : List Instr} (h : code.all isMemoryOnly) (m : Machine) :
    run code m = ⟨runMemory code m.memory, m.stack⟩ := by
  induction code generalizing m with
  | nil => rfl
  | cons i rest ih =>
    simp only [all_cons, Bool.and_eq_true] at h
    have hi : exec m i = ⟨execMemory m.memory i, m.stack⟩ := by
      cases i <;> first | rfl | cases h.1
    simp_all [run, runMemory]

/-- Words that may be overwritten as temporaries. -/
def InTemps (tmps : List Nat) (l : Loc) : Prop := ∃ r ∈ tmps, l = .reg r

/-- The code moves the value of one operand to another. -/
def MovesCode (constants : Nat → BitVec 32) (code : List Instr) (a b : Operand) (tmps : List Nat) : Prop :=
  code.all isMemoryOnly ∧ ∀ m, (∀ l, l ∉ locs b → ¬IsScratch l → ¬InTemps tmps l → runMemory code m l = m l) ∧
    Delivers constants m a ((locs b).map (runMemory code m))

/-- The code brings the value of the second operand to the first and changes nothing else but the
second. -/
def SwapsCode (code : List Instr) (a b : Operand) (tmps : List Nat) (result : Memory → List (BitVec 32)) : Prop :=
  code.all isMemoryOnly ∧ ∀ m,
    (∀ l, l ∉ locs a → l ∉ locs b → ¬IsScratch l → ¬InTemps tmps l → runMemory code m l = m l) ∧
    (locs a).map (runMemory code m) = (locs b).map m ∧ (locs b).map (runMemory code m) = result m

section Snippets

variable (constants : Nat → BitVec 32) {a b : Operand}

theorem move_direct (hkind : a.isGeneral = b.isGeneral) (hb : b.isUnallocated = false) (hvar : b.isConstant = false)
    (h : a.isRegister || b.isRegister) (hconst : a.isConstant = false) :
    MovesCode constants [.mov (toOperand b) (toOperand a)] a b [] := by
  refine ⟨rfl, fun m => ?_⟩
  unfold runMemory
  cases a <;> cases b <;> simp_all [Delivers]

theorem move_constant (c : Nat) (hb : b.isGeneral = true) (hvar : b.isConstant = false) :
    MovesCode constants [.set (toOperand b) (constants c)] (.constant c) b [] := by
  refine ⟨rfl, fun m => ?_⟩
  unfold runMemory
  cases b <;> simp_all [Delivers]

theorem move_slots (i j : Int) (tmp : Nat) :
    MovesCode constants [.mov (.reg tmp) (toOperand (.stackSlot i)), .mov (toOperand (.stackSlot j)) (.reg tmp)]
      (.stackSlot i) (.stackSlot j) [tmp] := by
  refine ⟨rfl, fun m => ?_⟩
  unfold runMemory
  simp_all [Delivers, InTemps]

theorem move_double (hkind : a.isGeneral = b.isGeneral) (ha : a.isUnallocated = false)
    (hb : b.isUnallocated = false) (h : a.isGeneral = false) :
    MovesCode constants [.movdbl (toDoubleOperand b) (toDoubleOperand a)] a b [] ∧
    MovesCode constants [.movaps (toDoubleOperand b) (toDoubleOperand a)] a b [] ∧
    MovesCode constants [.movdbl .xmm0 (toDoubleOperand a), .movdbl (toDoubleOperand b) .xmm0] a b [] := by
  refine ⟨⟨rfl, fun m => ?_⟩, ⟨rfl, fun m => ?_⟩, ⟨rfl, fun m => ?_⟩⟩
  all_goals
    unfold runMemory IsScratch
    cases a <;> cases b <;> simp_all [Delivers]

/-- A swap of two different operands gives each the value of the other. -/
def Exchanges (code : List Instr) (a b : Operand) (tmps : List Nat) : Prop :=
  SwapsCode code a b tmps fun m => (locs a).map m

theorem xor_cancel (x y : BitVec 32) : y ^^^ (x ^^^ y) = x ∧ (x ^^^ y) ^^^ x = y ∧ (y ^^^ x) ^^^ x = y := by
  grind -linarith

variable {x tmp : Nat} {i : Int}

theorem exchange_registers {y : Nat} (h : x ≠ y) :
    Exchanges [.xchg (.reg y) (.reg x)] (.register x) (.register y) [] := by
  refine ⟨rfl, fun m => ?_⟩
  unfold runMemory
  simp_all [h.symm]

theorem exchange_memory : Exchanges [.xor (.reg x) (.word (frameWord i)), .xor (.word (frameWord i)) (.reg x),
      .xor (.reg x) (.word (frameWord i))] (.register x) (.stackSlot i) [] := by
  refine ⟨rfl, fun m => ?_⟩
  unfold runMemory
  simp_all [xor_cancel]

theorem exchange_memory_temporary (h : tmp ≠ x) :
    Exchanges [.mov (.reg tmp) (.word (frameWord i)), .mov (.word (frameWord i)) (.reg x),
      .mov (.reg x) (.reg tmp)] (.register x) (.stackSlot i) [tmp] := by
  refine ⟨rfl, fun m => ?_⟩
  unfold runMemory
  simp_all [InTemps, h.symm]

theorem exchange_slots {j : Int} (h : frameWord i ≠ frameWord j) :
    Exchanges [.mov (.reg tmp) (.word (frameWord j)), .xor (.reg tmp) (.word (frameWord i)),
      .xor (.word (frameWord i)) (.reg tmp), .xor (.reg tmp) (.word (frameWord i)),
      .mov (.word (frameWord j)) (.reg tmp)] (.stackSlot i) (.stackSlot j) [tmp] := by
  refine ⟨rfl, fun m => ?_⟩
  unfold runMemory
  simp_all [InTemps, xor_cancel]

theorem exchange_slots_temporary {j : Int} {tmp' : Nat} (h : frameWord i ≠ frameWord j) (ht : tmp' ≠ tmp) :
    Exchanges [.mov (.reg tmp) (.word (frameWord j)), .mov (.reg tmp') (.word (frameWord i)),
      .mov (.word (frameWord j)) (.reg tmp'), .mov (.word (frameWord i)) (.reg tmp)]
      (.stackSlot i) (.stackSlot j) [tmp, tmp'] := by
  refine ⟨rfl, fun m => ?_⟩
  unfold runMemory
  simp_all [InTemps, h.symm, ht.symm]

theorem exchange_double_registers {y : Nat} (h : x ≠ y) :
    Exchanges [.movaps .xmm0 (.xmm x), .movaps (.xmm x) (.xmm y), .movaps (.xmm y) .xmm0]
      (.doubleRegister x) (.doubleRegister y) [] := by
  refine ⟨rfl, fun m => ?_⟩
  unfold runMemory IsScratch
  simp_all

theorem exchange_double_memory :
    Exchanges [.movdbl .xmm0 (.memory (frameWord i)), .movdbl (.memory (frameWord i)) (.xmm x),
      .movdbl (.xmm x) .xmm0] (.doubleRegister x) (.doubleStackSlot i) [] := by
  refine ⟨rfl, fun m => ?_⟩
  unfold runMemory IsScratch
  simp_all

theorem Exchanges.symm {code : List Instr} {tmps : List Nat} (h : Exchanges code a b tmps) :
    Exchanges code b a tmps :=
  ⟨h.1, fun m => ⟨fun l hb ha => (h.2 m).1 l ha hb, (h.2 m).2.2, (h.2 m).2.1⟩⟩

/-- Of two double slots the lower word is swapped, but the upper word of the destination stays. -/
theorem exchange_double_slots {j : Int} (h : ∀ l ∈ locs (.doubleStackSlot i), l ∉ locs (.doubleStackSlot j)) :
    SwapsCode [.movdbl .xmm0 (.memory (frameWord j)), .mov (.reg tmp) (.word (frameWord i)),
      .mov (.word (frameWord j)) (.reg tmp), .mov (.reg tmp) (highOperand (.doubleStackSlot i)),
      .mov (highOperand (.doubleStackSlot j)) (.reg tmp), .movdbl (.memory (frameWord i)) .xmm0]
      (.doubleStackSlot i) (.doubleStackSlot j) [tmp]
      fun m => [m (.word (frameWord i)), m (.word (frameWord j + 1))] := by
  have hhigh : ∀ k, highOperand (.doubleStackSlot k) = .word (frameWord k) := by
    intro k
    by_cases hk : 0 ≤ k <;> simp [highOperand, frameWord, hk]
  have h' : ∀ l ∈ locs (.doubleStackSlot j), l ∉ locs (.doubleStackSlot i) := fun l hl hl' => h l hl' hl
  refine ⟨rfl, fun m => ?_⟩
  unfold runMemory IsScratch
  simp_all [InTemps]

end Snippets

/-! ## The logical memory -/

/-- The memory in which the spilled register has its value. -/
def overlay (spilled : Option Nat) (m : Machine) : Memory :=
  match spilled with
  | some r => update m.memory (.reg r) (m.stack.headD 0)
  | none => m.memory

def logical (s : State) (m₀ : Machine) : Memory := overlay s.spilledRegister (run s.code m₀)

/-- There is one word on the stack while a register is spilled, and none otherwise. -/
def Balanced (s : State) (m₀ : Machine) : Prop :=
  match s.spilledRegister with
  | some _ => ∃ v, (run s.code m₀).stack = v :: m₀.stack
  | none => (run s.code m₀).stack = m₀.stack

def IsSpilled (s : State) (l : Loc) : Prop := ∃ r, s.spilledRegister = some r ∧ l = .reg r

section Logical

variable {s : State} {m₀ : Machine} {l : Loc}

theorem logical_of_not_spilled (h : ¬IsSpilled s l) : logical s m₀ l = (run s.code m₀).memory l := by
  unfold logical overlay
  cases hs : s.spilledRegister with
  | none => rfl
  | some r => exact update_of_ne (fun e => h ⟨r, hs, e⟩) _ _

theorem logical_of_spilled (h : IsSpilled s l) : logical s m₀ l = (run s.code m₀).stack.headD 0 := by
  obtain ⟨r, hs, rfl⟩ := h
  simp [logical, overlay, hs]

variable {code : List Instr} (hcode : code.all isMemoryOnly)
include hcode

theorem balanced_emit (h : Balanced s m₀) : Balanced (emit s code) m₀ := by
  unfold Balanced emit at *
  rw [run_append, run_memoryOnly hcode]
  exact h

theorem logical_emit_of_not_spilled (h : ¬IsSpilled s l) :
    logical (emit s code) m₀ l = runMemory code (run s.code m₀).memory l := by
  have he : ¬IsSpilled (emit s code) l := h
  rw [logical_of_not_spilled he]
  show (run (s.code ++ code) m₀).memory l = _
  rw [run_append, run_memoryOnly hcode]

theorem logical_emit_of_spilled (h : IsSpilled s l) : logical (emit s code) m₀ l = logical s m₀ l := by
  have he : IsSpilled (emit s code) l := h
  rw [logical_of_spilled h, logical_of_spilled he]
  show (run (s.code ++ code) m₀).stack.headD 0 = _
  rw [run_append, run_memoryOnly hcode]

end Logical

/-! ## Temporaries -/

/-- The swaps of a run, in their order. -/
def swaps (s : State) : List Nat :=
  s.history.filterMap fun e =>
    match e with
    | .swap index _ => some index
    | _ => none

/-- What finding a temporary leaves as it is: the moves, the counts and the logical memory. -/
structure Keeps (index : Nat) (s t : State) : Prop where
  moves : t.moves = s.moves
  count : t.count = s.count
  sourceUses : t.sourceUses = s.sourceUses
  destinationUses : t.destinationUses = s.destinationUses
  swaps : swaps t = swaps s
  history : ∀ e ∈ t.history, e ∈ s.history ∨ ∃ r, e = .free index r s.counts ∧ UsesFree s r
  spilled : (∀ r, s.spilledRegister = some r → r < kNumAllocatableRegisters) →
    ∀ r, t.spilledRegister = some r → r < kNumAllocatableRegisters
  balanced : ∀ m₀, Balanced s m₀ → Balanced t m₀
  logical : ∀ m₀, Balanced s m₀ → logical t m₀ = logical s m₀

section Keeps

variable {index : Nat} {s t u : State}

theorem Keeps.refl (index : Nat) (s : State) : Keeps index s s :=
  ⟨rfl, rfl, rfl, rfl, rfl, fun _ he => .inl he, fun h => h, fun _ h => h, fun _ _ => rfl⟩

theorem Keeps.trans (h : Keeps index s t) (h' : Keeps index t u) : Keeps index s u := by
  refine ⟨h'.moves.trans h.moves, h'.count.trans h.count, h'.sourceUses.trans h.sourceUses,
    h'.destinationUses.trans h.destinationUses, h'.swaps.trans h.swaps, fun e he => ?_,
    fun hs => h'.spilled (h.spilled hs), fun m₀ hb => h'.balanced m₀ (h.balanced m₀ hb),
    fun m₀ hb => (h'.logical m₀ (h.balanced m₀ hb)).trans (h.logical m₀ hb)⟩
  rcases h'.history e he with he | ⟨r, rfl, hr⟩
  · exact h.history e he
  · refine .inr ⟨r, ?_, ?_⟩
    · rw [State.counts, State.counts, h.moves, h.sourceUses, h.destinationUses]
    · unfold UsesFree at hr ⊢
      rwa [h.sourceUses, h.destinationUses] at hr

/-- Popping the spilled register makes the logical memory the actual one. -/
theorem restore_keeps (index : Nat) {r : Nat} (hs : s.spilledRegister = some r) :
    Keeps index s (restore s r) := by
  have hrun : ∀ m₀ v, (run s.code m₀).stack = v :: m₀.stack →
      run (s.code ++ [Instr.pop r]) m₀ = ⟨update (run s.code m₀).memory (.reg r) v, m₀.stack⟩ := by
    simp_all [exec, run]
  refine ⟨rfl, rfl, rfl, rfl, rfl, fun e he => .inl he, fun _ _ h => (by cases h), fun m₀ hb => ?_,
    fun m₀ hb => ?_⟩
  all_goals
    simp only [Balanced, hs] at hb
    obtain ⟨v, hv⟩ := hb
  · show (run (s.code ++ [Instr.pop r]) m₀).stack = m₀.stack
    rw [hrun m₀ v hv]
  · show (run (s.code ++ [Instr.pop r]) m₀).memory = logical s m₀
    rw [hrun m₀ v hv]
    simp only [logical, overlay, hs, hv]
    rfl

theorem ensureRestored_keeps (s : State) (index : Nat) (op : Operand) : Keeps index s (ensureRestored s op) ∧
    (∀ l ∈ locs op, ¬IsSpilled (ensureRestored s op) l) ∧
    ∀ l, ¬IsSpilled s l → ¬IsSpilled (ensureRestored s op) l := by
  unfold ensureRestored
  cases hs : s.spilledRegister with
  | none =>
    refine ⟨.refl index s, ?_, fun l h => h⟩
    rintro l - ⟨r, hr, -⟩
    rw [hs] at hr
    cases hr
  | some r =>
    by_cases hop : op = .register r
    · subst hop
      simp only [Operand.isRegister, Operand.index, Bool.true_and, decide_true, if_true]
      refine ⟨restore_keeps index hs, ?_, ?_⟩
      · rintro l - ⟨r', hr', -⟩
        cases hr'
      · rintro l - ⟨r', hr', -⟩
        cases hr'
    · have hcond : ¬(op.isRegister && decide (op.index = (r : Int))) = true := by
        rw [Bool.and_eq_true, decide_eq_true_eq]
        rintro ⟨hreg, hindex⟩
        cases op with
        | register n =>
          simp_all [Int.natCast_inj]
        | _ => cases hreg
      simp only [if_neg hcond]
      refine ⟨.refl index s, ?_, fun l h => h⟩
      rintro l hl ⟨r', hr', rfl⟩
      rw [hs, Option.some_inj] at hr'
      cases op <;> simp_all

theorem ensureRestored_history (op : Operand) : (ensureRestored s op).history = s.history := by
  unfold ensureRestored
  cases s.spilledRegister with
  | none => rfl
  | some r =>
    dsimp only
    split <;> rfl

theorem spill_keeps {r : Nat} (hs : s.spilledRegister = none) (hr : r < kNumAllocatableRegisters) :
    Keeps index s (spill s r) := by
  have hrun : ∀ m₀, run (s.code ++ [Instr.push r]) m₀ =
      ⟨(run s.code m₀).memory, (run s.code m₀).memory (.reg r) :: (run s.code m₀).stack⟩ := by
    intro m₀
    rw [run_append]
    rfl
  refine ⟨rfl, rfl, rfl, rfl, rfl, fun e he => .inl he, fun _ r' hr' => ?_, fun m₀ hb => ?_, fun m₀ hb => ?_⟩
  · simp_all [spill]
  · simp only [Balanced, hs] at hb
    refine ⟨(run s.code m₀).memory (.reg r), ?_⟩
    show (run (s.code ++ [Instr.push r]) m₀).stack = _
    rw [hrun, hb]
  · show update (run (s.code ++ [Instr.push r]) m₀).memory (.reg r) ((run (s.code ++ [Instr.push r]) m₀).stack.headD 0) = _
    rw [hrun]
    simp [logical, overlay, hs]

theorem takeFreeRegister_keeps (index : Nat) (s : State) (skip : Option Nat) :
    Keeps index s (takeFreeRegister s index skip).1 ∧
    (takeFreeRegister s index skip).1.spilledRegister = s.spilledRegister ∧
    ∀ r, (takeFreeRegister s index skip).2 = some r → UsesFree s r ∧ some r ≠ skip := by
  unfold takeFreeRegister
  cases hf : getFreeRegisterNot s skip with
  | none => exact ⟨.refl index s, rfl, fun r hr => by cases hr⟩
  | some r =>
    obtain ⟨hfree, hskip⟩ := getFreeRegisterNot_spec hf
    refine ⟨⟨rfl, rfl, rfl, rfl, ?_, fun e he => ?_, fun h => h, fun _ h => h, fun _ _ => rfl⟩, rfl, ?_⟩
    · simp [swaps, record]
    · rcases mem_append.1 he with he | he
      · exact .inl he
      · exact .inr ⟨r, mem_singleton.1 he, hfree⟩
    grind

theorem ensureTempRegister_keeps (index : Nat) (s : State) : Keeps index s (ensureTempRegister s index).1 ∧
    ((ensureTempRegister s index).1.spilledRegister = some (ensureTempRegister s index).2 ∨
      UsesFree s (ensureTempRegister s index).2) := by
  unfold ensureTempRegister
  cases hs : s.spilledRegister with
  | some r => exact ⟨.refl index s, .inl hs⟩
  | none =>
    obtain ⟨hkeeps, hspill, hfree⟩ := takeFreeRegister_keeps index s none
    rcases htake : takeFreeRegister s index none with ⟨t, r | r⟩
    · rw [htake] at hkeeps hspill
      cases hfind : (List.range kNumAllocatableRegisters).find? fun i =>
          t.sourceUses i = 0 && t.destinationUses i = 0 with
      | none =>
        simp only [hfind]
        exact ⟨hkeeps.trans (spill_keeps (hspill.trans hs) (by decide)), .inl rfl⟩
      | some r =>
        simp only [hfind]
        have hr := mem_of_find?_eq_some hfind
        exact ⟨hkeeps.trans (spill_keeps (hspill.trans hs) (by simpa using hr)), .inl rfl⟩
    simp_all

end Keeps

end W16.Ia32

/-!
## Runs of the ia32 resolver

Each emitted move and swap does to the logical memory what it should, with one exception:
`HighOperand` names the lower word of a double slot, so that a swap of two double slots
leaves the upper word of the destination as it was.
-/
namespace W16.Ia32

open Lithium MoveOperands GapResolver Function

/-- Code is emitted after temporaries have been found, and neither operand is spilled. The destination
is not among the registers that are handed out. -/
def Emits (index : Nat) (s u : State) (a b : Operand) (Q : List Instr → List Nat → Prop) : Prop :=
  ∃ t tmps code, u = emit t code ∧ Keeps index s t ∧ Q code tmps ∧
    (∀ r ∈ tmps, t.spilledRegister = some r ∨ UsesFree s r) ∧ (∀ l ∈ locs a ++ locs b, ¬IsSpilled t l) ∧
    ∀ e ∈ t.history, e ∈ s.history ∨ ∃ r, e = .free index r s.counts ∧ UsesFree s r ∧ b ≠ .register r

/-- What the history records of the temporaries, where the destination is none of them. -/
theorem Keeps.events {index : Nat} {s t : State} {b : Operand} (h : Keeps index s t)
    (hb : ∀ r, UsesFree s r → b ≠ .register r) :
    ∀ e ∈ t.history, e ∈ s.history ∨ ∃ r, e = .free index r s.counts ∧ UsesFree s r ∧ b ≠ .register r := by
  intro e he
  rcases h.history e he with he | ⟨r, rfl, hr⟩
  · exact .inl he
  · exact .inr ⟨r, rfl, hr, hb r hr⟩

section Effect

variable {index : Nat} {s u : State} {a b : Operand} {m₀ : Machine}

/-- The words that a step may use as temporaries, beyond the spilled register. -/
def IsTemp (s : State) (l : Loc) : Prop := ∃ r, l = .reg r ∧ UsesFree s r

theorem Emits.moved {constants : Nat → BitVec 32}
    (h : Emits index s u a b fun code tmps => MovesCode constants code a b tmps) (hb : Balanced s m₀) :
    Balanced u m₀ ∧ (∀ l, l ∉ locs b → ¬IsScratch l → ¬IsTemp s l → logical u m₀ l = logical s m₀ l) ∧
      Delivers constants (logical s m₀) a ((locs b).map (logical u m₀)) := by
  obtain ⟨t, tmps, code, rfl, hkeeps, ⟨hcode, hmove⟩, htmps, hnot, -⟩ := h
  have hmem := hmove (run t.code m₀).memory
  have hpa : ∀ l ∈ locs a, logical s m₀ l = (run t.code m₀).memory l := by
    intro l hl
    rw [← hkeeps.logical m₀ hb, logical_of_not_spilled (hnot l (List.mem_append_left _ hl))]
  have hpb : ∀ l ∈ locs b, logical (emit t code) m₀ l = runMemory code (run t.code m₀).memory l :=
    fun l hl => logical_emit_of_not_spilled hcode (hnot l (List.mem_append_right _ hl))
  refine ⟨balanced_emit hcode (hkeeps.balanced m₀ hb), fun l hlb hs ht => ?_, ?_⟩
  · rw [← hkeeps.logical m₀ hb]
    by_cases hsp : IsSpilled t l
    · exact logical_emit_of_spilled hcode hsp
    · rw [logical_emit_of_not_spilled hcode hsp, logical_of_not_spilled hsp]
      refine hmem.1 l hlb hs ?_
      rintro ⟨r, hr, rfl⟩
      rcases htmps r hr with h1 | h1
      · exact hsp ⟨r, h1, rfl⟩
      · exact ht ⟨r, rfl, h1⟩
  · rw [List.map_congr_left hpb]
    cases hc : a.isConstant with
    | true => exact (delivers_constant hc).1 hmem.2
    | false =>
      rw [delivers_variable hc, List.map_congr_left hpa]
      exact (delivers_variable hc).1 hmem.2

theorem Emits.swapped {result : Memory → List (BitVec 32)}
    (h : Emits index s u a b fun code tmps => SwapsCode code a b tmps result)
    (hres : ∀ m m' : Memory, (∀ l ∈ locs a ++ locs b, m l = m' l) → result m = result m')
    (hb : Balanced s m₀) :
    Balanced u m₀ ∧ (∀ l, l ∉ locs a → l ∉ locs b → ¬IsScratch l → ¬IsTemp s l →
        logical u m₀ l = logical s m₀ l) ∧
      (locs a).map (logical u m₀) = (locs b).map (logical s m₀) ∧
      (locs b).map (logical u m₀) = result (logical s m₀) := by
  obtain ⟨t, tmps, code, rfl, hkeeps, ⟨hcode, hswap⟩, htmps, hnot, -⟩ := h
  have hmem := hswap (run t.code m₀).memory
  have hp : ∀ l ∈ locs a ++ locs b, logical s m₀ l = (run t.code m₀).memory l := by
    intro l hl
    rw [← hkeeps.logical m₀ hb, logical_of_not_spilled (hnot l hl)]
  have hp' : ∀ l ∈ locs a ++ locs b, logical (emit t code) m₀ l = runMemory code (run t.code m₀).memory l :=
    fun l hl => logical_emit_of_not_spilled hcode (hnot l hl)
  refine ⟨balanced_emit hcode (hkeeps.balanced m₀ hb), fun l hla hlb hs ht => ?_, ?_, ?_⟩
  · rw [← hkeeps.logical m₀ hb]
    by_cases hsp : IsSpilled t l
    · exact logical_emit_of_spilled hcode hsp
    · rw [logical_emit_of_not_spilled hcode hsp, logical_of_not_spilled hsp]
      refine hmem.1 l hla hlb hs ?_
      rintro ⟨r, hr, rfl⟩
      rcases htmps r hr with h1 | h1
      · exact hsp ⟨r, h1, rfl⟩
      · exact ht ⟨r, rfl, h1⟩
  · rw [List.map_congr_left fun l hl => hp' l (List.mem_append_left _ hl), hmem.2.1,
      List.map_congr_left fun l hl => hp l (List.mem_append_right _ hl)]
  · rw [List.map_congr_left fun l hl => hp' l (List.mem_append_right _ hl), hmem.2.2, hres _ _ hp]

end Effect

section Body

variable (constants : Nat → BitVec 32) (index : Nat) {s : State} {a b : Operand}
  (hkind : a.isGeneral = b.isGeneral) (ha : a.isUnallocated = false) (hb : b.isUnallocated = false)
  (hvar : b.isConstant = false) (hnot : ∀ l ∈ locs a ++ locs b, ¬IsSpilled s l)
include hkind ha hb hvar hnot

theorem moveBody_emits : Emits index s (moveBody constants s index a b) a b
    fun code tmps => MovesCode constants code a b tmps := by
  have hdir : ∀ code, moveBody constants s index a b = emit s code → MovesCode constants code a b [] →
      Emits index s (moveBody constants s index a b) a b fun code tmps => MovesCode constants code a b tmps :=
    fun code he hm => ⟨s, [], code, he, .refl index s, hm, by simp, hnot, fun _ he => .inl he⟩
  cases a with
  | unallocated p => cases ha
  | constant c => exact hdir _ rfl (move_constant constants c hkind.symm hvar)
  | register n => exact hdir _ rfl (move_direct constants hkind hb hvar rfl rfl)
  | stackSlot i =>
    cases b with
    | register n => exact hdir _ rfl (move_direct constants hkind hb hvar rfl rfl)
    | stackSlot j =>
      obtain ⟨hkeeps, htmp⟩ := ensureTempRegister_keeps index s
      refine ⟨(ensureTempRegister s index).1, [(ensureTempRegister s index).2], _, rfl, hkeeps,
        move_slots constants i j _, by simpa using htmp, ?_, hkeeps.events fun _ _ e => by cases e⟩
      rintro l hl ⟨r, -, rfl⟩
      simp at hl
    | unallocated p => cases hb
    | constant c => cases hvar
    | doubleStackSlot j => cases hkind
    | doubleRegister n => cases hkind
  | doubleRegister n =>
    obtain ⟨h1, h2, -⟩ := move_double constants hkind ha hb rfl
    cases b with
    | doubleRegister n => exact hdir _ rfl h2
    | doubleStackSlot j => exact hdir _ rfl h1
    | unallocated p => cases hb
    | constant c => cases hvar
    | stackSlot j => cases hkind
    | register n => cases hkind
  | doubleStackSlot i =>
    obtain ⟨h1, -, h3⟩ := move_double constants hkind ha hb rfl
    cases b with
    | doubleRegister n => exact hdir _ rfl h1
    | doubleStackSlot j => exact hdir _ rfl h3
    | unallocated p => cases hb
    | constant c => cases hvar
    | stackSlot j => cases hkind
    | register n => cases hkind

/-- What a swap leaves in the destination. -/
def swapResult (a b : Operand) (m : Memory) : List (BitVec 32) :=
  match a, b with
  | .doubleStackSlot i, .doubleStackSlot j => [m (.word (frameWord i)), m (.word (frameWord j + 1))]
  | a, _ => (locs a).map m

omit hkind ha hb hvar hnot in
theorem swapResult_congr (m m' : Memory) (h : ∀ l ∈ locs a ++ locs b, m l = m' l) :
    swapResult a b m = swapResult a b m' := by
  have hmap := List.map_congr_left fun l hl => h l (List.mem_append_left _ hl)
  unfold swapResult
  split
  · simp_all
  · exact hmap

variable (hconst : a.isConstant = false) (hdisjoint : ∀ l ∈ locs a, l ∉ locs b)
  (hfree : ∀ r, UsesFree s r → a ≠ .register r ∧ b ≠ .register r)

omit hkind ha hb hvar hnot in
/-- A register and a slot are swapped through a free register, or without one. -/
theorem exchange_memory_emits {x : Nat} {i : Int} (hfree : ∀ r, UsesFree s r → r ≠ x)
    (hnot : ∀ l ∈ locs (.register x) ++ locs (.stackSlot i), ¬IsSpilled s l) :
    Emits index s (match takeFreeRegister s index none with
      | (s, none) => emit s [.xor (.reg x) (.word (frameWord i)), .xor (.word (frameWord i)) (.reg x),
          .xor (.reg x) (.word (frameWord i))]
      | (s, some tmp) => emit s [.mov (.reg tmp) (.word (frameWord i)), .mov (.word (frameWord i)) (.reg x),
          .mov (.reg x) (.reg tmp)]) (.register x) (.stackSlot i)
      fun code tmps => Exchanges code (.register x) (.stackSlot i) tmps := by
  obtain ⟨hkeeps, hspill, htake⟩ := takeFreeRegister_keeps index s none
  have hnot' : ∀ l ∈ locs (.register x) ++ locs (.stackSlot i), ¬IsSpilled (takeFreeRegister s index none).1 l := by
    unfold IsSpilled
    rw [hspill]
    exact hnot
  rcases hres : takeFreeRegister s index none with ⟨t, tmp | tmp⟩
  all_goals rw [hres] at hkeeps htake hnot'
  · exact ⟨t, [], _, rfl, hkeeps, exchange_memory, by simp, hnot', hkeeps.events fun _ _ e => by cases e⟩
  · have huse := (htake tmp rfl).1
    exact ⟨t, [tmp], _, rfl, hkeeps, exchange_memory_temporary (hfree tmp huse), by simp [huse], hnot',
      hkeeps.events fun _ _ e => by cases e⟩

omit hkind ha hb hvar hnot in
theorem exchange_slots_emits {i j : Int} (h : frameWord i ≠ frameWord j) :
    Emits index s (swapBody s index (.stackSlot i) (.stackSlot j)) (.stackSlot i) (.stackSlot j)
      fun code tmps => Exchanges code (.stackSlot i) (.stackSlot j) tmps := by
  obtain ⟨hkeeps, htmp⟩ := ensureTempRegister_keeps index s
  obtain ⟨hkeeps', hspill, htake⟩ := takeFreeRegister_keeps index
    (ensureTempRegister s index).1 (some (ensureTempRegister s index).2)
  have hnot : ∀ t : State, ∀ l ∈ locs (.stackSlot i) ++ locs (.stackSlot j), ¬IsSpilled t l := by
    rintro t l hl ⟨r, -, rfl⟩
    simp at hl
  have huse : ∀ r, UsesFree (ensureTempRegister s index).1 r → UsesFree s r := by
    intro r hr
    unfold UsesFree at hr ⊢
    rwa [hkeeps.sourceUses, hkeeps.destinationUses] at hr
  unfold swapBody
  simp only [Operand.isRegister, Operand.isStackSlot, Bool.and_self, Bool.false_eq_true, if_false, if_true]
  rcases hres : takeFreeRegister (ensureTempRegister s index).1 index (some (ensureTempRegister s index).2) with
    ⟨t, tmp | tmp⟩
  all_goals rw [hres] at hkeeps' hspill htake
  · refine ⟨t, [(ensureTempRegister s index).2], _, rfl, hkeeps.trans hkeeps', exchange_slots h, ?_, hnot t,
      (hkeeps.trans hkeeps').events fun _ _ e => by cases e⟩
    rw [hspill]
    simpa using htmp
  · obtain ⟨hfree, hskip⟩ := htake tmp rfl
    refine ⟨t, [(ensureTempRegister s index).2, tmp], _, rfl, hkeeps.trans hkeeps',
      exchange_slots_temporary h (fun e => hskip (by rw [e])), ?_, hnot t,
      (hkeeps.trans hkeeps').events fun _ _ e => by cases e⟩
    grind

include hconst hdisjoint hfree

theorem swapBody_emits : Emits index s (swapBody s index a b) a b
    fun code tmps => SwapsCode code a b tmps (swapResult a b) := by
  have hdir : ∀ code, swapBody s index a b = emit s code → SwapsCode code a b [] (swapResult a b) →
      Emits index s (swapBody s index a b) a b fun code tmps => SwapsCode code a b tmps (swapResult a b) :=
    fun code he hm => ⟨s, [], code, he, .refl index s, hm, by simp, hnot, fun _ he => .inl he⟩
  cases a with
  | unallocated p => cases ha
  | constant c => cases hconst
  | register x =>
    cases b with
    | register y => exact hdir _ rfl (exchange_registers (x := x) (y := y) fun e => by simp [e] at hdisjoint)
    | stackSlot j => exact exchange_memory_emits index (x := x) (i := j) (fun r hr e => (hfree r hr).1 (by rw [e])) hnot
    | unallocated p => cases hb
    | constant c => cases hvar
    | doubleStackSlot j => cases hkind
    | doubleRegister n => cases hkind
  | stackSlot i =>
    cases b with
    | register y =>
      obtain ⟨t, tmps, code, hu, hkeeps, hswap, htmps, hns, -⟩ := exchange_memory_emits index (x := y) (i := i)
        (fun r hr e => (hfree r hr).2 (by rw [e])) (fun l hl => hnot l (by simpa [or_comm] using hl))
      exact ⟨t, tmps, code, hu, hkeeps, hswap.symm, htmps, fun l hl => hns l (by simpa [or_comm] using hl),
        hkeeps.events fun r hr => (hfree r hr).2⟩
    | stackSlot j => exact exchange_slots_emits index fun e => by simp [e] at hdisjoint
    | unallocated p => cases hb
    | constant c => cases hvar
    | doubleStackSlot j => cases hkind
    | doubleRegister n => cases hkind
  | doubleRegister x =>
    cases b with
    | doubleRegister y => exact hdir _ rfl (exchange_double_registers (x := x) (y := y) fun e => by simp [e] at hdisjoint)
    | doubleStackSlot j => exact hdir _ rfl exchange_double_memory
    | unallocated p => cases hb
    | constant c => cases hvar
    | stackSlot j => cases hkind
    | register n => cases hkind
  | doubleStackSlot i =>
    cases b with
    | doubleRegister y => exact hdir _ rfl exchange_double_memory.symm
    | doubleStackSlot j =>
      obtain ⟨hkeeps, htmp⟩ := ensureTempRegister_keeps index s
      refine ⟨(ensureTempRegister s index).1, [(ensureTempRegister s index).2], _, rfl, hkeeps,
        exchange_double_slots hdisjoint, by simpa using htmp, ?_, hkeeps.events fun _ _ e => by cases e⟩
      rintro l hl ⟨r, -, rfl⟩
      simp at hl
    | unallocated p => cases hb
    | constant c => cases hvar
    | stackSlot j => cases hkind
    | register n => cases hkind

end Body

end W16.Ia32
