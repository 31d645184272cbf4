import W16.GapResolverCycles
import W16.LithiumMoves
import Mathlib.Tactic.SplitIfs

/-!
# Gap resolution on ia32

The ia32 port has no general scratch register. `LGapResolver` counts the remaining uses of
each register to find one that is free for a while, and otherwise pushes one on the stack
and pops it before a move names it or at the end.
-/
namespace W16.Ia32

open Lithium MoveOperands GapResolver Function

set_option linter.dupNamespace false

def kNumAllocatableRegisters : Nat := 6

/-- The words of a machine state: general registers by their allocation index, the halves of the xmm
registers, and the words of the frame by their distance from the frame pointer. -/
inductive Loc where
  | reg (index : Nat)
  | xmm (index : Nat) (high : Bool)
  | word (offset : Int)
  | xmm0 (high : Bool)
  deriving DecidableEq, Repr

/-- What has the width of a double. -/
inductive Wide where
  | xmm (index : Nat)
  | memory (offset : Int)
  | xmm0
  deriving DecidableEq, Repr

@[simp]
def Wide.low : Wide → Loc
  | xmm index => .xmm index false
  | memory offset => .word offset
  | xmm0 => .xmm0 false

@[simp]
def Wide.high : Wide → Loc
  | xmm index => .xmm index true
  | memory offset => .word (offset + 1)
  | xmm0 => .xmm0 true

abbrev Memory := Loc → BitVec 32

/-- The words, and what has been pushed below the frame. -/
structure Machine where
  memory : Memory
  stack : List (BitVec 32)

inductive Instr where
  | mov (dst src : Loc)
  | set (dst : Loc) (imm : BitVec 32)
  | xor (dst src : Loc)
  | xchg (dst src : Loc)
  | movaps (dst src : Wide)
  | movdbl (dst src : Wide)
  | push (index : Nat)
  | pop (index : Nat)
  deriving DecidableEq, Repr

/-- The effect on the words of all instructions but `push` and `pop`. -/
@[simp]
def execMemory (m : Memory) : Instr → Memory
  | .mov dst src => update m dst (m src)
  | .set dst imm => update m dst imm
  | .xor dst src => update m dst (m dst ^^^ m src)
  | .xchg dst src => update (update m dst (m src)) src (m dst)
  | .movaps dst src | .movdbl dst src => update (update m dst.low (m src.low)) dst.high (m src.high)
  | .push _ | .pop _ => m

def exec (m : Machine) : Instr → Machine
  | .push index => ⟨m.memory, m.memory (.reg index) :: m.stack⟩
  | .pop index =>
    match m.stack with
    | value :: rest => ⟨update m.memory (.reg index) value, rest⟩
    | [] => m
  | i => ⟨execMemory m.memory i, m.stack⟩

def run (code : List Instr) (m : Machine) : Machine := code.foldl exec m

@[simp]
def toRegister (op : Operand) : Loc := .reg op.index.toNat

/-- `ToOperand` of what is 32 bits wide, and of the lower half of a double slot. -/
@[simp]
def toOperand (op : Operand) : Loc :=
  if op.isRegister then .reg op.index.toNat else .word (frameWord op.index)

@[simp]
def toDoubleOperand (op : Operand) : Wide :=
  if op.isDoubleRegister then .xmm op.index.toNat else .memory (frameWord op.index)

def highOperand (op : Operand) : Loc :=
  let offset := if 0 ≤ op.index then op.index + 3 else op.index - 1
  .word (-offset)

/-- The moves and the use counts at some point of the run. -/
structure Counts where
  moves : Nat → MoveOperands Operand
  sourceUses : Nat → Int
  destinationUses : Nat → Int

/-- What the history of a run records: that the traversal marks a move, that a move or a swap is
emitted, and that a register is handed out as free while a move is emitted. -/
inductive Event where
  | mark (index : Nat) (counts : Counts)
  | move (index : Nat) (counts : Counts)
  | swap (index : Nat) (counts : Counts)
  | free (index register : Nat) (counts : Counts)

/-- The resolver, the code that it has emitted, and the history of the run. -/
structure State where
  moves : Nat → MoveOperands Operand
  count : Nat
  sourceUses : Nat → Int
  destinationUses : Nat → Int
  spilledRegister : Option Nat
  code : List Instr
  history : List Event

/-- The state that the constructor leaves. -/
def initial : State where
  moves _ := eliminated
  count := 0
  sourceUses _ := 0
  destinationUses _ := 0
  spilledRegister := none
  code := []
  history := []

def State.counts (s : State) : Counts := ⟨s.moves, s.sourceUses, s.destinationUses⟩

def emit (s : State) (code : List Instr) : State := { s with code := s.code ++ code }

def record (s : State) (e : Event) : State := { s with history := s.history ++ [e] }

def increment (uses : Nat → Int) (op : Option Operand) : Nat → Int :=
  match op with
  | some (.register index) => update uses index (uses index + 1)
  | _ => uses

def decrement (uses : Nat → Int) (op : Option Operand) : Nat → Int :=
  match op with
  | some (.register index) => update uses index (uses index - 1)
  | _ => uses

def addMove (s : State) (move : MoveOperands Operand) : State :=
  { s with
    sourceUses := increment s.sourceUses move.source
    destinationUses := increment s.destinationUses move.destination
    moves := update s.moves s.count move
    count := s.count + 1 }

def removeMove (s : State) (index : Nat) : State :=
  { s with
    sourceUses := decrement s.sourceUses (s.moves index).source
    destinationUses := decrement s.destinationUses (s.moves index).destination
    moves := update s.moves index eliminated }

def countSourceUses (s : State) (operand : Operand) : Int :=
  (List.range s.count).countP fun i => !(s.moves i).isEliminated && (s.moves i).source = some operand

def getFreeRegisterNot (s : State) (skip : Option Nat) : Option Nat :=
  (List.range kNumAllocatableRegisters).find? fun i =>
    s.sourceUses i = 0 && s.destinationUses i > 0 && some i ≠ skip

def hasBeenReset (s : State) : Bool :=
  s.count = 0 && s.spilledRegister.isNone &&
    (List.range kNumAllocatableRegisters).all fun i => s.sourceUses i = 0 && s.destinationUses i = 0

def restore (s : State) (r : Nat) : State := { s with code := s.code ++ [Instr.pop r], spilledRegister := none }

def finish (s : State) : State :=
  let s := match s.spilledRegister with
    | some r => restore s r
    | none => s
  { s with count := 0 }

def ensureRestored (s : State) (operand : Operand) : State :=
  match s.spilledRegister with
  | some r =>
    if operand.isRegister && operand.index = r then restore s r else s
  | none => s

/-- `GetFreeRegisterNot`, called while a move is emitted. -/
def takeFreeRegister (s : State) (index : Nat) (skip : Option Nat) : State × Option Nat :=
  match getFreeRegisterNot s skip with
  | some r => (record s (.free index r s.counts), some r)
  | none => (s, none)

def spill (s : State) (r : Nat) : State := { s with code := s.code ++ [Instr.push r], spilledRegister := some r }

def ensureTempRegister (s : State) (index : Nat) : State × Nat :=
  match s.spilledRegister with
  | some r => (s, r)
  | none =>
    match takeFreeRegister s index none with
    | (s, some r) => (s, r)
    | (s, none) =>
      match (List.range kNumAllocatableRegisters).find? fun i => s.sourceUses i = 0 && s.destinationUses i = 0 with
      | some r => (spill s r, r)
      | none => (spill s 0, 0)

/-- The dispatch of `EmitMove`. -/
def moveBody (constants : Nat → BitVec 32) (s : State) (index : Nat) (source destination : Operand) : State :=
  match source with
  | .register _ => emit s [.mov (toOperand destination) (toRegister source)]
  | .stackSlot _ =>
    if destination.isRegister then emit s [.mov (toRegister destination) (toOperand source)]
    else
      let (s, tmp) := ensureTempRegister s index
      emit s [.mov (.reg tmp) (toOperand source), .mov (toOperand destination) (.reg tmp)]
  | .constant c => emit s [.set (toOperand destination) (constants c)]
  | .doubleRegister _ =>
    if destination.isDoubleRegister then emit s [.movaps (toDoubleOperand destination) (toDoubleOperand source)]
    else emit s [.movdbl (toDoubleOperand destination) (toDoubleOperand source)]
  | .doubleStackSlot _ =>
    if destination.isDoubleRegister then emit s [.movdbl (toDoubleOperand destination) (toDoubleOperand source)]
    else emit s [.movdbl .xmm0 (toDoubleOperand source), .movdbl (toDoubleOperand destination) .xmm0]
  | .unallocated _ => s

def emitMove (constants : Nat → BitVec 32) (s : State) (index : Nat) : State :=
  match s.moves index with
  | ⟨some source, some destination⟩ =>
    let s := record s (.move index s.counts)
    let s := ensureRestored (ensureRestored s source) destination
    removeMove (moveBody constants s index source destination) index
  | _ => removeMove s index

/-- The dispatch of `EmitSwap`. -/
def swapBody (s : State) (index : Nat) (source destination : Operand) : State :=
  if source.isRegister && destination.isRegister then
    emit s [.xchg (toRegister destination) (toRegister source)]
  else if (source.isRegister && destination.isStackSlot) || (source.isStackSlot && destination.isRegister) then
    let reg := toRegister (if source.isRegister then source else destination)
    let mem := toOperand (if source.isRegister then destination else source)
    match takeFreeRegister s index none with
    | (s, none) => emit s [.xor reg mem, .xor mem reg, .xor reg mem]
    | (s, some tmp) => emit s [.mov (.reg tmp) mem, .mov mem reg, .mov reg (.reg tmp)]
  else if source.isStackSlot && destination.isStackSlot then
    let (s, tmp0) := ensureTempRegister s index
    let src := toOperand source
    let dst := toOperand destination
    match takeFreeRegister s index (some tmp0) with
    | (s, none) =>
      emit s [.mov (.reg tmp0) dst, .xor (.reg tmp0) src, .xor src (.reg tmp0), .xor (.reg tmp0) src,
        .mov dst (.reg tmp0)]
    | (s, some tmp1) =>
      emit s [.mov (.reg tmp0) dst, .mov (.reg tmp1) src, .mov dst (.reg tmp1), .mov src (.reg tmp0)]
  else if source.isDoubleRegister && destination.isDoubleRegister then
    let src := toDoubleOperand source
    let dst := toDoubleOperand destination
    emit s [.movaps .xmm0 src, .movaps src dst, .movaps dst .xmm0]
  else if source.isDoubleRegister || destination.isDoubleRegister then
    let reg := toDoubleOperand (if source.isDoubleRegister then source else destination)
    let other := toDoubleOperand (if source.isDoubleRegister then destination else source)
    emit s [.movdbl .xmm0 other, .movdbl other reg, .movdbl reg .xmm0]
  else if source.isDoubleStackSlot && destination.isDoubleStackSlot then
    let (s, tmp) := ensureTempRegister s index
    let src0 := toOperand source
    let src1 := highOperand source
    let dst0 := toOperand destination
    let dst1 := highOperand destination
    emit s [.movdbl .xmm0 (toDoubleOperand destination), .mov (.reg tmp) src0, .mov dst0 (.reg tmp),
      .mov (.reg tmp) src1, .mov dst1 (.reg tmp), .movdbl (toDoubleOperand source) .xmm0]
  else s

/-- The use counts after a swap. -/
def swapUses (s : State) (source destination : Option Operand) : Nat → Int :=
  match source, destination with
  | some (.register a), some (.register b) =>
    update (update s.sourceUses a (s.sourceUses b)) b (s.sourceUses a)
  | some (.register a), _ => update s.sourceUses a (countSourceUses s (.register a))
  | _, some (.register b) => update s.sourceUses b (countSourceUses s (.register b))
  | _, _ => s.sourceUses

def emitSwap (s : State) (index : Nat) : State :=
  let source := (s.moves index).source
  let destination := (s.moves index).destination
  let s := record s (.swap index s.counts)
  let s := match source, destination with
    | some source, some destination =>
      swapBody (ensureRestored (ensureRestored s source) destination) index source destination
    | _, _ => s
  let s := removeMove s index
  let s := { s with moves := renameSources source destination s.moves }
  { s with sourceUses := swapUses s source destination }

def setDestination (s : State) (i : Nat) (o : Option Operand) : State :=
  { s with moves := update s.moves i ⟨(s.moves i).source, o⟩, history := s.history ++ [.mark i s.counts] }

def port (constants : Nat → BitVec 32) (count : Nat) : Port State Operand where
  moves := State.moves
  setDestination := setDestination
  finish := finishBySwap State.moves removeMove emitSwap (emitMove constants) count

/-- `Resolve`, from the state that an earlier call has left. -/
def resolve (constants : Nat → BitVec 32) (s : State) (parallelMove : List (MoveOperands Operand)) :
    Option State := do
  let s := (buildInitialMoveList parallelMove).foldl addMove s
  let B := port constants s.count
  let t ← performMoves B Operand.isConstant (performMove B s.count s.count) s.count s
  some (finish (emitConstants B (emitMove constants) s.count t))

end W16.Ia32

/-!
## The use counts of the ia32 resolver

`source_uses_` and `destination_uses_` are at every point of a run the numbers of remaining
moves that read and write a register, so that a register which is handed out as free is
read by none of them and will be written.
-/
namespace W16.Ia32

open Lithium MoveOperands GapResolver Function

/-- The remaining moves that read an operand. -/
def readersOf (count : Nat) (mv : Nat → MoveOperands Operand) (op : Operand) : Nat :=
  (List.range count).countP fun i => src mv i = some op

/-- The remaining moves that read a register. -/
def readers (count : Nat) (mv : Nat → MoveOperands Operand) (r : Nat) : Nat := readersOf count mv (.register r)

/-- The remaining moves that write a register. A pending move has its destination on the side. -/
def writers (count : Nat) (d : Nat → Operand) (mv : Nat → MoveOperands Operand) (r : Nat) : Nat :=
  (List.range count).countP fun i => (src mv i).isSome && d i = .register r

/-- The counts are exact. -/
def Exact (count : Nat) (d : Nat → Operand) (c : Counts) : Prop :=
  ∀ r < kNumAllocatableRegisters,
    c.sourceUses r = readers count c.moves r ∧ c.destinationUses r = writers count d c.moves r

/-- No remaining move reads the register, and one other than the move that is emitted will write it. -/
def FreeFor (count : Nat) (d : Nat → Operand) (mv : Nat → MoveOperands Operand) (index r : Nat) : Prop :=
  (∀ j < count, src mv j ≠ some (.register r)) ∧ ∃ k < count, k ≠ index ∧ src mv k ≠ none ∧ d k = .register r

/-- What the claim on a run says of each of its events. -/
def EventOk (count : Nat) (d : Nat → Operand) : Event → Prop
  | .mark _ c | .move _ c | .swap _ c => Exact count d c
  | .free index r c => Exact count d c ∧ FreeFor count d c.moves index r

variable {count : Nat} {d : Nat → Operand} {mv mv' : Nat → MoveOperands Operand} {s : State} {i : Nat}

theorem countP_range_congr {p q : Nat → Bool} {n : Nat} (h : ∀ j < n, p j = q j) :
    (List.range n).countP p = (List.range n).countP q :=
  List.countP_congr fun j hj => by rw [h j (by simpa using hj)]

/-- Changing a predicate at one index. -/
theorem countP_range_update {p q : Nat → Bool} {n : Nat} (hi : i < n) (h : ∀ j, j ≠ i → q j = p j) :
    (List.range n).countP q + (p i).toNat = (List.range n).countP p + (q i).toNat := by
  induction n with
  | zero => omega
  | succ n ih =>
    rw [List.range_succ, List.countP_append, List.countP_append, List.countP_singleton, List.countP_singleton]
    rcases Nat.lt_succ_iff_lt_or_eq.1 hi with hlt | rfl
    · rw [h n (by omega)]
      omega
    · grind [countP_range_congr]

theorem readers_eliminated (mv : Nat → MoveOperands Operand) (hi : i < count) (r : Nat) :
    readers count (update mv i eliminated) r + (decide (src mv i = some (.register r))).toNat =
      readers count mv r := by
  have := countP_range_update (p := fun j => decide (src mv j = some (.register r)))
    (q := fun j => decide (src (update mv i eliminated) j = some (.register r))) hi (by
      intro j hj
      rw [src_eliminated, if_neg hj])
  simpa [readers, readersOf, src_eliminated] using this

theorem writers_eliminated (d : Nat → Operand) (mv : Nat → MoveOperands Operand) (hi : i < count) (hlive : src mv i ≠ none) (r : Nat) :
    writers count d (update mv i eliminated) r + (decide (d i = .register r)).toNat = writers count d mv r := by
  have := countP_range_update (p := fun j => (src mv j).isSome && decide (d j = .register r))
    (q := fun j => (src (update mv i eliminated) j).isSome && decide (d j = .register r)) hi (by
      intro j hj
      rw [src_eliminated, if_neg hj])
  simpa [writers, src_eliminated, Option.isSome_iff_ne_none.2 hlive] using this

theorem decrement_apply (uses : Nat → Int) (op : Operand) (r : Nat) :
    decrement uses (some op) r = uses r - (decide (op = .register r)).toNat := by
  cases op with
  | register n =>
    unfold decrement
    by_cases hr : r = n
    · simp [hr]
    · simp [hr, Ne.symm hr]
  | _ => simp [decrement]

variable {a : Operand}

theorem removeMove_exact (h : Exact count d s.counts) (hi : i < count)
    (hmove : s.moves i = ⟨some a, some (d i)⟩) : Exact count d (removeMove s i).counts := by
  intro r hr
  obtain ⟨hs, hd⟩ := h r hr
  have hsrc : src s.moves i = some a := by rw [src, hmove]
  have hread := readers_eliminated s.moves hi r
  have hwrite := writers_eliminated d s.moves hi (by rw [hsrc]; simp) r
  simp only [State.counts, removeMove, hmove] at hs hd ⊢
  rw [decrement_apply, decrement_apply, hs, hd]
  simp only [hsrc, Option.some_inj] at hread
  omega

theorem readersOf_renameSources {b : Operand} (hab : a ≠ b) (op : Operand) :
    readersOf count (renameSources (some a) (some b) mv) op =
      if op = a then readersOf count mv b else if op = b then readersOf count mv a else readersOf count mv op := by
  have hsrc := src_renameSources mv a b
  split_ifs with ha hb
  · subst ha
    refine countP_range_congr fun j _ => decide_eq_decide.2 ?_
    grind
  · subst hb
    refine countP_range_congr fun j _ => decide_eq_decide.2 ?_
    grind
  · refine countP_range_congr fun j _ => decide_eq_decide.2 ?_
    grind

theorem countSourceUses_eq (op : Operand) : countSourceUses s op = readersOf s.count s.moves op := by
  unfold countSourceUses readersOf
  congr 1
  refine countP_range_congr fun j _ => ?_
  unfold src isEliminated
  cases (s.moves j).source <;> simp

/-- The counts follow the sources that a swap renames. -/
theorem swapUses_source (h : Exact count d s.counts) (hcount : s.count = count) {b : Operand} (hab : a ≠ b)
    (ha : ∀ x, a = .register x → x < kNumAllocatableRegisters)
    (hb : ∀ x, b = .register x → x < kNumAllocatableRegisters) {r : Nat} (hr : r < kNumAllocatableRegisters) :
    swapUses { s with moves := renameSources (some a) (some b) s.moves } (some a) (some b) r =
      readers count (renameSources (some a) (some b) s.moves) r := by
  subst hcount
  have hall : ∀ k < kNumAllocatableRegisters, s.sourceUses k = readersOf s.count s.moves (.register k) :=
    fun k hk => (h k hk).1
  have hcounted := countSourceUses_eq (s := { s with moves := renameSources (some a) (some b) s.moves })
  unfold readers
  rw [readersOf_renameSources hab]
  simp only [readersOf_renameSources hab] at hcounted
  by_cases hra : Operand.register r = a
  · subst hra
    cases b with
    | register y =>
      simp_all [swapUses]
    | _ => simp [swapUses, hcounted]
  · rw [if_neg hra]
    by_cases hrb : Operand.register r = b
    · subst hrb
      cases a with
      | register x => simp [swapUses, hall x (ha x rfl)]
      | _ => simp [swapUses, hcounted]
    · rw [if_neg hrb]
      have hkeep : ∀ x v, (a = .register x ∨ b = .register x) → ∀ uses : Nat → Int, update uses x v r = uses r := by
        grind
      rw [← hall r hr]
      cases a with
      | register x =>
        cases b with
        | register y => rw [swapUses, hkeep y _ (.inr rfl), hkeep x _ (.inl rfl)]
        | _ => rw [swapUses, hkeep x _ (.inl rfl)]; simp
      | _ =>
        cases b with
        | register y => rw [swapUses, hkeep y _ (.inr rfl)]; simp
        | _ => rfl

theorem swapUses_exact (h : Exact count d s.counts) (hcount : s.count = count) {b : Operand} (hab : a ≠ b)
    (ha : ∀ x, a = .register x → x < kNumAllocatableRegisters)
    (hb : ∀ x, b = .register x → x < kNumAllocatableRegisters) :
    Exact count d ⟨renameSources (some a) (some b) s.moves,
      swapUses { s with moves := renameSources (some a) (some b) s.moves } (some a) (some b),
      s.destinationUses⟩ := by
  intro r hr
  refine ⟨swapUses_source h hcount hab ha hb hr, ?_⟩
  show s.destinationUses r = _
  rw [show s.destinationUses r = _ from (h r hr).2]
  congr 1
  refine countP_range_congr fun j _ => ?_
  show ((src s.moves j).isSome && _) = ((src (renameSources _ _ s.moves) j).isSome && _)
  rw [src_renameSources]
  grind

/-- The counts say that no remaining move reads the register and that one writes it. -/
def UsesFree (s : State) (r : Nat) : Prop :=
  r < kNumAllocatableRegisters ∧ s.sourceUses r = 0 ∧ 0 < s.destinationUses r

/-- A register that the counts call free. -/
theorem Exact.free (h : Exact count d s.counts) {r : Nat} (hfree : UsesFree s r) :
    (∀ j < count, src s.moves j ≠ some (.register r)) ∧
      ∃ k < count, src s.moves k ≠ none ∧ d k = .register r := by
  obtain ⟨hr, hsrc, hdest⟩ := hfree
  obtain ⟨hs, hd⟩ := h r hr
  have hnone : ∀ j < count, src s.moves j ≠ some (.register r) := by
    have hz : readers count s.moves r = 0 := by
      rw [State.counts] at hs
      simp only at hs
      omega
    rw [readers, readersOf, List.countP_eq_zero] at hz
    grind
  refine ⟨hnone, ?_⟩
  have hpos : 0 < writers count d s.moves r := by
    simp only [State.counts] at hd
    omega
  rw [writers, List.countP_pos_iff] at hpos
  grind

theorem getFreeRegisterNot_spec {skip : Option Nat} {r : Nat} (h : getFreeRegisterNot s skip = some r) :
    UsesFree s r ∧ some r ≠ skip := by
  have hp := List.find?_some h
  have hm := List.mem_of_find?_eq_some h
  simp only [Bool.and_eq_true, decide_eq_true_eq] at hp
  exact ⟨⟨by simpa using hm, hp.1.1, hp.1.2⟩, hp.2⟩

end W16.Ia32
