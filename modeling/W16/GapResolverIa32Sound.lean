import W16.GapResolverIa32Run

/-!
# Soundness of the ia32 resolver

The claim on `Resolve` holds of a list of moves exactly when no cycle has a move, other than
its first, from one double slot to another: such a move is resolved by a swap that loses
the upper word.
-/
namespace W16.Ia32

open Lithium MoveOperands GapResolver Function List

/-- What the caller promises of the moves. -/
structure Gap (moves : List (MoveOperands Operand)) : Prop extends Parallel locs moves where
  allocatable : ∀ r, Named moves (.register r) → r < kNumAllocatableRegisters

section Invariant

variable (constants : Nat → BitVec 32) (moves : List (MoveOperands Operand))

/-- The parallel move of the list, from a memory. -/
abbrev moveProblem (m₀ : Memory) : ParallelMove.Problem Operand Loc (BitVec 32) :=
  problem (fun x => x) locs Operand.isConstant Operand.isGeneral (fun _ => False) IsScratch (Delivers constants)
    moves m₀

abbrev total : Nat := (buildInitialMoveList moves).length

abbrev source₀ : Nat → Operand := sourceAt (buildInitialMoveList moves)

abbrev destination₀ : Nat → Operand := destinationAt (buildInitialMoveList moves)

/-- A move between two double slots. -/
def IsWide (i : Nat) : Prop :=
  (source₀ moves i).isDoubleStackSlot = true ∧ (destination₀ moves i).isDoubleStackSlot = true

/-- The parts of the invariant that do not speak of values. -/
structure Shape (s : State) : Prop where
  count : s.count = total moves
  exact : Exact (total moves) (destination₀ moves) s.counts
  placed : ∀ m₀, ParallelMove.Placed (moveProblem constants moves m₀) (src s.moves)
  balanced : ∀ m₀, Balanced s m₀
  spilled : ∀ r, s.spilledRegister = some r → r < kNumAllocatableRegisters
  history : ∀ e ∈ s.history, EventOk (total moves) (destination₀ moves) e
  later : ∀ i ∈ swaps s, LaterInCycle (source₀ moves) (destination₀ moves) (total moves) i

/-- No machine has lost a value. -/
def Correct (s : State) : Prop :=
  ∀ m₀ : Machine, ParallelMove.Holding (moveProblem constants moves m₀.memory) (logical s m₀) (src s.moves)

/-- A move has been performed and its destination is wrong on some machine. -/
def Corrupt (s : State) : Prop :=
  ∃ i < total moves, src s.moves i = none ∧
    ∃ m₀ : Machine, ¬Delivers constants m₀.memory (source₀ moves i) ((locs (destination₀ moves i)).map (logical s m₀))

/-- The invariant: values are lost by the swaps of double slots, and by nothing else. -/
def Good (s : State) : Prop :=
  Shape constants moves s ∧ ((Correct constants moves s ∧ ∀ i ∈ swaps s, ¬IsWide moves i) ∨
      (Corrupt constants moves s ∧ ∃ i ∈ swaps s, IsWide moves i))

variable {constants moves} (h : Gap moves)
include h

theorem wellFormed (m₀ : Memory) : ParallelMove.WellFormed (moveProblem constants moves m₀) :=
  h.toParallel.wellFormed locs_not_scratch (fun _ hc _ => (delivers_variable hc).2 rfl) (fun _ _ e => e)
    (fun _ => rfl) (fun _ => rfl) fun _ hs => hs.elim

variable {i : Nat} {s : State}

theorem destination_variable (hi : i < total moves) :
    (destination₀ moves i).isConstant = false ∧ (destination₀ moves i).isUnallocated = false :=
  ⟨h.variable_destination _ _ (h.moveAt_eq hi).2, h.allocated _ ⟨_, _, (h.moveAt_eq hi).2, .inr rfl⟩⟩

theorem destination_register {r : Nat} (hi : i < total moves) (hr : destination₀ moves i = .register r) :
    r < kNumAllocatableRegisters :=
  h.allocatable r ⟨_, _, (h.moveAt_eq hi).2, .inr hr.symm⟩

/-- The operands of a move are restored before it is emitted. -/
def prepare (s : State) (e : Event) (a b : Operand) : State := ensureRestored (ensureRestored (record s e) a) b

omit h in
theorem prepare_spec (i : Nat) (s : State) (e : Event) (a b : Operand) :
    Keeps i (record s e) (prepare s e a b) ∧ (prepare s e a b).history = s.history ++ [e] ∧
      ∀ l ∈ locs a ++ locs b, ¬IsSpilled (prepare s e a b) l := by
  obtain ⟨hk, ha, -⟩ := ensureRestored_keeps (record s e) i a
  obtain ⟨hk', hb, hmono⟩ := ensureRestored_keeps (ensureRestored (record s e) a) i b
  refine ⟨hk.trans hk', ?_, fun l hl => ?_⟩
  · rw [prepare, ensureRestored_history, ensureRestored_history]
    rfl
  · rcases mem_append.1 hl with hl | hl
    · exact hmono l (ha l hl)
    · exact hb l hl

section Step

variable {s : State} (hs : Shape constants moves s) {i : Nat} (hi : i < total moves)
include hs

omit h in
/-- A register that the counts call free may be overwritten. -/
theorem Shape.free_of_temp {m₀ : Memory} {l : Loc} (hl : IsTemp s l) :
    ParallelMove.Free (moveProblem constants moves m₀) (src s.moves) l := by
  obtain ⟨r, rfl, hr⟩ := hl
  obtain ⟨hno, k, hk, hlive, hd⟩ := hs.exact.free hr
  refine .inl ⟨k, hk, hlive, ?_, fun j hj hb => hno j hj ?_⟩
  · show Loc.reg r ∈ locs (destination₀ moves k)
    rw [hd]
    simp
  · rw [hb]
    exact congrArg some hd

include hi

theorem Shape.source {a : Operand} (ha : src s.moves i = some a) :
    a.isUnallocated = false ∧ a.isGeneral = (destination₀ moves i).isGeneral ∧
      ∀ r, a = .register r → r < kNumAllocatableRegisters := by
  have hplaced := hs.placed fun _ => 0
  obtain ⟨x, hx, he⟩ := (hplaced.place i hi a ha).resolve_right fun hs => hs
  rw [he] at ha ⊢
  exact ⟨h.allocated x hx, hplaced.kind i hi _ ha, fun r hr => h.allocatable r (hr ▸ hx)⟩

omit h hi in
/-- Emitting a step changes nothing but the code, the history and the spilled register. -/
theorem Shape.emitted {u : State} {a : Operand} {Q : List Instr → List Nat → Prop} {e : Event}
    (hemit : Emits i (prepare s e a (destination₀ moves i)) u a (destination₀ moves i) Q)
    (he : EventOk (total moves) (destination₀ moves) e) (hbalanced : ∀ m₀, Balanced u m₀)
    (hlater : ∀ j ∈ swaps (record s e), LaterInCycle (source₀ moves) (destination₀ moves) (total moves) j) :
    Shape constants moves u ∧ u.moves = s.moves ∧ swaps u = swaps (record s e) := by
  obtain ⟨hk, hhist, -⟩ := prepare_spec i s e a (destination₀ moves i)
  obtain ⟨t, tmps, code, rfl, hkeeps, -, -, -, hevents⟩ := hemit
  have hall := hk.trans hkeeps
  have hmoves : t.moves = s.moves := hall.moves
  have hcounts : t.counts = s.counts := by
    rw [State.counts, State.counts, hmoves, hall.sourceUses, hall.destinationUses]
    rfl
  have hpcounts : (prepare s e a (destination₀ moves i)).counts = s.counts := by
    rw [State.counts, State.counts, hk.moves, hk.sourceUses, hk.destinationUses]
    rfl
  refine ⟨⟨hall.count.trans hs.count, ?_, ?_, hbalanced, hall.spilled hs.spilled, fun e' he' => ?_, ?_⟩, hmoves,
    hall.swaps⟩
  · show Exact _ _ t.counts
    rw [hcounts]
    exact hs.exact
  · intro m₀
    show ParallelMove.Placed _ (src t.moves)
    rw [hmoves]
    exact hs.placed m₀
  · rcases hevents e' he' with he' | ⟨r, rfl, hr, hne⟩
    · rw [hhist] at he'
      rcases mem_append.1 he' with he' | he'
      · exact hs.history e' he'
      · rw [mem_singleton.1 he']
        exact he
    · have hr' : UsesFree s r := by
        unfold UsesFree at hr ⊢
        rwa [hk.sourceUses, hk.destinationUses] at hr
      obtain ⟨hno, k, hk', hlive, hd⟩ := hs.exact.free hr'
      rw [hpcounts]
      exact ⟨hs.exact, hno, k, hk', fun e => hne (e ▸ hd), hlive, hd⟩
  · show ∀ j ∈ swaps t, _
    rw [hall.swaps]
    exact hlater

omit h in
/-- Removing a move from the list keeps the shape. -/
theorem Shape.remove {a : Operand} (hmove : s.moves i = ⟨some a, some (destination₀ moves i)⟩) :
    Shape constants moves (removeMove s i) := by
  refine ⟨hs.count, removeMove_exact hs.exact hi hmove, fun m₀ => ?_, hs.balanced, hs.spilled, hs.history, hs.later⟩
  show ParallelMove.Placed _ (src (update s.moves i eliminated))
  rw [src_update_eliminated]
  exact (hs.placed m₀).move i

section Move

variable {a : Operand} (hmove : s.moves i = ⟨some a, some (destination₀ moves i)⟩)
  (hfree : ∀ j < total moves, src s.moves j ≠ some (destination₀ moves i))
include hmove

/-- What `EmitMove` does to the state and to the logical memory. -/
theorem emitMove_spec :
    Shape constants moves (emitMove constants s i) ∧ swaps (emitMove constants s i) = swaps s ∧
    src (emitMove constants s i).moves = update (src s.moves) i none ∧
    ∀ m₀, (∀ l, l ∉ locs (destination₀ moves i) → ¬IsScratch l → ¬IsTemp s l →
        logical (emitMove constants s i) m₀ l = logical s m₀ l) ∧
      Delivers constants (logical s m₀) a ((locs (destination₀ moves i)).map
        (logical (emitMove constants s i) m₀)) := by
  have ha : src s.moves i = some a := by rw [src, hmove]
  obtain ⟨hall, hkind, -⟩ := hs.source h hi ha
  obtain ⟨hvar, hdall⟩ := destination_variable h hi
  obtain ⟨hk, -, hnot⟩ := prepare_spec i s (.move i s.counts) a (destination₀ moves i)
  have hemit := moveBody_emits constants i hkind hall hdall hvar hnot
  have hbal := fun m₀ => hk.balanced m₀ (hs.balanced m₀)
  obtain ⟨hshape, hmoves, hswaps⟩ := hs.emitted hemit hs.exact (fun m₀ => (hemit.moved (hbal m₀)).1)
    (by simpa [swaps, record] using hs.later)
  have heq : emitMove constants s i = removeMove
      (moveBody constants (prepare s (.move i s.counts) a (destination₀ moves i)) i a (destination₀ moves i)) i := by
    unfold emitMove
    rw [hmove]
    rfl
  rw [heq]
  refine ⟨hshape.remove hi (by rw [hmoves, hmove]), hswaps.trans (by simp [swaps, record]), ?_, fun m₀ => ?_⟩
  · show src (update _ i eliminated) = _
    rw [src_update_eliminated, hmoves]
  · obtain ⟨-, hframe, hval⟩ := hemit.moved (hbal m₀)
    have hlog := hk.logical m₀ (hs.balanced m₀)
    rw [hlog] at hframe hval
    refine ⟨fun l hl hsc ht => hframe l hl hsc ?_, hval⟩
    rintro ⟨r, hr, huse⟩
    refine ht ⟨r, hr, ?_⟩
    unfold UsesFree at huse ⊢
    rwa [hk.sourceUses, hk.destinationUses] at huse

end Move

section Swap

variable {p : Nat} (hp : p < total moves) (hne : p ≠ i)
  (hmove : s.moves i = ⟨some (destination₀ moves p), some (destination₀ moves i)⟩)
  (hreader : ∃ r < total moves, src s.moves r = some (destination₀ moves i))
  (hlater : LaterInCycle (source₀ moves) (destination₀ moves) (total moves) i)
include hp hne hmove hreader hlater

/-- What `EmitSwap` does to the state and to the logical memory. -/
theorem emitSwap_spec : Shape constants moves (emitSwap s i) ∧ swaps (emitSwap s i) = swaps s ++ [i] ∧
    src (emitSwap s i).moves = ParallelMove.swapped (src s.moves) i (destination₀ moves p) (destination₀ moves i) ∧
    ∀ m₀, (∀ l, l ∉ locs (destination₀ moves p) → l ∉ locs (destination₀ moves i) → ¬IsScratch l → ¬IsTemp s l →
        logical (emitSwap s i) m₀ l = logical s m₀ l) ∧
      (locs (destination₀ moves p)).map (logical (emitSwap s i) m₀) =
        (locs (destination₀ moves i)).map (logical s m₀) ∧
      (locs (destination₀ moves i)).map (logical (emitSwap s i) m₀) =
        swapResult (destination₀ moves p) (destination₀ moves i) (logical s m₀) := by
  have ha : src s.moves i = some (destination₀ moves p) := by rw [src, hmove]
  obtain ⟨hall, hkind, hareg⟩ := hs.source h hi ha
  obtain ⟨hvar, hdall⟩ := destination_variable h hi
  have wf : ParallelMove.WellFormed (moveProblem constants moves fun _ => 0) := wellFormed h _
  have hab : destination₀ moves p ≠ destination₀ moves i := fun e => hne (h.destination_inj hp hi e)
  have hdisj := wf.disjoint _ _ (wf.dest_operand p hp) (wf.dest_operand i hi) hab
  obtain ⟨hk, -, hnot⟩ := prepare_spec i s (.swap i s.counts) (destination₀ moves p) (destination₀ moves i)
  have huses : ∀ r, UsesFree (prepare s (.swap i s.counts) (destination₀ moves p) (destination₀ moves i)) r →
      UsesFree s r := by
    intro r hr
    unfold UsesFree at hr ⊢
    rwa [hk.sourceUses, hk.destinationUses] at hr
  have hfree : ∀ r, UsesFree (prepare s (.swap i s.counts) (destination₀ moves p) (destination₀ moves i)) r →
      destination₀ moves p ≠ .register r ∧ destination₀ moves i ≠ .register r := by
    intro r hr
    have hno := (hs.exact.free (huses r hr)).1
    grind
  have hemit := swapBody_emits i hkind hall hdall hvar hnot (destination_variable h hp).1 hdisj hfree
  have hbal := fun m₀ => hk.balanced m₀ (hs.balanced m₀)
  have hrecord : swaps (record s (.swap i s.counts)) = swaps s ++ [i] := by simp [swaps, record]
  obtain ⟨hshape, hmoves, hswaps⟩ := hs.emitted hemit hs.exact
    (fun m₀ => (hemit.swapped swapResult_congr (hbal m₀)).1) (by
      rw [hrecord]
      intro j hj
      rcases mem_append.1 hj with hj | hj
      · exact hs.later j hj
      · rw [mem_singleton.1 hj]
        exact hlater)
  have heq : emitSwap s i =
      let u := removeMove (swapBody (prepare s (.swap i s.counts) (destination₀ moves p) (destination₀ moves i)) i
        (destination₀ moves p) (destination₀ moves i)) i
      { u with
        moves := renameSources (some (destination₀ moves p)) (some (destination₀ moves i)) u.moves
        sourceUses := swapUses { u with
          moves := renameSources (some (destination₀ moves p)) (some (destination₀ moves i)) u.moves }
          (some (destination₀ moves p)) (some (destination₀ moves i)) } := by
    unfold emitSwap
    rw [hmove]
    rfl
  rw [heq]
  have hrem := hshape.remove hi (by rw [hmoves, hmove])
  set u := swapBody (prepare s (.swap i s.counts) (destination₀ moves p) (destination₀ moves i)) i
    (destination₀ moves p) (destination₀ moves i)
  have hsrc : src (renameSources (some (destination₀ moves p)) (some (destination₀ moves i)) (removeMove u i).moves) =
      ParallelMove.swapped (src s.moves) i (destination₀ moves p) (destination₀ moves i) := by
    show src (renameSources _ _ (update u.moves i eliminated)) = _
    rw [hmoves, src_swapped]
  refine ⟨⟨hrem.count, ?_, fun m₀ => ?_, hrem.balanced, hrem.spilled, hrem.history,
    hrem.later⟩, hswaps.trans hrecord, hsrc, fun m₀ => ?_⟩
  · exact swapUses_exact hrem.exact hrem.count hab hareg fun r => destination_register h hi
  · rw [hsrc]
    exact (hs.placed m₀).swap (wellFormed h m₀) hi hp ha
  · obtain ⟨-, hframe, hfrom, hto⟩ := hemit.swapped swapResult_congr (hbal m₀)
    have hlog := hk.logical m₀ (hs.balanced m₀)
    rw [hlog] at hframe hfrom hto
    refine ⟨fun l hla hlb hsc ht => hframe l hla hlb hsc ?_, hfrom, hto⟩
    rintro ⟨r, hr, huse⟩
    exact ht ⟨r, hr, huses r huse⟩

end Swap

end Step

omit h in
theorem Shape.not_free (hs : Shape constants moves s) {m₀ : Memory} {l : Loc}
    (hl : ¬ParallelMove.Free (moveProblem constants moves m₀) (src s.moves) l) : ¬IsScratch l ∧ ¬IsTemp s l :=
  ⟨fun hsc => hl (.inr ⟨hsc, fun _ _ a _ hla => locs_not_scratch a l hla hsc⟩), fun ht => hl (hs.free_of_temp ht)⟩

theorem Good.emitMove (hgood : Good constants moves s) (hi : i < total moves) {a : Operand}
    (hmove : s.moves i = ⟨some a, some (destination₀ moves i)⟩)
    (hfree : ∀ j < total moves, src s.moves j ≠ some (destination₀ moves i)) :
    Good constants moves (emitMove constants s i) := by
  obtain ⟨hs, hvals⟩ := hgood
  obtain ⟨hshape, hswaps, hsrc, heffect⟩ := emitMove_spec h hs hi hmove
  have ha : src s.moves i = some a := by rw [src, hmove]
  have hframe : ∀ m₀ m l, ¬ParallelMove.Free (moveProblem constants moves m) (src s.moves) l →
      logical (Ia32.emitMove constants s i) m₀ l = logical s m₀ l := by
    intro m₀ m l hl
    obtain ⟨hsc, ht⟩ := hs.not_free hl
    exact (heffect m₀).1 l (fun hld => hl (.inl ⟨i, hi, by rw [ha]; simp, hld, hfree⟩)) hsc ht
  refine ⟨hshape, ?_⟩
  rw [hswaps]
  rcases hvals with ⟨hcorr, hnarrow⟩ | ⟨⟨j, hj, hnone, m₀, hbad⟩, hwide⟩
  · refine .inl ⟨fun m₀ => ?_, hnarrow⟩
    have hold := hcorr m₀
    rw [hsrc]
    refine hold.move (wellFormed h m₀.memory) (hframe m₀ m₀.memory) ?_
    have hval := (heffect m₀).2
    cases hc : a.isConstant with
    | true =>
      obtain rfl := hold.constant i hi a ha hc
      exact (delivers_constant hc).1 hval
    | false =>
      rw [delivers_variable hc] at hval
      show Delivers constants m₀.memory _ (List.map _ (locs (destination₀ moves i)))
      rw [hval]
      exact hold.live i hi a ha hc
  · refine .inr ⟨⟨j, hj, ?_, m₀, ?_⟩, hwide⟩
    · rw [hsrc, update_apply, hnone, ite_self]
    · have hread := ParallelMove.read_done (wellFormed h m₀.memory) hj hnone (hframe m₀ m₀.memory)
      rw [show List.map (logical (Ia32.emitMove constants s i) m₀) (locs (destination₀ moves j)) = _ from hread]
      exact hbad

/-- A swap of two double slots leaves a wrong upper word behind on some machine. -/
theorem corrupt_of_wide {f : State} (hcorr : Correct constants moves s) {p : Nat} (hi : i < total moves)
    (hp : p < total moves) (horig : source₀ moves i = destination₀ moves p) (hwide : IsWide moves i)
    (hreader : ∃ r < total moves, src s.moves r = some (destination₀ moves i) ∧
      ∃ q < total moves, q ≠ p ∧ source₀ moves r = destination₀ moves q)
    (hnone : src f.moves i = none)
    (hto : ∀ m₀, (locs (destination₀ moves i)).map (logical f m₀) =
      swapResult (destination₀ moves p) (destination₀ moves i) (logical s m₀)) : Corrupt constants moves f := by
  obtain ⟨hw, hw'⟩ := hwide
  rw [horig] at hw
  obtain ⟨r, hr, hrsrc, q, hq, hqp, hrorig⟩ := hreader
  cases hdp : destination₀ moves p with
  | doubleStackSlot x =>
    cases hdi : destination₀ moves i with
    | doubleStackSlot y =>
      -- The upper word of the source is the only one that is not zero.
      let m₀ : Machine := ⟨fun l => if l = .word (frameWord x + 1) then 1 else 0, []⟩
      refine ⟨i, hi, hnone, m₀, fun hdel => ?_⟩
      have wf : ParallelMove.WellFormed (moveProblem constants moves m₀.memory) := wellFormed h _
      rw [horig, hdp, delivers_variable rfl, hto m₀, hdp, hdi] at hdel
      simp only [swapResult, locs, map_cons, map_nil, List.cons.injEq] at hdel
      have hlive := (hcorr m₀).live r hr _ hrsrc (destination_variable h hi).1
      have hread : Delivers constants m₀.memory (destination₀ moves q)
          ((locs (destination₀ moves i)).map (logical s m₀)) := hrorig ▸ hlive
      rw [delivers_variable (destination_variable h hq).1, hdi] at hread
      have hmem : logical s m₀ (.word (frameWord y + 1)) ∈ (locs (destination₀ moves q)).map m₀.memory := by
        rw [← hread]
        simp
      obtain ⟨l, hl, hlv⟩ := mem_map.1 hmem
      have hne : l ≠ .word (frameWord x + 1) := by
        rintro rfl
        refine wf.disjoint _ _ (wf.dest_operand q hq) (wf.dest_operand p hp)
          (fun e => hqp (h.destination_inj hq hp e)) _ hl ?_
        show Loc.word (frameWord x + 1) ∈ locs (destination₀ moves p)
        rw [hdp]
        simp
      grind -linarith
    | _ => simp [hdi] at hw'
  | _ => simp [hdp] at hw

theorem Good.emitSwap (hgood : Good constants moves s) {p : Nat} (hi : i < total moves)
    (hp : p < total moves) (hne : p ≠ i) (hlive : src s.moves p ≠ none)
    (hmove : s.moves i = ⟨some (destination₀ moves p), some (destination₀ moves i)⟩)
    (horig : source₀ moves i = destination₀ moves p)
    (hlater : LaterInCycle (source₀ moves) (destination₀ moves) (total moves) i)
    (hreader : ∃ r < total moves, src s.moves r = some (destination₀ moves i) ∧
      ∃ q < total moves, q ≠ p ∧ source₀ moves r = destination₀ moves q) :
    Good constants moves (emitSwap s i) := by
  obtain ⟨hs, hvals⟩ := hgood
  have hread : ∃ r < total moves, src s.moves r = some (destination₀ moves i) := by
    grind
  obtain ⟨hshape, hswaps, hsrc, heffect⟩ := emitSwap_spec h hs hi hp hne hmove hread hlater
  have ha : src s.moves i = some (destination₀ moves p) := by rw [src, hmove]
  have hframe : ∀ m₀ m l, ¬ParallelMove.Free (moveProblem constants moves m) (src s.moves) l →
      l ∉ locs (destination₀ moves i) → l ∉ locs (destination₀ moves p) →
      logical (Ia32.emitSwap s i) m₀ l = logical s m₀ l := by
    intro m₀ m l hl hli hlp
    obtain ⟨hsc, ht⟩ := hs.not_free hl
    exact (heffect m₀).1 l hlp hli hsc ht
  have hdone : ∀ j, src s.moves j = none → src (Ia32.emitSwap s i).moves j = none := by
    intro j hj
    rw [hsrc, ParallelMove.swapped, hj]
    simp
  have hi' : src (Ia32.emitSwap s i).moves i = none := by
    rw [hsrc, ParallelMove.swapped, if_pos rfl]
  refine ⟨hshape, ?_⟩
  rw [hswaps]
  rcases hvals with ⟨hcorr, hnarrow⟩ | ⟨⟨j, hj, hnone, m₀, hbad⟩, k, hk, hwide⟩
  · by_cases hwide : IsWide moves i
    · exact .inr ⟨corrupt_of_wide h hcorr hi hp horig hwide hreader hi' fun m₀ => (heffect m₀).2.2,
        i, by simp, hwide⟩
    · refine .inl ⟨fun m₀ => ?_, fun j hj => ?_⟩
      · have hexact : swapResult (destination₀ moves p) (destination₀ moves i) (logical s m₀) =
            (locs (destination₀ moves p)).map (logical s m₀) := by
          unfold swapResult
          split
          · exact absurd ⟨by simp_all, by simp_all⟩ hwide
          · rfl
        rw [hsrc]
        exact (hcorr m₀).swap (wellFormed h m₀.memory) hi hp hlive ha (hframe m₀ m₀.memory)
          ((heffect m₀).2.2.trans hexact) (heffect m₀).2.1
      grind
  · refine .inr ⟨⟨j, hj, hdone j hnone, m₀, ?_⟩, k, by simp [hk], hwide⟩
    have hji : j ≠ i := by
      rintro rfl
      rw [hnone] at ha
      cases ha
    have hjp : j ≠ p := fun e => hlive (e ▸ hnone)
    have hread' := ParallelMove.read_done_swap (wellFormed h m₀.memory) hi hp hj hji hjp hnone (hframe m₀ m₀.memory)
    rw [show List.map (logical (Ia32.emitSwap s i) m₀) (locs (destination₀ moves j)) = _ from hread']
    exact hbad

theorem Good.removeMove (hgood : Good constants moves s) (hi : i < total moves)
    (hmove : s.moves i = ⟨some (destination₀ moves i), some (destination₀ moves i)⟩) :
    Good constants moves (removeMove s i) := by
  obtain ⟨hs, hvals⟩ := hgood
  refine ⟨hs.remove hi hmove, ?_⟩
  have hsrc : src (Ia32.removeMove s i).moves = update (src s.moves) i none := src_update_eliminated s.moves i
  rcases hvals with ⟨hcorr, hnarrow⟩ | ⟨⟨j, hj, hnone, m₀, hbad⟩, hwide⟩
  · refine .inl ⟨fun m₀ => ?_, hnarrow⟩
    rw [hsrc]
    exact (hcorr m₀).drop (wellFormed h m₀.memory) hi (by rw [src, hmove]; rfl)
  · refine .inr ⟨⟨j, hj, ?_, m₀, hbad⟩, hwide⟩
    rw [hsrc, update_apply, hnone, ite_self]

omit h in
theorem Good.setDestination (hgood : Good constants moves s) (i : Nat) (o : Option Operand) :
    Good constants moves (setDestination s i o) := by
  obtain ⟨hs, hvals⟩ := hgood
  have hsrc : src (Ia32.setDestination s i o).moves = src s.moves := src_setDestination s.moves i o
  have hswaps : swaps (Ia32.setDestination s i o) = swaps s := by simp [swaps, Ia32.setDestination]
  refine ⟨⟨hs.count, fun r hr => ?_, fun m₀ => ?_, hs.balanced, hs.spilled, fun e he => ?_, ?_⟩, ?_⟩
  · obtain ⟨h1, h2⟩ := hs.exact r hr
    refine ⟨h1.trans ?_, h2.trans ?_⟩
    · show _ = ((readersOf _ (Ia32.setDestination s i o).moves _ : Nat) : Int)
      unfold readersOf
      rw [hsrc]
      rfl
    · show _ = ((writers _ _ (Ia32.setDestination s i o).moves r : Nat) : Int)
      unfold writers
      rw [hsrc]
      rfl
  · rw [hsrc]
    exact hs.placed m₀
  · rcases mem_append.1 he with he | he
    · exact hs.history e he
    · rw [mem_singleton.1 he]
      exact hs.exact
  · rw [hswaps]
    exact hs.later
  · unfold Correct Corrupt
    rw [hswaps, hsrc]
    exact hvals

section Kept

omit h

/-- What emitting code leaves as it is, whatever the operands are. -/
theorem emit_kept {i : Nat} {s t : State} (hk : Keeps i s t) (code : List Instr) :
    (emit t code).moves = s.moves ∧ swaps (emit t code) = swaps s := ⟨hk.moves, hk.swaps⟩

theorem moveBody_kept (constants : Nat → BitVec 32) (s : State) (i : Nat) (a b : Operand) :
    (moveBody constants s i a b).moves = s.moves ∧ swaps (moveBody constants s i a b) = swaps s := by
  unfold moveBody
  split
  · exact emit_kept (.refl i s) _
  · split_ifs
    · exact emit_kept (.refl i s) _
    · exact emit_kept (ensureTempRegister_keeps i s).1 _
  · exact emit_kept (.refl i s) _
  · split_ifs <;> exact emit_kept (.refl i s) _
  · split_ifs <;> exact emit_kept (.refl i s) _
  · exact ⟨rfl, rfl⟩

theorem swapBody_kept (s : State) (i : Nat) (a b : Operand) :
    (swapBody s i a b).moves = s.moves ∧ swaps (swapBody s i a b) = swaps s := by
  have hself := emit_kept (Keeps.refl i s)
  have htemp := (ensureTempRegister_keeps i s).1
  unfold swapBody
  by_cases h1 : (a.isRegister && b.isRegister) = true
  · rw [if_pos h1]
    exact hself _
  rw [if_neg h1]
  by_cases h2 : (a.isRegister && b.isStackSlot || a.isStackSlot && b.isRegister) = true
  · rw [if_pos h2]
    have hkeeps := (takeFreeRegister_keeps i s none).1
    rcases hres : takeFreeRegister s i none with ⟨t, tmp | tmp⟩
    all_goals
      rw [hres] at hkeeps
      exact emit_kept hkeeps _
  rw [if_neg h2]
  by_cases h3 : (a.isStackSlot && b.isStackSlot) = true
  · rw [if_pos h3]
    have hkeeps := htemp.trans
      (takeFreeRegister_keeps i (ensureTempRegister s i).1 (some (ensureTempRegister s i).2)).1
    rcases hres : takeFreeRegister (ensureTempRegister s i).1 i (some (ensureTempRegister s i).2) with ⟨t, tmp | tmp⟩
    all_goals
      rw [hres] at hkeeps
      simp only [hres]
      exact emit_kept hkeeps _
  rw [if_neg h3]
  by_cases h4 : (a.isDoubleRegister && b.isDoubleRegister) = true
  · rw [if_pos h4]
    exact hself _
  rw [if_neg h4]
  by_cases h5 : (a.isDoubleRegister || b.isDoubleRegister) = true
  · rw [if_pos h5]
    exact hself _
  rw [if_neg h5]
  by_cases h6 : (a.isDoubleStackSlot && b.isDoubleStackSlot) = true
  · rw [if_pos h6]
    exact emit_kept htemp _
  · rw [if_neg h6]
    exact ⟨rfl, rfl⟩

theorem emitMove_kept (s : State) (i : Nat) :
    (emitMove constants s i).moves = update s.moves i eliminated ∧ swaps (emitMove constants s i) = swaps s := by
  unfold emitMove
  split
  · rename_i a b _
    have hk := (prepare_spec i s (.move i s.counts) a b).1
    have hbody := moveBody_kept constants (prepare s (.move i s.counts) a b) i a b
    refine ⟨?_, ?_⟩
    · show update (moveBody constants (prepare s (.move i s.counts) a b) i a b).moves i eliminated = _
      rw [hbody.1, hk.moves]
      rfl
    · exact hbody.2.trans (hk.swaps.trans (by simp [swaps, record]))
  · exact ⟨rfl, rfl⟩

theorem emitSwap_kept (s : State) (i : Nat) : (emitSwap s i).moves =
      renameSources (s.moves i).source (s.moves i).destination (update s.moves i eliminated) ∧
    swaps (emitSwap s i) = swaps s ++ [i] := by
  have hrecord : swaps (record s (.swap i s.counts)) = swaps s ++ [i] := by simp [swaps, record]
  unfold emitSwap
  cases hsrc : (s.moves i).source with
  | none => exact ⟨rfl, hrecord⟩
  | some a =>
    cases hdst : (s.moves i).destination with
    | none => exact ⟨rfl, hrecord⟩
    | some b =>
      have hk := (prepare_spec i s (.swap i s.counts) a b).1
      have hbody := swapBody_kept (prepare s (.swap i s.counts) a b) i a b
      refine ⟨?_, hbody.2.trans (hk.swaps.trans hrecord)⟩
      show renameSources _ _ (update (swapBody (prepare s (.swap i s.counts) a b) i a b).moves i eliminated) = _
      rw [hbody.1, hk.moves]
      rfl

end Kept

theorem swapLaw (constants : Nat → BitVec 32) : SwapLaw State.moves setDestination removeMove emitSwap (emitMove constants) (total moves)
    (source₀ moves) (destination₀ moves) (Good constants moves) where
  moves_setDestination _ _ _ := rfl
  good_setDestination s i o hgood := hgood.setDestination i o
  moves_removeMove _ _ := rfl
  good_removeMove s i hgood hi hmove := hgood.removeMove h hi hmove
  moves_emitMove s i := (emitMove_kept s i).1
  good_emitMove s i a hgood hi hmove hfree := hgood.emitMove h hi hmove hfree
  moves_emitSwap s i := (emitSwap_kept s i).1
  good_emitSwap s i p hgood hi hp hne hlive hmove horig hlater hreader := by
    obtain ⟨r, hr, -, hsrc, hq⟩ := hreader
    exact hgood.emitSwap h hi hp hne hlive hmove horig hlater ⟨r, hr, hsrc, hq⟩

end Invariant

end W16.Ia32
