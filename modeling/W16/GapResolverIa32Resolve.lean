import W16.GapResolverIa32Sound

/-!
# `Resolve` on ia32

From a reset state `Resolve` adds the moves, performs them and resets the state again.
-/
namespace W16.Ia32

open Lithium MoveOperands GapResolver Function List

/-! ## The initial list -/

theorem hasBeenReset_iff {s : State} : hasBeenReset s = true ↔ s.count = 0 ∧ s.spilledRegister = none ∧
    ∀ r < kNumAllocatableRegisters, s.sourceUses r = 0 ∧ s.destinationUses r = 0 := by
  simp [hasBeenReset, and_assoc]

section Initial

variable {s : State} (hreset : hasBeenReset s = true)

theorem increment_apply (uses : Nat → Int) (op : Option Operand) (r : Nat) :
    increment uses op r = uses r + (decide (op = some (.register r))).toNat := by
  cases op with
  | none => simp [increment]
  | some op =>
    cases op with
    | register n =>
      by_cases hr : r = n
      · simp [increment, hr]
      · simp [increment, hr, Ne.symm hr]
    | _ => simp [increment]

include hreset

theorem addMoves_spec (l : List (MoveOperands Operand)) :
    (l.foldl addMove s).count = l.length ∧ (∀ j < l.length, (l.foldl addMove s).moves j = moveAt l j) ∧
    (∀ r < kNumAllocatableRegisters,
      (l.foldl addMove s).sourceUses r = l.countP (fun m => m.source = some (.register r)) ∧
      (l.foldl addMove s).destinationUses r = l.countP (fun m => m.destination = some (.register r))) ∧
    (l.foldl addMove s).spilledRegister = none ∧ (l.foldl addMove s).code = s.code ∧
    (l.foldl addMove s).history = s.history := by
  induction l using reverseRecOn with
  | nil =>
    simp_all [hasBeenReset_iff]
  | append_singleton init m ih =>
    obtain ⟨hcount, hmoves, huses, hspill, hcode, hhistory⟩ := ih
    rw [foldl_append]
    set t := init.foldl addMove s
    refine ⟨?_, fun j hj => ?_, fun r hr => ?_, hspill, hcode, hhistory⟩
    · simp [addMove, hcount]
    · show update t.moves t.count m j = _
      rw [length_append, length_singleton] at hj
      by_cases hji : j = init.length
      · rw [hcount, hji, update_self]
        simp [moveAt]
      · rw [hcount, update_of_ne hji, hmoves j (by omega)]
        simp [moveAt, getElem?_append_left (show j < init.length by omega)]
    · obtain ⟨h1, h2⟩ := huses r hr
      refine ⟨?_, ?_⟩
      · show increment t.sourceUses m.source r = _
        grind [increment_apply]
      · show increment t.destinationUses m.destination r = _
        rw [increment_apply, h2]
        grind

end Initial

theorem countP_moveAt (p : MoveOperands Operand → Bool) (l : List (MoveOperands Operand)) :
    (List.range l.length).countP (fun i => p (moveAt l i)) = l.countP p := by
  have hmap : (List.range l.length).map (moveAt l) = l :=
    ext_getElem (by simp) fun i h1 h2 => by simp [moveAt, h2]
  calc (List.range l.length).countP (p ∘ moveAt l)
      = ((List.range l.length).map (moveAt l)).countP p := countP_map.symm
    _ = l.countP p := by rw [hmap]

theorem good_initial (constants : Nat → BitVec 32) {moves : List (MoveOperands Operand)} (h : Gap moves) {s : State}
    (hreset : hasBeenReset s = true) (hcode : s.code = []) (hhistory : s.history = []) :
    Good constants moves ((buildInitialMoveList moves).foldl addMove s) := by
  obtain ⟨hcount, hmoves, huses, hspill, hcode', hhist'⟩ := addMoves_spec hreset (buildInitialMoveList moves)
  set t := (buildInitialMoveList moves).foldl addMove s
  rw [hcode] at hcode'
  rw [hhistory] at hhist'
  have hsrc : ∀ i < total moves, src t.moves i = some (source₀ moves i) := by
    intro i hi
    rw [src, hmoves i hi, (h.moveAt_eq hi).1]
  have hlog : ∀ m₀, logical t m₀ = m₀.memory := by
    simp [logical, overlay, hspill, hcode', run]
  refine ⟨⟨hcount, fun r hr => ?_, fun m₀ => ?_, fun m₀ => ?_, ?_, ?_, ?_⟩, .inl ⟨fun m₀ => ?_, ?_⟩⟩
  · obtain ⟨h1, h2⟩ := huses r hr
    refine ⟨h1.trans ?_, h2.trans ?_⟩
    · show _ = ((readersOf (total moves) t.moves (.register r) : Nat) : Int)
      rw [← countP_moveAt]
      congr 1
      refine countP_range_congr fun j hj => ?_
      rw [src, hmoves j hj]
    · show _ = ((writers (total moves) (destination₀ moves) t.moves r : Nat) : Int)
      rw [← countP_moveAt]
      congr 1
      refine countP_range_congr fun j hj => ?_
      rw [hsrc j hj, (h.moveAt_eq hj).1]
      simp
  · exact .init (wellFormed h m₀) hsrc
  · simp [Balanced, hspill, hcode', run]
  · simp [hspill]
  · simp [hhist']
  · simp [swaps, hhist']
  · rw [hlog]
    exact .init (wellFormed h m₀.memory) hsrc
  · simp [swaps, hhist']

/-! ## The whole call -/

section Resolve

variable (constants : Nat → BitVec 32) (moves : List (MoveOperands Operand))

/-- `Resolve` ends, its code performs the moves in parallel from every machine state and leaves all
other words and the stack as they were, the counts were exact throughout and free registers were
free, and the state is reset. -/
def ResolvesInParallel (s : State) : Prop :=
  ∃ t, resolve constants s moves = some t ∧ (∀ m₀, (∀ source destination, Transfer moves source destination →
        Delivers constants m₀.memory source ((locs destination).map (run t.code m₀).memory)) ∧
      (∀ l, ¬IsScratch l → (∀ source destination, Transfer moves source destination → l ∉ locs destination) →
        (run t.code m₀).memory l = m₀.memory l) ∧
      (run t.code m₀).stack = m₀.stack) ∧
    (∀ e ∈ t.history, EventOk (total moves) (destination₀ moves) e) ∧ hasBeenReset t = true

variable {constants moves}

/-- At the end the spilled register is popped, and the memory is the logical one. -/
theorem finish_spec {s : State} (hs : Shape constants moves s) (hdone : ∀ i < total moves, src s.moves i = none) :
    (∀ m₀, (run (finish s).code m₀).memory = logical s m₀ ∧ (run (finish s).code m₀).stack = m₀.stack) ∧
      (finish s).history = s.history ∧ hasBeenReset (finish s) = true := by
  have hzero : ∀ r < kNumAllocatableRegisters, s.sourceUses r = 0 ∧ s.destinationUses r = 0 := by
    intro r hr
    obtain ⟨h1, h2⟩ := hs.exact r hr
    simp_all [readers, readersOf, writers, State.counts]
  unfold finish
  cases hspill : s.spilledRegister with
  | none =>
    refine ⟨fun m₀ => ⟨?_, ?_⟩, rfl, ?_⟩
    · simp [logical, overlay, hspill]
    · simpa [Balanced, hspill] using hs.balanced m₀
    · exact hasBeenReset_iff.2 ⟨rfl, hspill, hzero⟩
  | some r =>
    have hk := restore_keeps 0 hspill
    refine ⟨fun m₀ => ⟨?_, hk.balanced m₀ (hs.balanced m₀)⟩, rfl, ?_⟩
    · rw [← hk.logical m₀ (hs.balanced m₀)]
      rfl
    · exact hasBeenReset_iff.2 ⟨rfl, rfl, hzero⟩

theorem swaps_emitConstants (B : Port State Operand) (count : Nat) (s : State) :
    swaps (emitConstants B (emitMove constants) count s) = swaps s := by
  unfold emitConstants
  induction List.range count generalizing s with
  | nil => rfl
  | cons i rest ih =>
    rw [foldl_cons, ih]
    split
    · rfl
    · exact (emitMove_kept s i).2

variable (h : Gap moves) {s : State} (hreset : hasBeenReset s = true) (hcode : s.code = []) (hhistory : s.history = [])
include h hreset hcode hhistory

/-- The run as a whole: it ends, keeps the shape, and swaps all later moves of cycles. -/
theorem resolve_run (constants : Nat → BitVec 32) : ∃ f, resolve constants s moves = some (finish f) ∧ Good constants moves f ∧
    (∀ i < total moves, src f.moves i = none) ∧
    ∀ i, LaterInCycle (source₀ moves) (destination₀ moves) (total moves) i → i ∈ swaps f := by
  have hgood := good_initial constants h hreset hcode hhistory
  obtain ⟨hcount, hmoves, -⟩ := addMoves_spec hreset (buildInitialMoveList moves)
  have hd : ∀ i < total moves, ∀ j < total moves, destination₀ moves i = destination₀ moves j → i = j :=
    fun i hi j hj => h.destination_inj hi hj
  have hconst : ∀ i < total moves, (destination₀ moves i).isConstant = false :=
    fun i hi => (destination_variable h hi).1
  have hinit : ∀ i < total moves, ((buildInitialMoveList moves).foldl addMove s).moves i =
      ⟨some (source₀ moves i), some (destination₀ moves i)⟩ :=
    fun i hi => (hmoves i hi).trans (h.moveAt_eq hi).1
  have law := swapLaw h constants
  obtain ⟨t, ht, hgoodf, hdone⟩ := law.resolve_spec hd Operand.isConstant hconst hgood hinit
  refine ⟨_, ?_, hgoodf, hdone, fun i hi => ?_⟩
  · unfold resolve port
    simp only [hcount]
    rw [ht]
    rfl
  · rw [swaps_emitConstants]
    refine law.all_swapped hd ?_ ?_ ?_ ?_ ?_ hconst hgood hinit ht hi
    · exact fun j hj => h.not_redundant hj
    · simp [swaps, setDestination]
    · exact fun _ _ => rfl
    · exact fun s i => (emitMove_kept s i).2
    · exact fun s i => (emitSwap_kept s i).2

theorem narrow_of_resolves (hpar : ResolvesInParallel constants moves s) :
    ∀ i, LaterInCycle (source₀ moves) (destination₀ moves) (total moves) i → ¬IsWide moves i := by
  obtain ⟨f, hrun, ⟨hshape, hvals⟩, hdone, hall⟩ := resolve_run h hreset hcode hhistory constants
  obtain ⟨t, ht, hpar, -⟩ := hpar
  intro i hi hwide
  obtain rfl : finish f = t := Option.some_inj.1 (hrun.symm.trans ht)
  rcases hvals with ⟨-, hnarrow⟩ | ⟨⟨j, hj, -, m₀, hbad⟩, -⟩
  · exact hnarrow i (hall i hi) hwide
  · refine hbad ?_
    rw [← ((finish_spec hshape hdone).1 m₀).1]
    exact (hpar m₀).1 _ _ (h.moveAt_eq hj).2

theorem resolves_of_narrow
    (hnarrow : ∀ i, LaterInCycle (source₀ moves) (destination₀ moves) (total moves) i → ¬IsWide moves i) :
    ResolvesInParallel constants moves s := by
  obtain ⟨f, hrun, ⟨hshape, hvals⟩, hdone, hall⟩ := resolve_run h hreset hcode hhistory constants
  obtain ⟨hmachine, hhist, hfinal⟩ := finish_spec hshape hdone
  have hcorr : Correct constants moves f := by
    rcases hvals with ⟨hcorr, -⟩ | ⟨-, i, hi, hwide⟩
    · exact hcorr
    · exact absurd hwide (hnarrow i (hshape.later i hi))
  refine ⟨finish f, hrun, fun m₀ => ?_, ?_, hfinal⟩
  · rw [(hmachine m₀).1]
    obtain ⟨hdel, hframe⟩ := h.toParallel.delivered locs_not_scratch
      (fun _ hc _ => (delivers_variable hc).2 rfl) (hcorr m₀) hdone
    exact ⟨hdel, hframe, (hmachine m₀).2⟩
  · rw [hhist]
    exact hshape.history

end Resolve

/-- `Resolve` does its work on a list of moves exactly when no move of a cycle, other than the first
of the cycle in the list, goes from one double slot to another. -/
theorem resolve_parallel_iff (constants : Nat → BitVec 32) (moves : List (MoveOperands Operand)) (s : State)
    (h : Gap moves) (hreset : hasBeenReset s = true) (hcode : s.code = []) (hhistory : s.history = []) :
    ResolvesInParallel constants moves s ↔
      ∀ i, LaterInCycle (source₀ moves) (destination₀ moves) (total moves) i → ¬IsWide moves i :=
  ⟨narrow_of_resolves h hreset hcode hhistory, resolves_of_narrow h hreset hcode hhistory⟩

theorem Gap.of_transfers {moves : List (MoveOperands Operand)} (h : Parallel locs moves)
    (hreg : ∀ a ∈ (transfers moves).flatMap fun t => [t.1, t.2], a.isRegister = true →
      a.index.toNat < kNumAllocatableRegisters) : Gap moves := by
  refine ⟨h, ?_⟩
  rintro r ⟨source, destination, ht, ha⟩
  simpa using hreg (.register r) (mem_flatMap.2 ⟨_, transfer_iff.1 ht, by simpa using ha⟩) rfl

/-- A register and a slot change places. -/
theorem resolve_parallel_exchanged : ResolvesInParallel (fun _ => 0) [⟨some (.register 0), some (.stackSlot 0)⟩,
      ⟨some (.stackSlot 0), some (.register 0)⟩] initial := by
  refine (resolve_parallel_iff (fun _ => 0) [⟨some (.register 0), some (.stackSlot 0)⟩,
    ⟨some (.stackSlot 0), some (.register 0)⟩] initial
    (.of_transfers (.of_transfers (by decide) (by decide) (by decide) (by decide)) (by decide)) (by decide) rfl
    rfl).2 ?_
  rintro i ⟨cycle, root, -, -, hi, -, -, hlt⟩ ⟨hwide, -⟩
  have hi : i < 2 := (hlt i hi).1
  have hcases : i = 0 ∨ i = 1 := by omega
  rcases hcases with rfl | rfl <;> exact absurd hwide (by decide)

/-- Two double slots that change places: the upper word of the second is lost. -/
theorem double_slots_corrupted : Gap [⟨some (.doubleStackSlot 2), some (.doubleStackSlot 4)⟩,
      ⟨some (.doubleStackSlot 4), some (.doubleStackSlot 2)⟩] ∧
    ¬ResolvesInParallel (fun _ => 0) [⟨some (.doubleStackSlot 2), some (.doubleStackSlot 4)⟩,
      ⟨some (.doubleStackSlot 4), some (.doubleStackSlot 2)⟩] initial := by
  have hgap : Gap [⟨some (.doubleStackSlot 2), some (.doubleStackSlot 4)⟩,
      ⟨some (.doubleStackSlot 4), some (.doubleStackSlot 2)⟩] :=
    .of_transfers (.of_transfers (by decide) (by decide) (by decide) (by decide)) (by decide)
  refine ⟨hgap, fun hpar => ?_⟩
  refine narrow_of_resolves hgap (by decide) rfl rfl hpar 1 ⟨[1, 0], 0, ⟨?_, 1, 0, rfl, rfl, rfl⟩, rfl, by simp, by decide,
    by decide, by decide⟩ ⟨by decide, by decide⟩
  exact isChain_cons_cons.2 ⟨rfl, isChain_singleton 0⟩

end W16.Ia32
