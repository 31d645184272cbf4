import W16.Dominators
import W16.HydrogenFlow

/-!
# Side effects of blocks and loops

`ComputeBlockSideEffects` sweeps over the blocks from the last one to the first. The
effects of a block go to its loop header, and those of a loop to the header of the
loop around it. As a header precedes its loop, one sweep is enough.
-/
namespace W16.Hydrogen

open Relation NaturalLoop

variable {β ν ω : Type} [DecidableEq β]

/-- `block_side_effects_` and `loop_side_effects_`. -/
structure SideEffects (β : Type) where
  block : β → Finset GvnFlag
  loop : β → Finset GvnFlag

/-- The side effects of the instructions of a block. -/
def blockChanges (P : HProgram β ν ω) (b : β) : Finset GvnFlag :=
  (P.instructions b).foldl (fun effects i => effects ∪ i.changesFlags) ∅

/-- One round of `ComputeBlockSideEffects`. -/
def SideEffects.addBlock (P : HProgram β ν ω) (L : Loops β) (S : SideEffects β) (b : β) : SideEffects β :=
  let effects := blockChanges P b
  let own : SideEffects β :=
    { block := Function.update S.block b (S.block b ∪ effects)
      loop := if L.isLoopHeader b then Function.update S.loop b (S.loop b ∪ effects) else S.loop }
  match L.parentLoopHeader b with
  | none => own
  | some header =>
    { own with
      loop := Function.update own.loop header
        (own.loop header ∪ if L.isLoopHeader b then own.loop b else effects) }

def computeBlockSideEffects (P : HProgram β ν ω) (L : Loops β) (blocks : List β) : SideEffects β :=
  blocks.reverse.foldl (SideEffects.addBlock P L) ⟨fun _ => ∅, fun _ => ∅⟩

variable {P : HProgram β ν ω} {loops blocks done : List β} {L : Loops β} {S : SideEffects β}
  {b c h x : β} {i : HInstruction ν ω}

omit [DecidableEq β] in
theorem changes_subset_blockChanges (hi : i ∈ P.instructions b) : i.changesFlags ⊆ blockChanges P b := by
  suffices ∀ (l : List (HInstruction ν ω)) (effects : Finset GvnFlag),
      effects ⊆ l.foldl (fun effects i => effects ∪ i.changesFlags) effects ∧
        ∀ i ∈ l, i.changesFlags ⊆ l.foldl (fun effects i => effects ∪ i.changesFlags) effects from
    (this _ ∅).2 i hi
  intro l
  induction l with
  | nil => simp
  | cons j l ih =>
    grind

/-- What a block contributes to the loop around it. -/
def contribution (P : HProgram β ν ω) (L : Loops β) (S : SideEffects β) (b : β) : Finset GvnFlag :=
  if L.isLoopHeader b then S.loop b else blockChanges P b

/-- After the sweep has passed the blocks `done`. -/
structure Swept (P : HProgram β ν ω) (L : Loops β) (done : List β) (S : SideEffects β) : Prop where
  block : ∀ b ∈ done, blockChanges P b ⊆ S.block b
  own : ∀ b ∈ done, L.isLoopHeader b = true → blockChanges P b ⊆ S.loop b
  parent : ∀ b ∈ done, ∀ h, L.Parent b h → contribution P L S b ⊆ S.loop h

theorem addBlock_block : (S.addBlock P L c).block =
    Function.update S.block c (S.block c ∪ blockChanges P c) := by
  rw [SideEffects.addBlock]
  split <;> rfl

/-- The loops of other headers stay. -/
theorem addBlock_loop_of_ne (hxc : x ≠ c) (hpar : ¬L.Parent c x) : (S.addBlock P L c).loop x = S.loop x := by
  rw [SideEffects.addBlock]
  split
  · grind
  · next h heq =>
    have hxh : x ≠ h := by
      rintro rfl
      exact hpar heq
    grind

theorem subset_addBlock_loop : S.loop x ⊆ (S.addBlock P L c).loop x := by
  have hown : S.loop x ⊆ (if L.isLoopHeader c then
      Function.update S.loop c (S.loop c ∪ blockChanges P c) else S.loop) x := by
    grind
  rw [SideEffects.addBlock]
  split
  · exact hown
  grind

/-- The header of a loop gets its own effects, and its loop what the block
contributes. -/
theorem addBlock_loop_self (hself : ¬L.Parent c c) :
    (L.isLoopHeader c = true → blockChanges P c ⊆ (S.addBlock P L c).loop c) ∧
      ∀ h, L.Parent c h → contribution P L (S.addBlock P L c) c ⊆ (S.addBlock P L c).loop h := by
  rw [contribution, SideEffects.addBlock]
  cases hpar : L.parentLoopHeader c with
  | none =>
    simp_all [Loops.Parent]
  | some p =>
    have hcp : c ≠ p := by
      rintro rfl
      exact hself hpar
    refine ⟨fun hhead => ?_, fun h hh => ?_⟩
    · grind
    · rw [Loops.Parent, hpar, Option.some.injEq] at hh
      grind

/-- One round of the sweep. The headers around the blocks are still to come. -/
theorem Swept.addBlock (hS : Swept P L done S) (hself : ¬L.Parent c c) (hc : c ∉ done)
    (hpar : ∀ h, L.Parent c h → h ∉ done) : Swept P L (c :: done) (S.addBlock P L c) := by
  have hloop : ∀ b ∈ done, (S.addBlock P L c).loop b = S.loop b := fun b hb =>
    addBlock_loop_of_ne (fun heq => hc (heq ▸ hb)) fun hcb => hpar b hcb hb
  refine ⟨?_, ?_, ?_⟩
  · intro b hb
    rw [addBlock_block]
    rcases List.mem_cons.1 hb with rfl | hb
    · simp
    · have hbc : b ≠ c := fun heq => hc (heq ▸ hb)
      rw [Function.update_of_ne hbc]
      exact hS.block b hb
  · intro b hb hhead
    rcases List.mem_cons.1 hb with rfl | hb
    · exact (addBlock_loop_self hself).1 hhead
    · exact (hS.own b hb hhead).trans subset_addBlock_loop
  · intro b hb h hh
    rcases List.mem_cons.1 hb with rfl | hb
    · exact (addBlock_loop_self hself).2 h hh
    · have hsame : contribution P L (S.addBlock P L c) b = contribution P L S b := by
        rw [contribution, contribution, hloop b hb]
      rw [hsame]
      exact (hS.parent b hb h hh).trans subset_addBlock_loop

/-- The parent of a block has a smaller id. -/
theorem Numbered.blockId_parent [Finite β] {G : HGraph β} (N : Numbered G loops L blocks)
    (hpar : L.Parent b h) : h ∈ blocks ∧ blockId blocks h < blockId blocks b := by
  have hloop := N.registered.isLoop_of_parent hpar
  have hin : G.InLoop loops h b := (N.registered.forest.chain hloop).1 (.single hpar)
  have hne : b ≠ h := by
    rintro rfl
    exact N.registered.forest.chain_irrefl b (.single hpar)
  have hh : h ∈ blocks :=
    (N.reachable h).2 (N.registered.built.reducible.entered hloop .header)
  exact ⟨hh, (N.blockId_lt_of_path hh (N.registered.built.reducible.forward_from_header hloop hin hne)).1⟩

theorem computeBlockSideEffects_swept [Finite β] (N : Numbered P.toHGraph loops L blocks) :
    Swept P L blocks (computeBlockSideEffects P L blocks) := by
  suffices ∀ (done front : List β), blocks = front ++ done →
      Swept P L done (done.foldr (fun b S => S.addBlock P L b) ⟨fun _ => ∅, fun _ => ∅⟩) by
    rw [computeBlockSideEffects, List.foldl_reverse]
    exact this blocks [] rfl
  intro done
  induction done with
  | nil => exact fun _ _ => ⟨by simp, by simp, by simp⟩
  | cons c done ih =>
    intro front hblocks
    have hsplit : blocks = (front ++ [c]) ++ done := by simp [hblocks]
    have hnodup := N.ordered.nodup
    rw [hsplit] at hnodup
    have hfront : ∀ x ∈ front ++ [c], x ∉ done := fun x hx hdone =>
      (List.nodup_append.1 hnodup).2.2 x hx x hdone rfl
    refine (ih (front ++ [c]) hsplit).addBlock ?_ (hfront c (by simp)) fun h hpar => ?_
    · exact fun hself => N.registered.forest.chain_irrefl c (.single hself)
    · obtain ⟨hh, hlt⟩ := N.blockId_parent hpar
      have hmem : c ∈ front ++ [c] := by simp
      have hc := ((mem_prefix_iff hnodup).1 hmem).2
      refine hfront h ((mem_prefix_iff hnodup).2 ?_)
      grind

omit [DecidableEq β] in
/-- The effects of a block of a loop are among those of the loop. -/
theorem Swept.loop_effects {G : HGraph β} (N : Numbered G loops L blocks)
    (hS : Swept P L blocks S) (hb : b ∈ blocks) (hh : IsLoop G loops h)
    (hin : G.InLoop loops h b) : blockChanges P b ⊆ S.loop h := by
  have hhead : ∀ {x}, IsLoop G loops x → L.isLoopHeader x = true :=
    fun hx => (N.registered.headers _).2 hx
  have hcontribution : ∀ x ∈ blocks, blockChanges P x ⊆ contribution P L S x := by
    intro x hx
    rw [contribution]
    split
    · next hhead => exact hS.own x hx hhead
    · exact Finset.Subset.refl _
  have hup : ∀ {x}, x ∈ blocks → TransGen L.Parent x h → contribution P L S x ⊆ S.loop h := by
    intro x hx hchain
    induction hchain using TransGen.head_induction_on with
    | single hpar => exact hS.parent _ hx h hpar
    | @head x p hpar _ ih =>
      have hp := N.registered.isLoop_of_parent hpar
      have hpmem : p ∈ blocks :=
        (N.reachable p).2 (N.registered.built.reducible.entered hp .header)
      have hsub := ih hpmem
      rw [contribution, if_pos (hhead hp)] at hsub
      exact (hS.parent x hx p hpar).trans hsub
  rcases ReflTransGen.cases_head ((N.registered.forest.chain hh).2 hin) with rfl | ⟨p, hp, hrest⟩
  · exact hS.own b hb (hhead hh)
  · exact (hcontribution b hb).trans (hup hb (.head' hp hrest))

end W16.Hydrogen
