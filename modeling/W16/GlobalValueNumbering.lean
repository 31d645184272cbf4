import W16.CodeMotionRuns
import W16.ValueNumberingRuns

/-!
# Code motion and value numbering together

`HGlobalValueNumberer::Analyze` computes the side effects of the blocks, moves the
invariant instructions out of the loops and numbers the values of the graph that is
left. The side effects are not computed again.
-/
namespace W16.Hydrogen

open Relation Dominance

set_option linter.dupNamespace false

variable {β ν ω τ κ : Type} [DecidableEq β] [DecidableEq ν] {P Q : HProgram β ν ω} {L : Loops β}
  {loops blocks : List β} {S : SideEffects β} {T : DomTree β} {b d : β} {x : ν} {k : Nat}
  {front rest : List (HInstruction ν ω)}

omit [DecidableEq β] [DecidableEq ν] in
theorem InScope.add (h : InScope P x (b, k)) (n : Nat) : InScope P x (b, k + n) := by
  induction n with
  | zero => exact h
  | succ n ih => exact ih.next

omit [DecidableEq β] [DecidableEq ν] in
/-- A value that is defined in the block itself. -/
theorem inScope_of_local (hentry : P.phis P.start = []) (hsplit : P.instructions b = front ++ rest)
    (hx : x ∈ (P.phis b).map HPhi.id ∨ x ∈ front.map HInstruction.id) : InScope P x (b, front.length) := by
  rcases hx with hx | hx
  · obtain ⟨φ, hφ, rfl⟩ := List.mem_map.1 hx
    have hstart : InScope P φ.id (b, 0) := by
      refine .of_preds (fun heq => ?_) fun p hflow => .inl ?_
      · obtain rfl : b = P.start := congrArg Prod.fst heq
        simp [hentry] at hφ
      · obtain ⟨c, rfl, -⟩ := hflow.pred_start
        exact defines_of_exit.2 ⟨φ, hφ, rfl⟩
    simpa using hstart.add front.length
  · obtain ⟨i, hi, rfl⟩ := List.mem_map.1 hx
    obtain ⟨k, hk, hik⟩ := List.getElem_of_mem hi
    have hat : P.at (b, k) = some i := by
      rw [HProgram.at, hsplit, List.getElem?_append_left hk, List.getElem?_eq_getElem hk, hik]
    obtain ⟨n, hn⟩ := Nat.exists_eq_add_of_lt hk
    have := (available_of_at hat).inScope.add n
    rwa [hn, Nat.add_right_comm]

omit [DecidableEq β] [DecidableEq ν] in
/-- Along a path that does not define `x`, no block was left that has it in scope at
its end. -/
theorem not_dominated (hd : InScope P x (P.exit d)) {q : β × Nat}
    (hpath : ReflTransGen (Avoiding (Flow P) (Defines P x)) P.entry q) :
    ReflTransGen (Avoiding P.Edge fun p _ => p = d) P.start q.1 := by
  induction hpath with
  | refl => exact .refl
  | tail hpath hstep ih =>
    obtain ⟨hflow, -⟩ := hstep
    cases hflow with
    | next _ => exact ih
    | edge hs =>
      refine ih.tail ⟨hs, ?_⟩
      rintro rfl
      exact hd hpath

omit [DecidableEq β] [DecidableEq ν] in
/-- What is usable is in scope. -/
theorem Usable.inScope (hentry : P.phis P.start = []) (hsplit : P.instructions b = front ++ rest)
    (hx : Usable P x b front) : InScope P x (b, front.length) := by
  rcases hx with hx | hx | ⟨d, hdom, hx⟩
  · exact inScope_of_local hentry hsplit (.inl hx)
  · exact inScope_of_local hentry hsplit (.inr hx)
  · have hexit : InScope P x (P.exit d) :=
      inScope_of_local hentry (List.append_nil _).symm (List.mem_append.1 hx)
    exact fun hpath => hdom.2 (not_dominated hexit hpath)

omit [DecidableEq β] [DecidableEq ν] in
/-- A verified graph is in static single assignment form. -/
theorem Verified.wellFormed (hP : Verified P) (hentry : P.phis P.start = []) : WellFormed P where
  unique := by
    intro p q i j hi hj hid
    have hblock := hP.unique (id_mem_defined (mem_of_at hi)) (hid ▸ id_mem_defined (mem_of_at hj))
    have hnodup := (List.nodup_append.1 (hP.nodup p.1)).2.1
    rw [HProgram.at, ← hblock] at hj
    refine Prod.ext hblock ((List.getElem?_inj (by simpa using lt_length_of_at hi) hnodup).1 ?_)
    rw [HProgram.at] at hi
    simp [hi, hj, hid]
  phiUnique := by
    intro b c φ ψ hφ hψ hid
    have hb := List.mem_map_of_mem (f := HPhi.id) hφ
    have hc := List.mem_map_of_mem (f := HPhi.id) hψ
    rw [← hid] at hc
    obtain rfl := hP.unique (List.mem_append_left _ hb) (List.mem_append_left _ hc)
    exact ⟨rfl, List.inj_on_of_nodup_map (List.nodup_append.1 (hP.nodup b)).1 hφ hψ hid⟩
  phiNotInstruction := by
    intro b p φ i hφ hi hid
    have hb := List.mem_map_of_mem (f := HPhi.id) hφ
    have hp := mem_of_at hi
    have hblock := hP.unique (List.mem_append_left _ hb) (hid ▸ id_mem_defined hp)
    rw [← hblock] at hp
    exact (List.nodup_append.1 (hP.nodup b)).2.2 _ hb _ (List.mem_map_of_mem hp) hid
  operands := by
    intro p i hi x hx
    obtain ⟨hp, rfl⟩ := List.getElem?_eq_some_iff.1 hi
    have hsplit := (List.take_append_drop p.2 (P.instructions p.1)).symm
    rw [List.drop_eq_getElem_cons hp] at hsplit
    have huse := (hP.operands hsplit x hx).inScope hentry hsplit
    rwa [List.length_take_of_le hp.le] at huse
  phiOperands := by
    intro s φ hφ n p hp
    obtain ⟨x, hx, huse⟩ := hP.phiOperands hφ n p hp
    exact ⟨x, hx, huse.inScope hentry (List.append_nil _).symm⟩
  pure hi := hP.pure (mem_of_at hi)
  control := by
    intro b i hlast
    obtain ⟨front, j, hsplit⟩ := hP.finished b
    rw [hsplit, List.getLast?_concat] at hlast
    cases hlast
    exact (hP.control hsplit).1

end W16.Hydrogen
