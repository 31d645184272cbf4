import Mathlib
import W16.UseLists

/-!
# Elimination of redundant phis

A phi with only itself and one other value as operands is replaced by this value. The uses are
replaced while the list of uses is iterated, and the phis among them are looked at again.
-/
namespace W16.PhiElimination

open UseLists Relation List Option Function

set_option linter.dupNamespace false

variable {β ν : Type} [DecidableEq β] [DecidableEq ν]

/-- `IsPhi()` and `is_live()`, which the phase does not change. -/
structure Kinds (ν : Type) where
  isPhi : ν → Bool
  isLive : ν → Bool

/-- The values, their blocks, and the phis of the blocks. -/
structure Phis (β ν : Type) where
  values : HValues ν
  block : ν → Option β
  phis : β → List ν

/-- `GetRedundantReplacement`, over the operands. -/
def getRedundantReplacement (this : ν) : List (Option ν) → Option ν
  | [] => none
  | current :: rest =>
    if current = some this then getRedundantReplacement this rest
    else
      match current with
      | none => getRedundantReplacement this rest
      | some candidate =>
        if rest.all fun current => current = some this || current = some candidate then
          some candidate
        else none

/-- The loop over the uses, with a bound on their number. The iterator has read the next node
before the operand is replaced. -/
def replaceUses (K : Kinds ν) (replacement : ν) :
    Nat → HValues ν → List ν → Option Nat → Option (HValues ν × List ν)
  | _, g, worklist, none => some (g, worklist)
  | 0, _, _, some _ => none
  | bound + 1, g, worklist, some current =>
    (g.nodes[current]?).bind fun node =>
      (g.setOperandAt node.value node.index (some replacement)).bind fun t =>
        replaceUses K replacement bound t
          (if K.isPhi node.value then node.value :: worklist else worklist) node.tail

namespace Phis

variable (K : Kinds ν) (s : Phis β ν)

/-- `RemovePhi`, with its assertions. -/
def removePhi (b : β) (phi : ν) : Option (Phis β ν) :=
  if s.block phi = some b ∧ phi ∈ s.phis b ∧
      (s.values.useList phi = none ∨ K.isLive phi = false) then
    (s.values.clearOperands phi).map fun values =>
      { values := values
        block := Function.update s.block phi none
        phis := Function.update s.phis b ((s.phis b).erase phi) }
  else none

end Phis

/-- The loop of `EliminateRedundantPhis`, with a bound on the number of iterations. The end of the
worklist is the head of the list. -/
def eliminate (K : Kinds ν) : Nat → Phis β ν → List ν → Option (Phis β ν)
  | _, s, [] => some s
  | 0, _, _ :: _ => none
  | fuel + 1, s, phi :: worklist =>
    match s.block phi with
    | none => eliminate K fuel s worklist
    | some b =>
      match getRedundantReplacement phi (s.values.operands phi) with
      | none => eliminate K fuel s worklist
      | some replacement =>
        (replaceUses K replacement s.values.nodes.length s.values worklist
          (s.values.useList phi)).bind fun (values, worklist) =>
            ({ s with values := values }.removePhi K b phi).bind fun t =>
              eliminate K fuel t worklist

def eliminateRedundantPhis (K : Kinds ν) (blocks : List β) (fuel : Nat) (s : Phis β ν) : Option (Phis β ν) :=
  eliminate K fuel s (blocks.flatMap s.phis).reverse

section Redundant

variable {this c : ν} {operands : List (Option ν)}

theorem redundant_some (h : getRedundantReplacement this operands = some c) : c ≠ this ∧ some c ∈ operands ∧
      ∀ x ∈ operands, x = some this ∨ x = some c ∨ x = none := by
  induction operands with
  | nil => exact nomatch h
  | cons current rest ih =>
    unfold getRedundantReplacement at h
    grind

/-- With one other value as operand there is a replacement. -/
theorem redundant_isSome (hc : some c ∈ operands) (hne : c ≠ this)
    (hall : ∀ x ∈ operands, x = some this ∨ x = some c) :
    getRedundantReplacement this operands = some c := by
  induction operands with
  | nil => exact absurd hc not_mem_nil
  | cons current rest ih =>
    unfold getRedundantReplacement
    have hrest : ∀ x ∈ rest, x = some this ∨ x = some c :=
      fun x hx => hall x (mem_cons_of_mem _ hx)
    rcases hall current mem_cons_self with rfl | rfl
    · rw [if_pos rfl]
      refine ih ?_ hrest
      grind
    grind

end Redundant

/-- An operand after the phi has been replaced. -/
def redirect (phi replacement : ν) (operand : Option ν) : Option ν :=
  if operand = some phi then some replacement else operand

variable {K : Kinds ν}

/-- Every use of the phi is replaced, though its list changes under the iterator. -/
theorem replaceUses_spec {phi replacement : ν} (hne : replacement ≠ phi)
    (chain : List (Nat × ν × Nat)) {g : HValues ν} {uses : Uses ν} (worklist : List ν) {bound : Nat}
    (h : Consistent g uses) (hchain : uses phi = chain) (hbound : chain.length ≤ bound) :
    ∃ t uses', replaceUses K replacement bound g worklist (g.useList phi) =
        some (t, ((chain.map fun p => p.2.1).filter K.isPhi).reverse ++ worklist) ∧
      Consistent t uses' ∧ uses' phi = [] ∧
      ∀ u k, (t.operands u)[k]? =
        if (u, k) ∈ chain.map Prod.snd then some (some replacement) else (g.operands u)[k]? := by
  induction chain generalizing g uses worklist bound with
  | nil =>
    have hnil := h.linked phi
    rw [hchain] at hnil
    refine ⟨g, uses, ?_, h, hchain, fun u k => (if_neg not_mem_nil).symm⟩
    rw [IndexedLists.linked_nil.1 hnil]
    cases bound <;> rfl
  | cons p chain ih =>
    obtain ⟨n, u, k⟩ := p
    rw [length_cons] at hbound
    obtain ⟨bound, rfl⟩ := Nat.exists_eq_add_of_lt (lt_of_lt_of_le (Nat.succ_pos _) hbound)
    have hlink := h.linked phi
    have honce := h.once phi
    rw [hchain] at hlink honce
    obtain ⟨hstart, node, hnode, hrest⟩ := hlink
    obtain ⟨node', hnode', hvalue, hindex⟩ := h.node phi (n, u, k) (hchain ▸ mem_cons_self)
    have hsame : node' = node := some.inj (hnode'.symm.trans hnode)
    rw [hsame] at hvalue hindex
    have hold : (g.operands u)[k]? = some (some phi) := by
      rw [← h.use_iff, hchain]
      exact mem_cons_self
    obtain ⟨t, uses', ht, hcons, hops, hoth⟩ := h.setOperandAt hold (some replacement)
    have hnot := (nodup_cons.1 honce).1
    have hchain' : uses' phi = chain := by
      rw [hoth phi fun heq => hne (some.inj heq), hchain, filter_cons,
        if_neg (by simp), filter_of_not_mem hnot]
    have hnext : node.tail = t.useList phi := by
      have hlist := (hcons.linked phi).start_eq
      rw [hchain'] at hlist
      rw [hlist]
      exact hrest.start_eq
    have hshorter : chain.length ≤ bound := by omega
    obtain ⟨t', uses'', ht', hcons', hnil, hrepl⟩ :=
      ih (if K.isPhi u then u :: worklist else worklist) hcons hchain' hshorter
    refine ⟨t', uses'', ?_, hcons', hnil, ?_⟩
    · rw [hstart, zero_add]
      simp only [replaceUses, hnode, bind_some, hvalue, hindex, ht]
      grind
    · intro u' k'
      have hstep := getElem?_update_operands hold (some replacement) u' k'
      rw [← hops] at hstep
      grind

/-- What holds of the graph between two iterations. -/
structure Inv (K : Kinds ν) (blocks : List β) (s : Phis β ν) : Prop where
  uses : ∃ uses, Consistent s.values uses
  mem_phis : ∀ v b, v ∈ s.phis b ↔ K.isPhi v = true ∧ s.block v = some b
  nodup : ∀ b, (s.phis b).Nodup
  mem_blocks : ∀ b v, v ∈ s.phis b → b ∈ blocks
  attached : ∀ (u : ν) (k : Nat) (v : ν), (s.values.operands u)[k]? = some (some v) →
    K.isPhi v = true → s.block v ≠ none
  removed : ∀ u, K.isPhi u = true → s.block u = none → ∀ (k : Nat) (v : ν),
    (s.values.operands u)[k]? ≠ some (some v)
  complete : ∀ u, K.isPhi u = true → s.block u ≠ none → none ∉ s.values.operands u

/-- A phi that is still to be replaced is on the worklist. -/
def Pending (K : Kinds ν) (s : Phis β ν) (worklist : List ν) : Prop :=
  ∀ v, K.isPhi v = true → s.block v ≠ none →
    getRedundantReplacement v (s.values.operands v) ≠ none → v ∈ worklist

/-- One redundant phi has been replaced. -/
structure Replaced (K : Kinds ν) (s t : Phis β ν) (phi replacement : ν) (b : β) : Prop where
  isPhi : K.isPhi phi = true
  block : s.block phi = some b
  redundant : getRedundantReplacement phi (s.values.operands phi) = some replacement
  operands : ∀ u, u ≠ phi → t.values.operands u = (s.values.operands u).map (redirect phi replacement)
  cleared : ∃ operands : List (Option ν), t.values.operands phi = operands.map fun _ => none
  blocks : t.block = Function.update s.block phi none
  phis : t.phis = Function.update s.phis b ((s.phis b).erase phi)

section Step

variable {s t : Phis β ν} {blocks : List β} {phi replacement u v : ν} {b : β} {k : Nat}

theorem Replaced.not_cleared (h : Replaced K s t phi replacement b) (k : Nat) (v : ν) :
    (t.values.operands phi)[k]? ≠ some (some v) := by
  obtain ⟨operands, heq⟩ := h.cleared
  rw [heq, getElem?_map]
  cases operands[k]? <;> exact nofun

/-- An operand after the replacement. -/
theorem Replaced.operand (h : Replaced K s t phi replacement b)
    (hv : (t.values.operands u)[k]? = some (some v)) :
    u ≠ phi ∧ ((s.values.operands u)[k]? = some (some phi) ∧ v = replacement ∨
      (s.values.operands u)[k]? = some (some v) ∧ v ≠ phi) := by
  have hu : u ≠ phi := by
    rintro rfl
    exact h.not_cleared k v hv
  refine ⟨hu, ?_⟩
  rw [h.operands u hu, getElem?_map, map_eq_some_iff] at hv
  obtain ⟨x, hx, hredirect⟩ := hv
  by_cases hphi : x = some phi
  · rw [redirect, if_pos hphi] at hredirect
    grind
  · rw [redirect, if_neg hphi] at hredirect
    grind

theorem Replaced.block_of_ne (h : Replaced K s t phi replacement b) (hv : v ≠ phi) : t.block v = s.block v := by
  rw [h.blocks, update_of_ne hv]

theorem Replaced.block_self (h : Replaced K s t phi replacement b) : t.block phi = none := by
  rw [h.blocks, update_self]

/-- The phi is taken out of its block. -/
theorem Replaced.mem_phis (h : Replaced K s t phi replacement b) (hinv : Inv K blocks s) (c : β) :
    v ∈ t.phis c ↔ v ∈ s.phis c ∧ v ≠ phi := by
  rw [h.phis]
  by_cases hc : c = b
  · subst hc
    rw [update_self, (hinv.nodup c).mem_erase_iff, and_comm]
  · rw [update_of_ne hc]
    refine (and_iff_left_of_imp fun hv heq => hc ?_).symm
    have hblock := ((hinv.mem_phis v c).1 hv).2
    rw [heq, h.block] at hblock
    exact (some.inj hblock).symm

theorem Replaced.inv (h : Replaced K s t phi replacement b) (hinv : Inv K blocks s)
    (huses : ∃ uses, Consistent t.values uses) : Inv K blocks t where
  uses := huses
  mem_phis v b' := by
    rw [h.mem_phis hinv, hinv.mem_phis]
    by_cases hv : v = phi
    · subst hv
      rw [h.block_self]
      simp
    · rw [h.block_of_ne hv]
      simp [hv]
  nodup b' := by
    rw [h.phis]
    by_cases hb : b' = b
    · subst hb
      rw [update_self]
      exact (hinv.nodup b').erase phi
    · rw [update_of_ne hb]
      exact hinv.nodup b'
  mem_blocks b' v hv := hinv.mem_blocks b' v ((h.mem_phis hinv b').1 hv).1
  attached u k v hv hphi := by
    obtain ⟨-, ⟨-, rfl⟩ | ⟨hold, hne⟩⟩ := h.operand hv
    · obtain ⟨hne, hmem, -⟩ := redundant_some h.redundant
      obtain ⟨j, hj⟩ := getElem?_of_mem hmem
      rw [h.block_of_ne hne]
      exact hinv.attached phi j v hj hphi
    · rw [h.block_of_ne hne]
      exact hinv.attached u k v hold hphi
  removed u hu hblock k v hv := by
    obtain ⟨hne, hold⟩ := h.operand hv
    rw [h.block_of_ne hne] at hblock
    rcases hold with ⟨hold, -⟩ | ⟨hold, -⟩
    · exact hinv.removed u hu hblock k phi hold
    · exact hinv.removed u hu hblock k v hold
  complete u hu hblock hmem := by
    have hne : u ≠ phi := by
      rintro rfl
      exact hblock h.block_self
    rw [h.block_of_ne hne] at hblock
    rw [h.operands u hne, List.mem_map] at hmem
    obtain ⟨x, hx, hredirect⟩ := hmem
    rw [redirect] at hredirect
    split at hredirect
    · cases hredirect
    · exact hinv.complete u hu hblock (hredirect ▸ hx)

/-- One iteration that replaces a phi. Only the phis among its uses have to be looked at again. -/
theorem Inv.replace (hinv : Inv K blocks s) (hphi : K.isPhi phi = true)
    (hblock : s.block phi = some b)
    (hred : getRedundantReplacement phi (s.values.operands phi) = some replacement)
    (worklist : List ν) :
    ∃ values added t,
      replaceUses K replacement s.values.nodes.length s.values worklist (s.values.useList phi) =
        some (values, added ++ worklist) ∧
      ({ s with values := values }).removePhi K b phi = some t ∧
      Replaced K s t phi replacement b ∧ Inv K blocks t ∧ (∀ u ∈ added, K.isPhi u = true) ∧
      ∀ u, K.isPhi u = true → some phi ∈ s.values.operands u → u ∈ added := by
  obtain ⟨uses, hcons⟩ := hinv.uses
  have hne := (redundant_some hred).1
  have hbound := (hcons.linked phi).length_le (hcons.nodup phi)
  rw [length_map] at hbound
  obtain ⟨values, uses', hvals, hcons', hnil, hrepl⟩ :=
    replaceUses_spec (K := K) hne (uses phi) worklist hcons rfl hbound
  have hops : ∀ u, values.operands u =
      (s.values.operands u).map (redirect phi replacement) := by
    intro u
    apply ext_getElem?
    intro k
    have huse := hcons.use_iff phi u k
    rw [hrepl u k, getElem?_map]
    by_cases hk : (s.values.operands u)[k]? = some (some phi)
    · rw [if_pos (huse.2 hk), hk, map_some, redirect, if_pos rfl]
    · rw [if_neg fun hmem => hk (huse.1 hmem)]
      cases hold : (s.values.operands u)[k]? with
      | none => rfl
      | some x =>
        rw [hold, Option.some.injEq] at hk
        rw [map_some, redirect, if_neg hk]
  obtain ⟨cleared, uses'', hcleared, hcons'', hoth, hself⟩ := hcons'.clearOperands phi
  have hunused : values.useList phi = none := by
    have hlink := hcons'.linked phi
    rwa [hnil] at hlink
  have hremove : ({ s with values := values }).removePhi K b phi = some
      { values := cleared
        block := Function.update s.block phi none
        phis := Function.update s.phis b ((s.phis b).erase phi) } := by
    rw [Phis.removePhi, if_pos ⟨hblock, (hinv.mem_phis phi b).2 ⟨hphi, hblock⟩, .inl hunused⟩]
    rw [hcleared]
    rfl
  have hstep : Replaced K s
      { values := cleared
        block := Function.update s.block phi none
        phis := Function.update s.phis b ((s.phis b).erase phi) } phi replacement b := by
    refine ⟨hphi, hblock, hred, ?_, ⟨_, hself⟩, rfl, rfl⟩
    intro u hu
    rw [hoth u hu, hops u]
  refine ⟨values, _, _, hvals, hremove, hstep, hstep.inv hinv ⟨uses'', hcons''⟩, ?_, ?_⟩
  · simp
  · intro u hu hmem
    obtain ⟨k, hk⟩ := getElem?_of_mem hmem
    obtain ⟨p, hp, heq⟩ := mem_map.1 ((hcons.use_iff phi u k).2 hk)
    grind

/-- A phi whose operands have not been changed is as redundant as before. -/
theorem Replaced.pending (h : Replaced K s t phi replacement b) {worklist added : List ν}
    (hpend : Pending K s (phi :: worklist))
    (hadded : ∀ u, K.isPhi u = true → some phi ∈ s.values.operands u → u ∈ added) :
    Pending K t (added ++ worklist) := by
  intro v hv hblock hred
  have hne : v ≠ phi := by
    rintro rfl
    exact hblock h.block_self
  rw [h.block_of_ne hne] at hblock
  rw [mem_append]
  by_cases hmem : some phi ∈ s.values.operands v
  · exact .inl (hadded v hv hmem)
  · have hsame : t.values.operands v = s.values.operands v := by
      rw [h.operands v hne]
      conv_rhs => rw [← map_id (s.values.operands v)]
      apply map_congr_left
      intro x hx
      rw [redirect, if_neg]
      · rfl
      · rintro rfl
        exact hmem hx
    rw [hsame] at hred
    rcases mem_cons.1 (hpend v hv hblock hred) with heq | hmem
    · exact absurd heq hne
    · exact .inr hmem

end Step

section Loop

variable {s t : Phis β ν} {blocks : List β} {phi replacement : ν} {b : β} {worklist : List ν}

/-- The number of phis that are left. -/
def phisCount (blocks : List β) (s : Phis β ν) : Nat :=
  (blocks.map fun b => (s.phis b).length).sum

theorem Replaced.phisCount_lt (h : Replaced K s t phi replacement b) (hinv : Inv K blocks s) :
    phisCount blocks t < phisCount blocks s := by
  have hmem : phi ∈ s.phis b := (hinv.mem_phis phi b).2 ⟨h.isPhi, h.block⟩
  have hlt : (t.phis b).length < (s.phis b).length := by
    rw [h.phis, update_self, length_erase_of_mem hmem]
    grind
  apply sum_lt_sum
  · intro b' _
    by_cases hb : b' = b
    · rw [hb]
      exact hlt.le
    · rw [h.phis, update_of_ne hb]
  · exact ⟨b, hinv.mem_blocks b phi hmem, hlt⟩

/-- Steps that replace one phi. -/
def Eliminated (K : Kinds ν) (blocks : List β) : Phis β ν → Phis β ν → Prop :=
  ReflTransGen fun s t => Inv K blocks s ∧ ∃ phi replacement b, Replaced K s t phi replacement b

/-- A phi stays in its block or has none. -/
theorem Eliminated.block (h : Eliminated K blocks s t) (hmem : phi ∈ s.phis b) :
    phi ∈ t.phis b ∨ t.block phi = none := by
  induction h with
  | refl => exact .inl hmem
  | tail _ hstep ih =>
    obtain ⟨hinv, phi', replacement, b', hstep⟩ := hstep
    by_cases hphi : phi = phi'
    · subst hphi
      exact .inr hstep.block_self
    · rw [hstep.mem_phis hinv, hstep.block_of_ne hphi]
      exact ih.imp_left fun hmem => ⟨hmem, hphi⟩

omit [DecidableEq β] [DecidableEq ν] in
/-- A phi that was removed has no uses. -/
theorem Inv.unused (h : Inv K blocks s) (hphi : K.isPhi phi = true) (hblock : s.block phi = none) :
    s.values.useList phi = none := by
  obtain ⟨uses, hcons⟩ := h.uses
  have hnil : (uses phi).map Prod.fst = [] := by
    rw [map_eq_nil_iff, eq_nil_iff_forall_not_mem]
    rintro ⟨n, u, k⟩ hp
    have huse := (hcons.use_iff phi u k).1 (mem_map_of_mem hp)
    exact h.attached u k phi huse hphi hblock
  have hlink := hcons.linked phi
  rwa [hnil, IndexedLists.linked_nil] at hlink

/-- The loop ends: each iteration takes a phi from the worklist, and the list only grows when a
phi is removed from its block. -/
theorem eliminate_spec (hinv : Inv K blocks s) (hpend : Pending K s worklist)
    (hphis : ∀ v ∈ worklist, K.isPhi v = true) :
    ∃ n t, (∀ fuel ≥ n, eliminate K fuel s worklist = some t) ∧ Inv K blocks t ∧
      Pending K t [] ∧ Eliminated K blocks s t := by
  induction hcount : phisCount blocks s using Nat.strong_induction_on generalizing s worklist with
  | _ count ih =>
  induction worklist with
  | nil =>
    refine ⟨0, s, ?_, hinv, hpend, .refl⟩
    intro fuel _
    cases fuel <;> rfl
  | cons phi worklist ihworklist =>
    have hphi : K.isPhi phi = true := hphis phi mem_cons_self
    have hrest : ∀ v ∈ worklist, K.isPhi v = true :=
      fun v hv => hphis v (mem_cons_of_mem phi hv)
    cases hblock : s.block phi with
    | none =>
      have hpend' : Pending K s worklist := by
        intro v hv hvblock hred
        refine (mem_cons.1 (hpend v hv hvblock hred)).resolve_left ?_
        rintro rfl
        exact hvblock hblock
      obtain ⟨n, t, ht, hspec⟩ := ihworklist hpend' hrest
      refine ⟨n + 1, t, ?_, hspec⟩
      intro fuel hfuel
      obtain ⟨fuel, rfl⟩ := Nat.exists_eq_add_of_le' hfuel
      rw [← add_assoc, eliminate, hblock]
      exact ht _ (Nat.le_add_left n fuel)
    | some b =>
      cases hred : getRedundantReplacement phi (s.values.operands phi) with
      | none =>
        have hpend' : Pending K s worklist := by
          intro v hv hvblock hvredundant
          refine (mem_cons.1 (hpend v hv hvblock hvredundant)).resolve_left ?_
          rintro rfl
          exact hvredundant hred
        obtain ⟨n, t, ht, hspec⟩ := ihworklist hpend' hrest
        refine ⟨n + 1, t, ?_, hspec⟩
        intro fuel hfuel
        obtain ⟨fuel, rfl⟩ := Nat.exists_eq_add_of_le' hfuel
        simp only [eliminate, hblock, hred]
        exact ht _ (Nat.le_add_left n fuel)
      | some replacement =>
        obtain ⟨values, added, t, hvals, hremove, hstep, hinv', hadded, hall⟩ :=
          hinv.replace hphi hblock hred worklist
        have hlt := hstep.phisCount_lt hinv
        rw [hcount] at hlt
        have hphis' : ∀ v ∈ added ++ worklist, K.isPhi v = true := by
          grind -linarith
        obtain ⟨n, t', ht', hinv'', hpend'', hsteps⟩ :=
          ih _ hlt hinv' (hstep.pending hpend hall) hphis' rfl
        refine ⟨n + 1, t', ?_, hinv'', hpend'', .head ⟨hinv, _, _, _, hstep⟩ hsteps⟩
        intro fuel hfuel
        obtain ⟨fuel, rfl⟩ := Nat.exists_eq_add_of_le' hfuel
        simp only [eliminate, hblock, hred, hvals, bind_some, hremove]
        exact ht' _ (Nat.le_add_left n fuel)

end Loop

end W16.PhiElimination
