import Mathlib.Logic.Function.Basic
import Mathlib.Data.List.Basic
import Mathlib.Data.List.Perm.Subperm
import Mathlib.Data.List.Chain

/-!
# The depth-first gap resolver

`LGapResolver::PerformMove` of the three ports: a move is performed after the moves that
read its destination. The ports differ in what they emit and in how they resolve a cycle,
so what is done after the blocking moves is a parameter here.
-/
namespace W16

open List Option

/-- `LMoveOperands`: a pending move has lost its destination, an eliminated one both operands. -/
structure MoveOperands (Op : Type) where
  source : Option Op
  destination : Option Op
  deriving DecidableEq, Repr

namespace MoveOperands

variable {Op : Type} [DecidableEq Op]

def isEliminated {Op : Type} (m : MoveOperands Op) : Bool := m.source.isNone

def isPending {Op : Type} (m : MoveOperands Op) : Bool := m.destination.isNone && m.source.isSome

/-- `Blocks`: an unperformed move from the operand. -/
def blocks (m : MoveOperands Op) (operand : Option Op) : Bool := m.source.isSome && m.source = operand

def eliminated {Op : Type} : MoveOperands Op := ⟨none, none⟩

theorem blocks_iff (m : MoveOperands Op) (x : Op) : m.blocks (some x) = true ↔ m.source = some x := by
  cases h : m.source <;> simp [blocks, h]

end MoveOperands

namespace GapResolver

open MoveOperands Function

variable {S Op : Type}

/-- What a port provides: the list of moves in its state, the pending mark, and what it does with
a move whose blocking moves are performed. -/
structure Port (S Op : Type) where
  moves : S → Nat → MoveOperands Op
  setDestination : S → Nat → Option Op → S
  finish : S → Nat → S

/-- `PerformMove` on a list of `count` moves. The fuel bounds the depth of the recursion. -/
def performMove [DecidableEq Op] (B : Port S Op) (count : Nat) : Nat → S → Nat → Option S
  | 0, _, _ => none
  | fuel + 1, s, index => do
    let destination := (B.moves s index).destination
    let s := B.setDestination s index none
    let s ← (List.range count).foldlM (fun s i =>
      if (B.moves s i).blocks destination && !(B.moves s i).isPending
      then performMove B count fuel s i else some s) s
    some (B.finish (B.setDestination s index destination) index)

/-- The first loop of `Resolve`: eliminated moves and moves from constants are skipped. -/
def performMoves (B : Port S Op) (isConstant : Op → Bool) (perform : S → Nat → Option S) (count : Nat)
    (s : S) : Option S :=
  (List.range count).foldlM (fun s i =>
    match (B.moves s i).source with
    | some source => if isConstant source then some s else perform s i
    | none => some s) s

/-- The second loop performs what is left. -/
def emitConstants (B : Port S Op) (emitMove : S → Nat → S) (count : Nat) (s : S) : S :=
  (List.range count).foldl (fun s i =>
    if (B.moves s i).isEliminated then s else emitMove s i) s

/-- The end of `PerformMove` where cycles are resolved by swaps: a move that swaps have completed is
removed, one that a pending move still blocks swaps its operands. -/
def finishBySwap [DecidableEq Op] (moves : S → Nat → MoveOperands Op) (removeMove emitSwap emitMove : S → Nat → S)
    (count : Nat) (s : S) (index : Nat) : S :=
  let destination := (moves s index).destination
  if (moves s index).source = destination then removeMove s index
  else if (List.range count).any fun i => (moves s i).blocks destination then emitSwap s index
  else emitMove s index

/-! ## Cycles of the moves -/

section Cycles

variable (s₀ d : Nat → Op)

/-- Each move reads the destination of the next one, and the last that of the first. -/
def IsCycle (moves : List Nat) : Prop :=
  moves.IsChain (fun c p => s₀ c = d p) ∧
    ∃ head last, moves.head? = some head ∧ moves.getLast? = some last ∧ s₀ last = d head

/-- A move of a cycle other than the one that comes first in the list of moves. -/
def LaterInCycle (count i : Nat) : Prop :=
  ∃ moves root, IsCycle s₀ d moves ∧ moves.getLast? = some root ∧ i ∈ moves ∧ i ≠ root ∧
    moves.Nodup ∧ ∀ j ∈ moves, j < count ∧ root ≤ j

end Cycles

/-! ## The invariant of the traversal -/

section Traversal

variable {count : Nat} {s₀ d : Nat → Op} {mv mv' : Nat → MoveOperands Op} {stack : List Nat}

/-- The current source of a move. -/
def src (mv : Nat → MoveOperands Op) (i : Nat) : Option Op := (mv i).source

/-- Where the source of the root of the traversal stands: it is the original one, or a place that
an earlier swap moved it to, or swaps have moved it along its own cycle. -/
inductive RootSource (count : Nat) (s₀ d : Nat → Op) (mv : Nat → MoveOperands Op) (stack : List Nat)
    (root : Nat) : Prop
  | original : src mv root = some (s₀ root) → RootSource count s₀ d mv stack root
  | displaced (q : Nat) : q < count → src mv q = none → src mv root = some (d q) →
      RootSource count s₀ d mv stack root
  | cycle (above rest swapped : List Nat) (head : Nat) : stack = above ++ rest →
      rest.head? = some head → src mv root = some (d head) → IsCycle s₀ d (swapped ++ rest) →
      (swapped ++ rest).Nodup → (∀ j ∈ swapped, j < count ∧ root ≤ j) →
      RootSource count s₀ d mv stack root

/-- Nothing is left to do for a move but to load its constant. -/
def Settled (count : Nat) (d : Nat → Op) (mv : Nat → MoveOperands Op) (j : Nat) : Prop :=
  ∀ k < count, src mv j ≠ some (d k)

/-- The pending moves form a stack in which each was called because it reads the destination of
the one below it. -/
structure Graph (count : Nat) (s₀ d : Nat → Op) (mv : Nat → MoveOperands Op) (stack : List Nat) : Prop where
  dest : ∀ i < count, (mv i).destination = if src mv i = none ∨ i ∈ stack then none else some (d i)
  nodup : stack.Nodup
  lt : ∀ i ∈ stack, i < count
  live : ∀ i ∈ stack, src mv i ≠ none
  chain : stack.IsChain fun c p => src mv c = some (d p) ∧ s₀ c = d p
  orig : ∀ i < count, i ∉ stack → ∀ a, src mv i = some a → a = s₀ i ∨ ∃ q < count, src mv q = none ∧ a = d q
  root : ∀ r, stack.getLast? = some r → (∀ j ∈ stack, r ≤ j) ∧ RootSource count s₀ d mv stack r
  below : ∀ r, stack.getLast? = some r → ∀ j < r, Settled count d mv j

/-- What a call may do to the moves that are not on the stack. -/
structure Progress (count : Nat) (d : Nat → Op) (stack : List Nat) (mv mv' : Nat → MoveOperands Op) : Prop where
  gone : ∀ j, src mv j = none → src mv' j = none
  settled : ∀ j, Settled count d mv j → src mv' j = src mv j ∨ src mv' j = none
  blockers : ∀ p ∈ stack, ∀ j < count, j ∉ stack → src mv' j = some (d p) → src mv j = some (d p)

theorem Progress.of_src_eq (h : src mv' = src mv) : Progress count d stack mv mv' :=
  ⟨fun j hj => by rw [h]; exact hj, fun j _ => .inl (by rw [h]),
    fun p hp j hj hn hb => by rw [h] at hb; exact hb⟩

theorem Settled.congr {j : Nat} (h : Settled count d mv j) (h' : src mv' j = src mv j ∨ src mv' j = none) :
    Settled count d mv' j := by
  intro k hk
  rcases h' with h' | h'
  · rw [h']
    exact h k hk
  · rw [h']
    simp

variable {u : Nat → MoveOperands Op}

/-- A settled move stays as it is or is performed, over two stretches of the run. -/
theorem Settled.trans {j : Nat} (h : Settled count d mv j)
    (h₁ : Settled count d mv j → src mv' j = src mv j ∨ src mv' j = none)
    (h₂ : Settled count d mv' j → src u j = src mv' j ∨ src u j = none)
    (hgone : src mv' j = none → src u j = none) : src u j = src mv j ∨ src u j = none := by
  rcases h₁ h with h' | h'
  · rcases h₂ (h.congr (.inl h')) with h'' | h''
    · exact .inl (h''.trans h')
    · exact .inr h''
  · exact .inr (hgone h')

theorem Progress.trans (h : Progress count d stack mv mv')
    (h' : Progress count d stack mv' u) : Progress count d stack mv u :=
  ⟨fun j hj => h'.gone j (h.gone j hj), fun j hj => hj.trans (h.settled j) (h'.settled j) (h'.gone j),
    fun p hp j hj hn hb => h.blockers p hp j hj hn (h'.blockers p hp j hj hn hb)⟩

/-- A call and all that its blocking moves did, as its caller sees them. -/
theorem Progress.trans_pop {i : Nat} (h : Progress count d (i :: stack) mv mv')
    (h' : Progress count d stack mv' u) (hi : src u i = none) : Progress count d stack mv u := by
  refine ⟨fun j hj => h'.gone j (h.gone j hj),
    fun j hj => hj.trans (h.settled j) (h'.settled j) (h'.gone j), fun p hp j hj hn hb => ?_⟩
  have hji : j ≠ i := by
    rintro rfl
    rw [hi] at hb
    cases hb
  exact h.blockers p (mem_cons_of_mem _ hp) j hj (by simp [hji, hn]) (h'.blockers p hp j hj hn hb)

theorem Graph.init (h : ∀ i < count, mv i = ⟨some (s₀ i), some (d i)⟩) : Graph count s₀ d mv [] := by
  have hsrc : ∀ i < count, src mv i = some (s₀ i) := by
    intro i hi
    rw [src, h i hi]
  refine ⟨fun i hi => ?_, nodup_nil, by simp, by simp, isChain_nil, fun i hi _ a ha => ?_,
    fun r hr => (by cases hr), fun r hr => (by cases hr)⟩
  · rw [hsrc i hi, h i hi]
    simp
  grind

theorem Graph.isPending_iff (h : Graph count s₀ d mv stack) {i : Nat} (hi : i < count) :
    (mv i).isPending = true ↔ i ∈ stack := by
  have hd := h.dest i hi
  unfold isPending
  constructor
  · intro hp
    simp only [Bool.and_eq_true, isNone_iff_eq_none] at hp
    grind [src]
  · intro hin
    have hne := h.live i hin
    simp only [hin, or_true, if_true] at hd
    rw [hd]
    cases hs : (mv i).source with
    | none => exact absurd hs hne
    | some a => rfl

theorem src_setDestination (mv : Nat → MoveOperands Op) (i : Nat) (o : Option Op) :
    src (update mv i ⟨(mv i).source, o⟩) = src mv := by
  grind [src]

theorem src_eliminated (mv : Nat → MoveOperands Op) (i j : Nat) :
    src (update mv i eliminated) j = if j = i then none else src mv j := by
  by_cases hj : j = i <;> simp [src, hj, eliminated]

theorem src_update_eliminated (mv : Nat → MoveOperands Op) (i : Nat) :
    src (update mv i eliminated) = update (src mv) i none := by
  funext j
  rw [src_eliminated, update_apply]

theorem RootSource.push {r : Nat} (hs : src mv' = src mv) (h : RootSource count s₀ d mv stack r) (i : Nat) :
    RootSource count s₀ d mv' (i :: stack) r := by
  cases h with
  | original h => exact .original (by rw [hs, h])
  | displaced q hq hn h => exact .displaced q hq (by rw [hs, hn]) (by rw [hs, h])
  | cycle above rest swapped head he hh h hc hnd hlt =>
    exact .cycle (i :: above) rest swapped head (by rw [he]; rfl) hh (by rw [hs, h]) hc hnd hlt

/-- A move is called at the top, or because it reads the destination of the last pending one. -/
theorem Graph.push (h : Graph count s₀ d mv stack) (hd : ∀ i < count, ∀ j < count, d i = d j → i = j)
    {i : Nat} (hi : i < count) (hn : i ∉ stack) (hlive : src mv i ≠ none)
    (hreads : ∀ p, stack.head? = some p → src mv i = some (d p))
    (hroot : stack = [] → ∀ j < i, Settled count d mv j) :
    Graph count s₀ d (update mv i ⟨(mv i).source, none⟩) (i :: stack) := by
  have hs := src_setDestination mv i none
  have horig : ∀ p, stack.head? = some p → s₀ i = d p := by
    intro p hp
    have hpin := mem_of_mem_head? hp
    rcases h.orig i hi hn _ (hreads p hp) with ha | ⟨q, hq, hqn, ha⟩
    · exact ha.symm
    · rw [← hd p (h.lt p hpin) q hq ha] at hqn
      exact absurd hqn (h.live p hpin)
  refine ⟨?_, nodup_cons.2 ⟨hn, h.nodup⟩, ?_, ?_, ?_, ?_, ?_, ?_⟩
  · intro j hj
    rw [hs]
    by_cases hji : j = i
    · subst hji
      simp
    · simp [hji, h.dest j hj]
  · intro j hj
    rcases mem_cons.1 hj with rfl | hj
    · exact hi
    · exact h.lt j hj
  · intro j hj
    rw [hs]
    rcases mem_cons.1 hj with rfl | hj
    · exact hlive
    · exact h.live j hj
  · rw [hs]
    cases stack with
    | nil => exact isChain_singleton i
    | cons p rest => exact isChain_cons_cons.2 ⟨⟨hreads p rfl, horig p rfl⟩, h.chain⟩
  · intro j hj hjn a ha
    rw [hs] at ha ⊢
    exact h.orig j hj (fun hm => hjn (mem_cons_of_mem _ hm)) a ha
  · intro r hr
    cases stack with
    | nil =>
      obtain rfl : i = r := by simpa using hr
      refine ⟨fun j hj => by simp_all, ?_⟩
      obtain ⟨a, ha⟩ := ne_none_iff_exists'.1 hlive
      rcases h.orig i hi hn a ha with rfl | ⟨q, hq, hqn, rfl⟩
      · exact .original (by rw [hs, ha])
      · exact .displaced q hq (by rw [hs, hqn]) (by rw [hs, ha])
    | cons p rest =>
      have hr' : (p :: rest).getLast? = some r := by simpa using hr
      obtain ⟨hmin, hsource⟩ := h.root r hr'
      refine ⟨fun j hj => ?_, hsource.push hs i⟩
      rcases mem_cons.1 hj with rfl | hj
      · by_contra hlt
        exact h.below r hr' j (by omega) p (h.lt p (by simp)) (hreads p rfl)
      · exact hmin j hj
  · intro r hr j hj k hk
    rw [hs]
    cases stack with
    | nil =>
      obtain rfl : i = r := by simpa using hr
      exact hroot rfl j hj k hk
    | cons p rest => exact h.below r (by simpa using hr) j hj k hk

section Pop

variable {i : Nat} (h : Graph count s₀ d mv (i :: stack))
include h

theorem Graph.not_mem : i ∉ stack := (nodup_cons.1 h.nodup).1

theorem Graph.reads {p : Nat} (hp : stack.head? = some p) : src mv i = some (d p) ∧ s₀ i = d p := by
  cases stack with
  | nil => cases hp
  | cons q rest =>
    obtain rfl : q = p := by simpa using hp
    exact (isChain_cons_cons.1 h.chain).1

theorem Graph.chain_tail : stack.IsChain fun c p => src mv c = some (d p) ∧ s₀ c = d p := h.chain.tail

omit h in
theorem Graph.root_tail {r : Nat} (hr : stack.getLast? = some r) : (i :: stack).getLast? = some r := by
  rw [getLast?_cons, hr]
  rfl

/-- A pending move that reads the destination of the last one is the root. -/
theorem Graph.blocker_root (hd : ∀ i < count, ∀ j < count, d i = d j → i = j) {j : Nat} (hj : j ∈ stack)
    (hsrc : src mv j = some (d i)) : stack.getLast? = some j := by
  obtain ⟨above, rest, rfl⟩ := append_of_mem hj
  cases rest with
  | nil => simp
  | cons p rest =>
    have hc := (isChain_append.1 h.chain_tail).2.1
    have hp := (isChain_cons_cons.1 hc).1.1
    rw [hsrc, some_inj] at hp
    have hpi := hd i (h.lt i (by simp)) p (h.lt p (by simp)) hp
    exact absurd (by simp [hpi]) h.not_mem

/-- The last pending move is performed and no cycle leads through it, or the cycle leaves the
sources alone. -/
theorem Graph.pop (hroot : ∀ r, stack.getLast? = some r → src mv r ≠ some (d i) ∨ src mv r = some (s₀ r)) :
    Graph count s₀ d (update mv i eliminated) stack := by
  have hs := src_eliminated mv i
  have hne : ∀ j ∈ stack, j ≠ i := fun j hj e => h.not_mem (e ▸ hj)
  refine ⟨?_, (nodup_cons.1 h.nodup).2, fun j hj => h.lt j (mem_cons_of_mem _ hj), ?_, ?_, ?_, ?_, ?_⟩
  · intro j hj
    by_cases hji : j = i
    · simp [hs, hji]
      rfl
    · simp [hs, hji, h.dest j hj]
  · intro j hj
    rw [hs, if_neg (hne j hj)]
    exact h.live j (mem_cons_of_mem _ hj)
  · refine h.chain_tail.imp_of_mem_imp fun c p hc _ hcp => ?_
    rwa [hs, if_neg (hne c hc)]
  · intro j hj hjn a ha
    rw [hs] at ha
    by_cases hji : j = i
    · simp [hji] at ha
    · rw [if_neg hji] at ha
      rcases h.orig j hj (by simp [hji, hjn]) a ha with ha | ⟨q, hq, hqn, ha⟩
      · exact .inl ha
      grind
  · intro r hr
    obtain ⟨hmin, hsource⟩ := h.root r (Graph.root_tail hr)
    have hri : r ≠ i := hne r (mem_of_getLast? hr)
    refine ⟨fun j hj => hmin j (mem_cons_of_mem _ hj), ?_⟩
    cases hsource with
    | original ho => exact .original (by rw [hs, if_neg hri, ho])
    | displaced q hq hqn ho =>
      exact .displaced q hq (by rw [hs, hqn, ite_self]) (by rw [hs, if_neg hri, ho])
    | cycle above rest swapped head he hh ho hc hnd hlt =>
      cases above with
      | nil =>
        -- The cycle would lead through the move itself.
        obtain rfl : i = head := by
          grind
        rcases hroot r hr with hno | ho'
        · exact absurd ho hno
        · exact .original (by rw [hs, if_neg hri, ho'])
      | cons a above =>
        exact .cycle above rest swapped head (List.cons.inj he).2 hh (by rw [hs, if_neg hri, ho]) hc hnd hlt
  · intro r hr j hj k hk
    rw [hs]
    split
    · simp
    · exact h.below r (Graph.root_tail hr) j hj k hk

omit h in
theorem Progress.pop : Progress count d stack mv (update mv i eliminated) := by
  have hs := src_eliminated mv i
  refine ⟨fun j hj => by rw [hs, hj, ite_self], fun j hj => ?_, fun p hp j hj hn hb => ?_⟩
  · grind
  grind

/-- When the last pending move is blocked by the root, the moves of the stack and those that earlier
swaps performed form a cycle. -/
theorem Graph.cycle (hd : ∀ i < count, ∀ j < count, d i = d j → i = j) {r : Nat}
    (hr : stack.getLast? = some r) (hsrc : src mv r = some (d i)) :
    ∃ swapped, IsCycle s₀ d (swapped ++ i :: stack) ∧ (swapped ++ i :: stack).Nodup ∧
      ∀ j ∈ swapped, j < count ∧ r ≤ j := by
  have hi : i < count := h.lt i (by simp)
  cases (h.root r (Graph.root_tail hr)).2 with
  | original ho =>
    rw [hsrc, some_inj] at ho
    exact ⟨[], ⟨h.chain.imp fun _ _ hcp => hcp.2, i, r, rfl, Graph.root_tail hr, ho.symm⟩, h.nodup, by simp⟩
  | displaced q hq hqn ho =>
    rw [hsrc, some_inj] at ho
    rw [← hd i hi q hq ho] at hqn
    exact absurd hqn (h.live i (by simp))
  | cycle above rest swapped head he hh ho hc hnd hlt =>
    rw [hsrc, some_inj] at ho
    have hmem : head ∈ rest := mem_of_mem_head? hh
    obtain rfl := hd i hi head (h.lt head (by rw [he]; exact mem_append_right _ hmem)) ho
    cases above with
    | nil =>
      rw [nil_append] at he
      rw [← he] at hc hnd
      exact ⟨swapped, hc, hnd, hlt⟩
    | cons a above =>
      have hin : i ∈ stack := by
        grind
      exact absurd hin h.not_mem

/-- The root was to read another destination than the move that is swapped. -/
theorem Graph.root_source (hd : ∀ i < count, ∀ j < count, d i = d j → i = j) {r p : Nat}
    (hr : stack.getLast? = some r) (hsrc : src mv r = some (d i)) (hp : p ∈ stack) :
    ∃ q < count, q ≠ p ∧ s₀ r = d q := by
  obtain ⟨swapped, ⟨-, head, last, hhead, hlast, he⟩, hnd, hlt⟩ := h.cycle hd hr hsrc
  obtain rfl : last = r := by
    rw [getLast?_append, Graph.root_tail (i := i) hr] at hlast
    simpa using hlast.symm
  have hmem : head ∈ swapped ++ [i] := by
    rw [append_cons] at hhead
    rw [List.head?_append_of_ne_nil _ (by simp)] at hhead
    exact mem_of_mem_head? hhead
  refine ⟨head, ?_, ?_, he⟩
  · rcases mem_append.1 hmem with hm | hm
    · exact (hlt head hm).1
    · exact h.lt head (by simp [mem_singleton.1 hm])
  · rintro rfl
    rw [append_cons] at hnd
    exact (nodup_append.1 hnd).2.2 head hmem head hp rfl

theorem Graph.laterInCycle (hd : ∀ i < count, ∀ j < count, d i = d j → i = j) {r : Nat}
    (hr : stack.getLast? = some r) (hsrc : src mv r = some (d i)) : LaterInCycle s₀ d count i := by
  obtain ⟨swapped, hc, hnd, hlt⟩ := h.cycle hd hr hsrc
  have hlast := Graph.root_tail (i := i) hr
  refine ⟨swapped ++ i :: stack, r, hc, ?_, by simp, ?_, hnd, fun j hj => ?_⟩
  · rw [getLast?_append, hlast]
    rfl
  · rintro rfl
    exact h.not_mem (mem_of_getLast? hr)
  · rcases mem_append.1 hj with hj | hj
    · exact hlt j hj
    · exact ⟨h.lt j hj, (h.root r hlast).1 j hj⟩

end Pop

/-! ## Swapping -/

section Swap

variable [DecidableEq Op]

/-- After a swap the readers of either operand read the other. -/
def renameSources (source destination : Option Op) (mv : Nat → MoveOperands Op) (j : Nat) : MoveOperands Op :=
  if (mv j).blocks source then ⟨destination, (mv j).destination⟩
  else if (mv j).blocks destination then ⟨source, (mv j).destination⟩
  else mv j

theorem src_renameSources (mv : Nat → MoveOperands Op) (a b : Op) (j : Nat) :
    src (renameSources (some a) (some b) mv) j =
      if src mv j = some a then some b else if src mv j = some b then some a else src mv j := by
  grind [src, renameSources, blocks_iff]

theorem destination_renameSources (mv : Nat → MoveOperands Op) (a b : Option Op) (j : Nat) :
    (renameSources a b mv j).destination = (mv j).destination := by
  unfold renameSources
  split
  · rfl
  · split <;> rfl

variable {i p : Nat}

section

variable (h : Graph count s₀ d mv (i :: stack)) (hd : ∀ i < count, ∀ j < count, d i = d j → i = j)
  (hp : stack.head? = some p) {r : Nat} (hr : stack.getLast? = some r) (hsrc : src mv r = some (d i))
  (hblockers : ∀ j < count, j ∉ i :: stack → src mv j ≠ some (d i))
include h hd hp hr hsrc hblockers

/-- What the swap does to each source. -/
theorem Graph.src_swap {j : Nat} (hj : j < count) :
    src (renameSources (some (d p)) (some (d i)) (update mv i eliminated)) j =
      if j = i then none else if j = r then some (d p)
      else if src mv j = some (d p) then some (d i) else src mv j := by
  have hi : i < count := h.lt i (by simp)
  have hpi : p ≠ i := fun e => h.not_mem (e ▸ mem_of_mem_head? hp)
  have hdp : d i ≠ d p := fun e => hpi (hd i hi p (h.lt p (mem_cons_of_mem _ (mem_of_mem_head? hp))) e).symm
  rw [src_renameSources, src_eliminated]
  by_cases hji : j = i
  · simp [hji]
  simp only [if_neg hji]
  by_cases hjr : j = r
  · simp [hjr, hsrc, hdp]
  rw [if_neg hjr]
  by_cases ha : src mv j = some (d p)
  · rw [if_pos ha, if_pos ha]
  rw [if_neg ha, if_neg ha, if_neg]
  intro hb
  by_cases hjs : j ∈ stack
  · have := h.blocker_root hd hjs hb
    grind
  · exact hblockers j hj (by simp [hji, hjs]) hb

/-- The swap performs the move, and the root takes its place in the cycle. -/
theorem Graph.swap :
    Graph count s₀ d (renameSources (some (d p)) (some (d i)) (update mv i eliminated)) stack := by
  have hs := fun j hj => h.src_swap hd hp hr hsrc hblockers (j := j) hj
  set mv' := renameSources (some (d p)) (some (d i)) (update mv i eliminated) with hmv'
  have hi : i < count := h.lt i (by simp)
  have hpin : p ∈ stack := mem_of_mem_head? hp
  have hne : ∀ j ∈ stack, j ≠ i := fun j hj e => h.not_mem (e ▸ hj)
  have hlt : ∀ j ∈ stack, j < count := fun j hj => h.lt j (mem_cons_of_mem _ hj)
  have hnd : stack.Nodup := (nodup_cons.1 h.nodup).2
  have hrin : r ∈ stack := mem_of_getLast? hr
  -- Only the root and moves off the stack change their source.
  have hstay : ∀ c ∈ stack, ∀ q ∈ stack.tail, src mv c = some (d q) → src mv' c = some (d q) := by
    intro c hc q hq hcq
    have hqin := mem_of_mem_tail hq
    have hqp : q ≠ p := by
      rintro rfl
      cases stack with
      | nil => cases hp
      | cons x rest =>
        grind
    grind
  have hnone : ∀ j < count, src mv' j = none ↔ j = i ∨ src mv j = none := by
    grind
  refine ⟨?_, hnd, hlt, ?_, ?_, ?_, ?_, ?_⟩
  · intro j hj
    simp only [hnone j hj]
    rw [hmv', destination_renameSources]
    by_cases hji : j = i
    · simp [hji, eliminated]
    · simp [hji, h.dest j hj]
  · intro j hj
    rw [Ne, hnone j (hlt j hj)]
    rintro (e | e)
    · exact hne j hj e
    · exact h.live j (mem_cons_of_mem _ hj) e
  · exact h.chain_tail.imp_of_mem_tail_imp fun c q hc hq hcq => ⟨hstay c hc q hq hcq.1, hcq.2⟩
  · intro j hj hjn a ha
    have hjr : j ≠ r := fun e => hjn (e ▸ hrin)
    rw [hs j hj, if_neg hjr] at ha
    by_cases hji : j = i
    · simp [hji] at ha
    rw [if_neg hji] at ha
    by_cases hjp : src mv j = some (d p)
    · grind
    · rw [if_neg hjp] at ha
      rcases h.orig j hj (by simp [hji, hjn]) a ha with ha | ⟨q, hq, hqn, ha⟩
      · exact .inl ha
      grind
  · intro r' hr'
    rw [hr, some_inj] at hr'
    subst hr'
    refine ⟨fun j hj => (h.root r (Graph.root_tail hr)).1 j (mem_cons_of_mem _ hj), ?_⟩
    obtain ⟨swapped, hc, hnd', hlt'⟩ := h.cycle hd hr hsrc
    rw [append_cons] at hc hnd'
    refine .cycle [] stack (swapped ++ [i]) p rfl hp ?_ hc hnd' fun j hj => ?_
    · grind
    · rcases mem_append.1 hj with hj | hj
      · exact hlt' j hj
      · rw [mem_singleton.1 hj]
        exact ⟨hi, (h.root r (Graph.root_tail hr)).1 i (by simp)⟩
  · intro r' hr' j hj k hk
    have hbelow := h.below r' (Graph.root_tail hr') j hj
    rw [hr, some_inj] at hr'
    subst hr'
    have hjc : j < count := hj.trans (hlt r hrin)
    rw [hs j hjc, if_neg hj.ne, if_neg (hbelow p (hlt p hpin))]
    split
    · simp
    · exact hbelow k hk

theorem Progress.swap :
    Progress count d stack mv (renameSources (some (d p)) (some (d i)) (update mv i eliminated)) := by
  have hs := fun j hj => h.src_swap hd hp hr hsrc hblockers (j := j) hj
  have hi : i < count := h.lt i (by simp)
  have hlt : ∀ j ∈ stack, j < count := fun j hj => h.lt j (mem_cons_of_mem _ hj)
  have hpin : p ∈ stack := mem_of_mem_head? hp
  refine ⟨fun j hj => ?_, fun j hj => ?_, fun q hq j hj hn hb => ?_⟩
  · rw [src_renameSources, src_eliminated, hj]
    simp
  · rw [src_renameSources, src_eliminated]
    by_cases hji : j = i
    · simp [hji]
    · rw [if_neg hji, if_neg (hj p (hlt p hpin)), if_neg (hj i hi)]
      exact .inl rfl
  · have hjr : j ≠ r := fun e => hn (e ▸ mem_of_getLast? hr)
    rw [hs j hj, if_neg hjr] at hb
    by_cases hji : j = i
    · simp [hji] at hb
    rw [if_neg hji] at hb
    by_cases hjp : src mv j = some (d p)
    · rw [if_pos hjp, some_inj] at hb
      exact absurd (hd i hi q (hlt q hq) hb ▸ hq) h.not_mem
    · rwa [if_neg hjp] at hb

end

end Swap

end Traversal

end GapResolver

end W16
