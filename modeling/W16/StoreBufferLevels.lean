import W16.StoreBufferRuns
import Mathlib.Tactic.Common

/-!
# The sampling levels of `HandleFullness`

A level samples the old buffer with a step and exempts the pages with more sampled entries
than its threshold. The table `samples` begins with the gentlest level and ends with the
last resort, which exempts every page that has an entry; the loop of `HandleFullness` runs
through it from its end.
-/
namespace W16.StoreBuffer

open List

set_option linter.dupNamespace false

variable {L : Layout}

namespace State

variable (L : Layout) (s : State)

variable {L s}

variable (L)

/-! ## Levels one after the other -/

variable (s)

variable {L s}

end State

namespace State

variable {s : State}

end State

end W16.StoreBuffer
