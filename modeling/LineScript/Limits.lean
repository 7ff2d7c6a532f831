/-! # Limits

What a run may use up: calls within calls, open blocks and calls together, and statements.
-/

namespace LineScript

structure Limits where
  maxCallDepth : Nat := 64
  maxNesting : Nat := 256
  maxSteps : Nat := 1000000
  deriving DecidableEq, Repr

/-- The limits of a run, and after how many statements an interrupt arrives, if one does. -/
structure Guard extends Limits where
  alarm : Option Nat := none
  deriving DecidableEq, Repr

end LineScript
