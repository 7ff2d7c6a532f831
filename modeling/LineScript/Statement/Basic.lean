import LineScript.Block
import LineScript.Statement.Condition

/-! # Statements

One statement stands on one line. A statement that opens or closes a block says which; the words
that divide a block, `ELSE` and `WHEN`, are statements of their own.
-/

namespace LineScript

/-- What a `PRINT` shows: a text as it stands, or what a token resolves to. -/
inductive Expression where
  | literal (text : Text)
  | token (text : Text)
  deriving DecidableEq, Repr

inductive Statement where
  | assign (name value : Text)
  | print (expression : Expression)
  | ifThen (condition : Condition)
  | caseOf (name : Text)
  | define (name : Text)
  | call (name : Text)
  | otherwise
  | when (label : Text)
  | close (block : Block)
  | unrecognized
  deriving DecidableEq, Repr

namespace Statement

def opens : Statement → Option Block
  | ifThen _ => some .conditional
  | caseOf _ => some .selection
  | define _ => some .function
  | _ => none

def closes : Statement → Option Block
  | close b => some b
  | _ => none

theorem opens_eq_none_of_closes {s : Statement} {b : Block} (h : s.closes = some b) :
    s.opens = none := by
  cases s <;> first | rfl | simp [closes] at h

end Statement

end LineScript
