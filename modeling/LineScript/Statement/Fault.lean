import LineScript.Keyword

/-! # Malformed statements

Why a line that begins with a keyword is no statement.
-/

namespace LineScript

inductive Fault where
  | noLeftParenthesis
  | noRightParenthesis
  | noExpression
  | noThen
  | noCondition
  | noName
  | noAsFunction
  | noLabel
  | trailingText (word : Keyword)
  deriving DecidableEq, Repr

namespace Fault

private def wording : Fault → String
  | noLeftParenthesis => "EXPECTED LEFT PARENTHESIS"
  | noRightParenthesis => "EXPECTED RIGHT PARENTHESIS"
  | noExpression => "EXPECTED EXPRESSION"
  | noThen => "EXPECTED THEN"
  | noCondition => "EXPECTED CONDITION"
  | noName => "EXPECTED IDENTIFIER"
  | noAsFunction => "EXPECTED AS FUNCTION"
  | noLabel => "EXPECTED WHEN \"TEXT\" THEN"
  | trailingText _ => "UNEXPECTED TEXT AFTER "

/-- What the line was expected to hold, or what it should not hold. -/
def message (f : Fault) : Text :=
  f.wording.toList ++ match f with
    | trailingText word => word.spelling
    | _ => []

theorem message_ne_nil (f : Fault) : f.message ≠ [] := by
  cases f <;> simp [message, wording]

end Fault

end LineScript
