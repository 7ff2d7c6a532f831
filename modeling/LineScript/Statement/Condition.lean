import LineScript.Text.Blank
import LineScript.Operator

/-! # Conditions

A condition compares the operands on either side of its one operator. Operators between double
quotes are part of an operand. A text with no operator, with several, or with an operand missing
is kept whole as an invalid condition.
-/

namespace LineScript

inductive Condition where
  | compare (lhs : Text) (op : Operator) (rhs : Text)
  | invalid (text : Text)
  deriving DecidableEq, Repr

namespace Condition

structure Division where
  before : Text
  operator : Operator
  after : Text
  deriving DecidableEq, Repr

def Division.cons (c : Char) (d : Division) : Division := { d with before := c :: d.before }

/--
The text divided at its leftmost operator outside quotes; `inside` tells whether the text starts
inside quotes, and each quote changes that.
-/
def divideFrom? (inside : Bool) : Text → Option Division
  | [] => none
  | c :: t =>
    if c = '"' then (divideFrom? (!inside) t).map (.cons c)
    else if inside then (divideFrom? inside t).map (.cons c)
    else match Operator.leading? (c :: t) with
      | some (op, rest) => some ⟨[], op, rest⟩
      | none => (divideFrom? inside t).map (.cons c)

def divide? (t : Text) : Option Division := divideFrom? false t

/-- Reads a condition; the right operand may hold no further operator outside its own quotes. -/
def ofText (t : Text) : Condition :=
  match divide? t with
  | none => invalid t
  | some d =>
    let lhs := Text.trim d.before
    let rhs := Text.trim d.after
    if lhs.isEmpty || rhs.isEmpty || (divide? rhs).isSome then invalid t
    else compare lhs d.operator rhs

end Condition

end LineScript
