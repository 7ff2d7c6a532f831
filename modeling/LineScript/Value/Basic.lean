import LineScript.Text.Blank
import LineScript.Operator
import LineScript.Value.Numeral
import LineScript.Value.Binary64

/-! # Values

Quoted text is always a string. A bare token that spells a decimal numeral is a number, and keeps
its spelling; any other bare token is a string. Two numbers that can be read compare as numbers;
every other pair compares by spelling.
-/

namespace LineScript

inductive Value where
  | string (text : Text)
  | number (spelling : Text)
  deriving DecidableEq, Repr

namespace Value

instance : Inhabited Value := ⟨string []⟩

/-- Reads a token: one pair of quotes around it is removed, and nothing else is changed. -/
def read (token : Text) : Value :=
  let t := Text.trim token
  match Text.unquote? t with
  | some text => string text
  | none => if (Numeral.ofText? t).isSome then number t else string t

def text : Value → Text
  | string t | number t => t

/-- The most digits before the point that leave all whole numbers apart. -/
def maxWholeLength : Nat := 15

/-- What stands before the first point, without the signs and zeros that begin it. -/
def wholeDigits (spelling : Text) : Text :=
  (spelling.takeWhile (· != '.')).dropWhile fun c => c == '-' || c == '+' || c == '0'

/--
The numeric value, unless the part before the point is too long. Only plain decimals have one:
`read` makes a number of no other spelling, so what an exponent would mean is left open.
-/
def number? : Value → Option Binary64
  | string _ => none
  | number t =>
    (Numeral.ofText? t).bind fun n =>
      if (wholeDigits t).length ≤ maxWholeLength then
        Binary64.ofRatio? n.negative n.numerator n.denominator
      else none

/-- Numbers compare as numbers, everything else by the code points of its spelling. -/
def cmp (a b : Value) : Ordering :=
  match a.number?, b.number? with
  | some x, some y => compare x.toInt y.toInt
  | _, _ => compare a.text b.text

def satisfies (a : Value) (op : Operator) (b : Value) : Bool := op.holds (a.cmp b)

end Value

end LineScript
