import LineScript.Text.Basic

/-! # Decimal numerals

A numeral is an optional sign, digits, and optionally a point and more digits, with at least one
digit on either side of the point. It stands for an exact quotient of a whole number and a power
of ten.
-/

namespace LineScript

structure Numeral where
  negative : Bool
  whole : Text
  fraction : Text
  deriving DecidableEq, Repr

namespace Numeral

def takeSign : Text → Bool × Text
  | '-' :: t => (true, t)
  | '+' :: t => (false, t)
  | t => (false, t)

/-- Reads a numeral, cutting its digits at the first point. -/
def ofText? (t : Text) : Option Numeral :=
  let (negative, digits) := takeSign t
  let whole := digits.takeWhile (· != '.')
  let fraction := (digits.dropWhile (· != '.')).drop 1
  if whole.all Char.isDigit && fraction.all Char.isDigit && !(whole.isEmpty && fraction.isEmpty)
  then some ⟨negative, whole, fraction⟩
  else none

def valueOfDigits (t : Text) : Nat := t.foldl (fun n c => 10 * n + (c.toNat - '0'.toNat)) 0

/-- The magnitude is `numerator / denominator`. -/
def numerator (n : Numeral) : Nat := valueOfDigits (n.whole ++ n.fraction)

def denominator (n : Numeral) : Nat := Nat.pow 10 n.fraction.length

theorem denominator_pos (n : Numeral) : 0 < n.denominator := Nat.pow_pos (by decide)

end Numeral

end LineScript
