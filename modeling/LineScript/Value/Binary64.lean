/-! # Rounding to binary64

A finite binary64 number is a sign and a whole number of units of `2 ^ -1074`, the smallest
positive one. A quotient rounds to the nearest such number with at most 53 significant bits; of
two that are equally near, to the one whose last bit is even.
-/

namespace LineScript

structure Binary64 where
  negative : Bool
  units : Nat
  deriving DecidableEq, Repr

namespace Binary64

def pow2 (e : Nat) : Nat := Nat.pow 2 e

/-- The whole number nearest to `n / d`; of two equally near, the even one. -/
def roundQuotient (n d : Nat) : Nat :=
  let q := n / d
  let r := n % d
  if 2 * r < d ∨ (2 * r = d ∧ q % 2 = 0) then q else q + 1

/-- How many bits a magnitude of `units` has to give up to keep 53. -/
def excessBits (units : Nat) : Nat := units.log2 - 52

def roundUnits (n d : Nat) : Nat :=
  let e := excessBits (n * pow2 1074 / d)
  roundQuotient (n * pow2 1074) (d * pow2 e) * pow2 e

/-- The least magnitude, in units, that is too large to be finite. -/
def overflow : Nat := pow2 2098

/-- The number nearest to `n / d` with this sign, unless that is not finite. -/
def ofRatio? (negative : Bool) (n d : Nat) : Option Binary64 :=
  let units := roundUnits n d
  if units < overflow then some ⟨negative, units⟩ else none

/-- The signed number of units; the two zeros have the same. -/
def toInt (x : Binary64) : Int := if x.negative then -x.units else x.units

/-- The interchange encoding: sign, eleven bits of exponent, fifty-two of fraction. -/
def toBits (x : Binary64) : Nat :=
  let e := excessBits x.units
  (if x.negative then pow2 63 else 0) + e * pow2 52 + x.units / pow2 e

theorem pow2_pos (e : Nat) : 0 < pow2 e := Nat.pow_pos (by decide)

theorem two_mul_roundQuotient_le (n : Nat) {d : Nat} (hd : 0 < d) :
    2 * (roundQuotient n d * d) ≤ 2 * n + d ∧ 2 * n ≤ 2 * (roundQuotient n d * d) + d := by
  have hn : d * (n / d) + n % d = n := Nat.div_add_mod n d
  have hr : n % d < d := Nat.mod_lt n hd
  rw [Nat.mul_comm] at hn
  unfold roundQuotient
  dsimp only
  split
  · omega
  · rw [Nat.add_mul]; omega

end Binary64

end LineScript
