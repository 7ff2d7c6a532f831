import LineScript.Proofs.Value.Numerals
import LineScript.Proofs.Value.Order

/-! # The order of numerals

A numeral stands for an exact number. Where it can be read, it is read as what that number rounds
to, with its sign, so the order in which two numerals are read is never the reverse of the order of
the numbers. Whole numbers that can be read are read exactly, and compare as they are.
-/

namespace LineScript

open Text

def Text.Zeros (t : Text) : Prop := ∀ c ∈ t, c = '0'

namespace Binary64

/-- The number is what `q` rounds to, with the sign of `q`; zero may have either sign. -/
def IsRounded (x : Binary64) (q : ℚ) : Prop :=
  RoundsTo (|q| * pow2 1074) x.units ∧ if x.negative then q ≤ 0 else 0 ≤ q

variable {x y : Binary64} {p q : ℚ}

theorem IsRounded.units_le (hx : x.IsRounded p) (hy : y.IsRounded q) (h : |p| ≤ |q|) :
    x.units ≤ y.units :=
  hx.1.mono hy.1 (mul_le_mul_of_nonneg_right h (Nat.cast_nonneg _))

theorem IsRounded.units_of_whole {k : ℤ} (hx : x.IsRounded k) (hk : k.natAbs ≤ 2 ^ 53) :
    x.units = k.natAbs * pow2 1074 := by
  have hself := RoundsTo.self (representable_mul_pow2 hk 1074)
  rw [Nat.cast_mul, Nat.cast_natAbs, Int.cast_abs] at hself
  exact hx.1.unique hself

theorem IsRounded.toInt_of_whole {k : ℤ} (hx : x.IsRounded k) (hk : k.natAbs ≤ 2 ^ 53) :
    x.toInt = k * pow2 1074 := by
  have hsign := hx.2
  rw [toInt, hx.units_of_whole hk, Nat.cast_mul]
  cases hn : x.negative with
  | false =>
    rw [hn, if_neg Bool.false_ne_true, Int.cast_nonneg_iff] at hsign
    rw [if_neg Bool.false_ne_true, Int.natAbs_of_nonneg hsign]
  | true =>
    rw [hn, if_pos rfl, Int.cast_nonpos] at hsign
    rw [if_pos rfl, Int.ofNat_natAbs_of_nonpos hsign, neg_mul, neg_neg]

/-- Rounding never inverts the order of two numbers, whatever their signs. -/
theorem IsRounded.toInt_le_toInt (hx : x.IsRounded p) (hy : y.IsRounded q) (h : p ≤ q) :
    x.toInt ≤ y.toInt := by
  have hsx := hx.2
  have hsy := hy.2
  cases hnx : x.negative <;> cases hny : y.negative <;>
    simp only [toInt, hnx, hny, Bool.false_eq_true, if_true, if_false] at hsx hsy ⊢
  · have := hx.units_le hy (by rwa [abs_of_nonneg hsx, abs_of_nonneg hsy])
    omega
  · -- only zero lies between a number that is not negative and one that is not positive
    have hp : p = (0 : ℤ) := by push_cast; linarith
    have hq : q = (0 : ℤ) := by push_cast; linarith
    subst hp hq
    rw [hx.units_of_whole (by decide), hy.units_of_whole (by decide)]
    simp
  · omega
  · have := hy.units_le hx (by rw [abs_of_nonpos hsx, abs_of_nonpos hsy]; linarith)
    omega

end Binary64

namespace Numeral

def sign (n : Numeral) : ℤ := if n.negative then -1 else 1

def value (n : Numeral) : ℚ :=
  n.sign * (valueOfDigits n.whole + valueOfDigits n.fraction / 10 ^ n.fraction.length)

/-- The whole number that stands before the point, with the sign of the numeral. -/
def wholeValue (n : Numeral) : ℤ := n.sign * valueOfDigits n.whole

example : (⟨true, ['0', '2'], ['5', '0']⟩ : Numeral).value = -5 / 2 := by decide +kernel

theorem value_eq (n : Numeral) : n.value = n.sign * (n.numerator / n.denominator) := by
  have hd : (n.denominator : ℚ) = 10 ^ n.fraction.length := Nat.cast_pow 10 n.fraction.length
  have hn : n.numerator = valueOfDigits n.whole * 10 ^ n.fraction.length +
      valueOfDigits n.fraction := valueOfDigits_append _ _
  have hpos : (0 : ℚ) < 10 ^ n.fraction.length := by positivity
  rw [value, hd, hn]
  push_cast
  field_simp

theorem natAbs_sign (n : Numeral) : n.sign.natAbs = 1 := by
  unfold sign
  split <;> rfl

theorem abs_value (n : Numeral) : |n.value| = n.numerator / n.denominator := by
  have hsign : |(n.sign : ℚ)| = 1 := by
    rw [← Int.cast_abs, Int.abs_eq_natAbs, natAbs_sign]
    rfl
  rw [value_eq, abs_mul, hsign, one_mul, abs_of_nonneg (by positivity)]

theorem value_nonpos_or_nonneg (n : Numeral) :
    if n.negative then n.value ≤ 0 else 0 ≤ n.value := by
  have hpos : (0 : ℚ) ≤ n.numerator / n.denominator := by positivity
  rw [value_eq, sign]
  split
  · push_cast
    linarith
  · push_cast
    linarith

theorem valueOfDigits_of_zeros {t : Text} (h : Zeros t) : valueOfDigits t = 0 := by
  induction t with
  | nil => rfl
  | cons c t ih =>
    obtain ⟨rfl, ht⟩ := List.forall_mem_cons.mp h
    rw [valueOfDigits_cons, ih ht]
    simp

theorem value_of_zeros {n : Numeral} (h : Zeros n.fraction) : n.value = n.wholeValue := by
  rw [value, wholeValue, valueOfDigits_of_zeros h]
  push_cast
  simp

theorem Spells.natAbs_wholeValue_lt {t : Text} {n : Numeral} (h : Spells t n) :
    n.wholeValue.natAbs < 10 ^ n.wholeLength := by
  rw [wholeValue, Int.natAbs_mul, natAbs_sign, one_mul, Int.natAbs_natCast]
  exact h.valueOfDigits_whole_lt

theorem isBlank_of_isDigit {c : Char} (h : c.isDigit = true) : isBlank c = false :=
  isBlank_of_isNameChar (by simp [isNameChar, Char.isAlphanum, h])

theorem Magnitude.isBlank_of_mem {t w f : Text} (h : Magnitude t w f) :
    ∀ c ∈ t, isBlank c = false := by
  have hdigits {u : Text} (hu : Digits u) : ∀ c ∈ u, isBlank c = false :=
    fun c hc => isBlank_of_isDigit (hu c hc)
  cases h with
  | whole _ hw => exact hdigits hw
  | pointed _ hw hf =>
    intro c hc
    rcases List.mem_append.mp hc with hc | hc
    · exact hdigits hw c hc
    · rcases List.mem_cons.mp hc with rfl | hc
      · decide
      · exact hdigits hf c hc
  | fraction _ hf => exact List.forall_mem_cons.mpr ⟨by decide, hdigits hf⟩

theorem Spells.trimmed {t : Text} {n : Numeral} (h : Spells t n) : Trimmed t := by
  have hb : ∀ c ∈ t, isBlank c = false := by
    cases h with
    | unsigned h => exact h.isBlank_of_mem
    | plus h => exact List.forall_mem_cons.mpr ⟨by decide, h.isBlank_of_mem⟩
    | minus h => exact List.forall_mem_cons.mpr ⟨by decide, h.isBlank_of_mem⟩
  exact ⟨fun c hc => hb c (List.mem_of_mem_head? hc),
    fun c hc => hb c (List.mem_of_mem_getLast? hc)⟩

end Numeral

namespace Value

variable {t u : Text} {m n : Numeral}

theorem read_of_spells (h : Numeral.Spells t n) : read t = .number t := by
  have ht := trim_eq_self h.trimmed
  exact read_eq_number_iff.mpr ⟨ht.symm, n, ht.symm ▸ h⟩

theorem exists_isRounded (h : Numeral.Spells t n) (hshort : n.wholeLength ≤ maxWholeLength) :
    ∃ x, (number t).number? = some x ∧ x.IsRounded n.value := by
  obtain ⟨x, hx, hsign, hr⟩ := exists_number? h hshort
  refine ⟨x, hx, ?_, ?_⟩
  · rwa [n.abs_value]
  · rw [hsign]
    exact n.value_nonpos_or_nonneg

/--
Two numerals with at most fifteen digits before their points are read as numbers, and do not compare
as greater and smaller if the exact numbers stand in the other order or are equal. If they stand for
whole numbers, they compare as these do, however they are spelled.
-/
theorem numerals_ordered (ht : Numeral.Spells t m) (hu : Numeral.Spells u n)
    (hm : m.wholeLength ≤ 15) (hn : n.wholeLength ≤ 15) :
    (read t = .number t ∧ read u = .number u) ∧
    (m.value ≤ n.value → (read t).cmp (read u) ≠ .gt) ∧
    (Zeros m.fraction → Zeros n.fraction →
      (read t).cmp (read u) = compare m.wholeValue n.wholeValue) := by
  rw [read_of_spells ht, read_of_spells hu]
  obtain ⟨x, hx, hxr⟩ := exists_isRounded ht hm
  obtain ⟨y, hy, hyr⟩ := exists_isRounded hu hn
  rw [cmp_of_number? hx hy]
  refine ⟨⟨rfl, rfl⟩, fun hle => ?_, fun hmz hnz => ?_⟩
  · exact compare_le_iff_le.mpr (hxr.toInt_le_toInt hyr hle)
  · have hbound {k : Nat} {z : ℤ} (hk : k ≤ 15) (hz : z.natAbs < 10 ^ k) : z.natAbs ≤ 2 ^ 53 :=
      hz.le.trans ((Nat.pow_le_pow_right (by decide) hk).trans (by decide))
    have hunits : (0 : ℤ) < Binary64.pow2 1074 := by
      exact_mod_cast Binary64.pow2_pos 1074
    rw [Numeral.value_of_zeros hmz] at hxr
    rw [Numeral.value_of_zeros hnz] at hyr
    rw [hxr.toInt_of_whole (hbound hm ht.natAbs_wholeValue_lt),
      hyr.toInt_of_whole (hbound hn hu.natAbs_wholeValue_lt), ← cmp_eq_compare,
      ← cmp_eq_compare, cmp_mul_pos_right hunits]

/--
Zero has two signs and one value; fifteen digits are told apart, and a digit too far behind the
point to be kept does no harm.
-/
theorem numerals_ordered_near_limits :
    (read "-0".toList).cmp (read "+00.0".toList) = .eq ∧
    (read "-999999999999999".toList).cmp (read "-999999999999998.".toList) = .lt ∧
    (read "0.1".toList).cmp (read ".10000000000000000000001".toList) ≠ .gt := by
  have spells {t : Text} {n : Numeral} (h : Numeral.ofText? t = some n) : Numeral.Spells t n :=
    Numeral.ofText?_eq_some_iff.mp h
  have zeros {t : Text} (h : t.all (· == '0') = true) : Zeros t := by simpa [Zeros] using h
  have hminus : Numeral.Spells "-0".toList ⟨true, ['0'], []⟩ := spells (by decide +kernel)
  have hplus : Numeral.Spells "+00.0".toList ⟨false, ['0', '0'], ['0']⟩ :=
    spells (by decide +kernel)
  have hless : Numeral.Spells "-999999999999999".toList
      ⟨true, "999999999999999".toList, []⟩ := spells (by decide +kernel)
  have hmore : Numeral.Spells "-999999999999998.".toList
      ⟨true, "999999999999998".toList, []⟩ := spells (by decide +kernel)
  have hshort : Numeral.Spells "0.1".toList ⟨false, ['0'], ['1']⟩ := spells (by decide +kernel)
  have hlong : Numeral.Spells ".10000000000000000000001".toList
      ⟨false, [], "10000000000000000000001".toList⟩ := spells (by decide +kernel)
  refine ⟨?_, ?_, ?_⟩
  · exact (numerals_ordered hminus hplus (by decide) (by decide)).2.2 (zeros rfl) (zeros rfl)
  · have h := (numerals_ordered hless hmore (by decide +kernel) (by decide +kernel)).2.2
      (zeros rfl) (zeros rfl)
    exact h.trans (by decide +kernel)
  · exact (numerals_ordered hshort hlong (by decide) (by decide)).2.1 (by decide +kernel)

end Value

end LineScript
