import Mathlib.Logic.ExistsUnique
import LineScript.Proofs.Text.Bytes
import LineScript.Value.Basic

/-! # The order of values

Values are of two classes, those that can be read as numbers and those that cannot. Within the first
class they compare as numbers do, within the second by their bytes, and both orders are transitive;
a pair of values from the two classes compares by bytes as well. In every case the comparison of two
values reversed is the reverse of their comparison, so the operators say of them what they say of
the places of two points on a line.
-/

namespace LineScript

namespace Operator

theorem existsUnique_holds (o : Ordering) :
    ∃! op, op ∈ [less, equal, greater] ∧ op.holds o = true := by
  cases o with
  | lt => exact ⟨less, by decide, fun op h => by cases op <;> revert h <;> decide⟩
  | eq => exact ⟨equal, by decide, fun op h => by cases op <;> revert h <;> decide⟩
  | gt => exact ⟨greater, by decide, fun op h => by cases op <;> revert h <;> decide⟩

theorem holds_greaterEqual (o : Ordering) : greaterEqual.holds o = !less.holds o := by
  cases o <;> rfl

theorem holds_lessEqual (o : Ordering) : lessEqual.holds o = greaterEqual.holds o.swap := by
  cases o <;> rfl

end Operator

namespace Value

open Text

variable {a b c : Value}

theorem cmp_of_number? {x y : Binary64} (ha : a.number? = some x) (hb : b.number? = some y) :
    a.cmp b = compare x.toInt y.toInt := by
  rw [cmp, ha, hb]

theorem cmp_of_unread (h : a.number? = none ∨ b.number? = none) :
    a.cmp b = compare a.text b.text := by
  unfold cmp
  split
  · next ha hb => rcases h with h | h <;> simp_all
  · rfl

theorem read_or_unread (a b : Value) :
    (∃ x y, a.number? = some x ∧ b.number? = some y) ∨ a.number? = none ∨ b.number? = none := by
  cases a.number? <;> cases b.number? <;> simp

theorem cmp_self (a : Value) : a.cmp a = .eq := by
  rcases read_or_unread a a with ⟨x, -, ha, -⟩ | h
  · rw [cmp_of_number? ha ha]
    exact Std.ReflCmp.compare_self
  · rw [cmp_of_unread h]
    exact Std.ReflCmp.compare_self

theorem cmp_swap (a b : Value) : b.cmp a = (a.cmp b).swap := by
  rcases read_or_unread a b with ⟨x, y, ha, hb⟩ | h
  · rw [cmp_of_number? ha hb, cmp_of_number? hb ha]
    exact Std.OrientedCmp.eq_swap
  · rw [cmp_of_unread h, cmp_of_unread h.symm]
    exact Std.OrientedCmp.eq_swap

/-- Both values can be read as numbers, or neither can. -/
def Alike (a b : Value) : Prop := a.number?.isSome = b.number?.isSome

theorem exists_transCmp (hab : a.Alike b) (hbc : b.Alike c) :
    ∃ f : Value → Value → Ordering, Std.TransCmp f ∧
      a.cmp b = f a b ∧ b.cmp c = f b c ∧ a.cmp c = f a c := by
  unfold Alike at hab hbc
  cases hb : b.number? with
  | some y =>
    rw [hb] at hab hbc
    obtain ⟨x, ha⟩ := Option.isSome_iff_exists.mp hab
    obtain ⟨z, hc⟩ := Option.isSome_iff_exists.mp hbc.symm
    refine ⟨compareOn fun v => (v.number?.map Binary64.toInt).getD 0, inferInstance, ?_⟩
    simp only [compareOn, cmp_of_number? ha hb, cmp_of_number? hb hc, cmp_of_number? ha hc, ha, hb,
      hc, Option.map_some, Option.getD_some, and_self]
  | none =>
    rw [hb] at hab hbc
    have ha : a.number? = none := by simpa using hab
    exact ⟨compareOn text, inferInstance, cmp_of_unread (.inr hb), cmp_of_unread (.inl hb),
      cmp_of_unread (.inl ha)⟩

theorem cmp_trans (hab : a.Alike b) (hbc : b.Alike c) :
    ((a.cmp b).isLE = true → (b.cmp c).isLE = true → (a.cmp c).isLE = true) ∧
    (a.cmp b = .lt → b.cmp c = .lt → a.cmp c = .lt) ∧
    (a.cmp b = .eq → b.cmp c = .eq → a.cmp c = .eq) := by
  obtain ⟨f, hf, e, e', e''⟩ := exists_transCmp hab hbc
  rw [e, e', e'']
  exact ⟨Std.TransCmp.isLE_trans, Std.TransCmp.lt_trans, Std.TransCmp.eq_trans⟩

/-- Where one of two values cannot be read, their bytes decide. -/
theorem cmp_eq_compare_bytes (h : a.number? = none ∨ b.number? = none) :
    a.cmp b = compare (bytes a.text) (bytes b.text) ∧ (a.cmp b = .eq ↔ a.text = b.text) := by
  rw [compare_bytes, cmp_of_unread h]
  exact ⟨rfl, Std.LawfulEqCmp.compare_eq_iff_eq⟩

/--
A value is equal to itself, and two values compare in reverse as they do reversed: exactly one of
less, equal and greater holds of them, at least is not less, and at most is at least the other way
round. The comparison is transitive among values that can be read as numbers and among those that
cannot; among the latter, and between the two kinds, it is that of the bytes of the spellings.
-/
theorem comparison_lawful (a b : Value) :
    (a.cmp a = .eq ∧ b.cmp a = (a.cmp b).swap) ∧
    ((∃! op, op ∈ [Operator.less, .equal, .greater] ∧ a.satisfies op b = true) ∧
      (a.satisfies .greaterEqual b = !a.satisfies .less b) ∧
      a.satisfies .lessEqual b = b.satisfies .greaterEqual a) ∧
    (∀ c, a.Alike b → b.Alike c →
      ((a.cmp b).isLE = true → (b.cmp c).isLE = true → (a.cmp c).isLE = true) ∧
      (a.cmp b = .lt → b.cmp c = .lt → a.cmp c = .lt) ∧
      (a.cmp b = .eq → b.cmp c = .eq → a.cmp c = .eq)) ∧
    (a.number? = none ∨ b.number? = none →
      a.cmp b = compare (bytes a.text) (bytes b.text) ∧ (a.cmp b = .eq ↔ a.text = b.text)) := by
  refine ⟨⟨cmp_self a, cmp_swap a b⟩, ⟨Operator.existsUnique_holds _, ?_, ?_⟩,
    fun c => cmp_trans, cmp_eq_compare_bytes⟩
  · exact Operator.holds_greaterEqual _
  · unfold satisfies
    rw [cmp_swap a b]
    exact Operator.holds_lessEqual _

/--
Ten lies between nine and eleven, though not by its bytes; in quotes it comes before nine. A letter
that takes two bytes comes after all that take one.
-/
theorem comparison_lawful_of_spellings :
    (number "9".toList).cmp (number "+11".toList) = .lt ∧
    ((string "10".toList).cmp (number "9".toList) =
        compare (bytes "10".toList) (bytes "9".toList) ∧
      (string "10".toList).cmp (number "9".toList) = .lt) ∧
    ((string "z".toList).cmp (string "é".toList) =
        compare (bytes "z".toList) (bytes "é".toList) ∧
      (string "z".toList).cmp (string "é".toList) = .lt) := by
  refine ⟨?_, ⟨?_, by decide +kernel⟩, ?_, by decide +kernel⟩
  · have hab : (number "9".toList).Alike (number "10.0".toList) := by
      unfold Alike
      decide +kernel
    have hbc : (number "10.0".toList).Alike (number "+11".toList) := by
      unfold Alike
      decide +kernel
    exact ((comparison_lawful _ _).2.2.1 _ hab hbc).2.1 (by decide +kernel) (by decide +kernel)
  · exact ((comparison_lawful _ _).2.2.2 (.inl rfl)).1
  · exact ((comparison_lawful _ _).2.2.2 (.inl rfl)).1

end Value

end LineScript
