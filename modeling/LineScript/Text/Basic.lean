/-! # Text

Text is a list of characters. Cutting a known beginning or a known end off a text, and taking it
out of its quotes, are partial operations, each settled by one equation.
-/

namespace LineScript

abbrev Text := List Char

namespace Text

/-- What follows `p` in the text, if the text begins with `p`. -/
def dropPrefix? : (p t : Text) → Option Text
  | [], t => some t
  | _ :: _, [] => none
  | a :: p, b :: t => if a = b then dropPrefix? p t else none

/-- What precedes `s` in the text, if the text ends with `s`. -/
def dropSuffix? (s t : Text) : Option Text :=
  (dropPrefix? s.reverse t.reverse).map List.reverse

/-- The text between a quote that begins the text and another one that ends it. -/
def unquote? : Text → Option Text
  | '"' :: t => dropSuffix? ['"'] t
  | _ => none

/-- Decimal digits, without leading zeros. -/
def ofNat (n : Nat) : Text := Nat.toDigits 10 n

theorem dropPrefix?_eq_some_iff {p t r : Text} : dropPrefix? p t = some r ↔ t = p ++ r := by
  fun_induction dropPrefix? p t <;> simp_all [eq_comm]

@[simp] theorem dropPrefix?_append (p r : Text) : dropPrefix? p (p ++ r) = some r :=
  dropPrefix?_eq_some_iff.mpr rfl

theorem dropSuffix?_eq_some_iff {s t r : Text} : dropSuffix? s t = some r ↔ t = r ++ s := by
  unfold dropSuffix?
  rw [Option.map_eq_some_iff]
  constructor
  · rintro ⟨u, hu, rfl⟩
    have := congrArg List.reverse (dropPrefix?_eq_some_iff.mp hu)
    simpa using this
  · rintro rfl
    exact ⟨r.reverse, dropPrefix?_eq_some_iff.mpr (by simp), by simp⟩

@[simp] theorem dropSuffix?_append (s r : Text) : dropSuffix? s (r ++ s) = some r :=
  dropSuffix?_eq_some_iff.mpr rfl

/-- A text is the quoted form of exactly one text, or of none. -/
theorem unquote?_eq_some_iff {t s : Text} : unquote? t = some s ↔ t = '"' :: (s ++ ['"']) := by
  unfold unquote?
  split
  · simp [dropSuffix?_eq_some_iff]
  · next h =>
    simp only [reduceCtorEq, false_iff]
    exact h _

end Text

end LineScript
