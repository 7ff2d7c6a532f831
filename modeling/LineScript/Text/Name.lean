import LineScript.Text.Basic

/-! # Names

Variables and functions are named by ASCII letters, digits and underscores, at least one of them.
-/

namespace LineScript.Text

def isNameChar (c : Char) : Bool := c.isAlphanum || c == '_'

def isName (t : Text) : Bool := !t.isEmpty && t.all isNameChar

theorem isName_iff {t : Text} : isName t = true ↔ t ≠ [] ∧ ∀ c ∈ t, isNameChar c = true := by
  simp [isName]

end LineScript.Text
