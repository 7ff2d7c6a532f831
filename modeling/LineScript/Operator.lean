import LineScript.Text.Basic

/-! # Comparison operators

An operator is a set of orderings. Where one operator's spelling begins another's, the longer is
tried first, so that `>=` is never read as `>` before `=`.
-/

namespace LineScript

inductive Operator where
  | greaterEqual
  | lessEqual
  | equal
  | greater
  | less
  deriving DecidableEq, Repr

namespace Operator

def spelling : Operator → Text
  | greaterEqual => ['>', '=']
  | lessEqual => ['<', '=']
  | equal => ['=']
  | greater => ['>']
  | less => ['<']

/-- The order in which operators are tried at one place of a text. -/
def priority : List Operator := [greaterEqual, lessEqual, equal, greater, less]

def holds : Operator → Ordering → Bool
  | greaterEqual, o => o.isGE
  | lessEqual, o => o.isLE
  | equal, o => o.isEq
  | greater, o => o.isGT
  | less, o => o.isLT

def leading? (t : Text) : Option (Operator × Text) :=
  priority.findSome? fun op => (Text.dropPrefix? op.spelling t).map (op, ·)

theorem mem_priority (op : Operator) : op ∈ priority := by cases op <;> decide

theorem spelling_ne_nil (op : Operator) : op.spelling ≠ [] := by cases op <;> decide

theorem append_of_leading? {op : Operator} {t r : Text} (h : leading? t = some (op, r)) :
    t = op.spelling ++ r := by
  obtain ⟨op', -, h⟩ := List.exists_of_findSome?_eq_some h
  obtain ⟨r', hr, he⟩ := Option.map_eq_some_iff.mp h
  cases he
  exact Text.dropPrefix?_eq_some_iff.mp hr

end Operator

end LineScript
