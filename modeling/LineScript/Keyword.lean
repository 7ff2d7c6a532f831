import LineScript.Text.Blank

/-! # Keywords

The reserved words of the language. A word that may begin a line does so only when it is set off
from what follows: by the end of the line, by a blank, or, for `PRINT`, by a left parenthesis.
-/

namespace LineScript

inductive Keyword where
  | asFunction
  | call
  | define
  | else_
  | endCase
  | endFunction
  | endIf
  | if_
  | print
  | revelationCase
  | then_
  | when
  deriving DecidableEq, Repr

namespace Keyword

def spelling : Keyword → Text
  | asFunction => ['A', 'S', ' ', 'F', 'U', 'N', 'C', 'T', 'I', 'O', 'N']
  | call => ['C', 'A', 'L', 'L']
  | define => ['D', 'E', 'F', 'I', 'N', 'E']
  | else_ => ['E', 'L', 'S', 'E']
  | endCase => ['E', 'N', 'D', 'C', 'A', 'S', 'E']
  | endFunction => ['E', 'N', 'D', 'F', 'U', 'N', 'C', 'T', 'I', 'O', 'N']
  | endIf => ['E', 'N', 'D', 'I', 'F']
  | if_ => ['I', 'F']
  | print => ['P', 'R', 'I', 'N', 'T']
  | revelationCase => ['R', 'E', 'V', 'E', 'L', 'A', 'T', 'I', 'O', 'N', '_', 'C', 'A', 'S', 'E']
  | then_ => ['T', 'H', 'E', 'N']
  | when => ['W', 'H', 'E', 'N']

def all : List Keyword :=
  [asFunction, call, define, else_, endCase, endFunction, endIf, if_, print, revelationCase,
    then_, when]

/-- The words that may begin a line, longest first. -/
def leading : List Keyword :=
  [revelationCase, endFunction, endCase, define, endIf, print, else_, when, call, if_]

/-- Terminators close or divide a block and have no effect of their own. -/
def isTerminator : Keyword → Bool
  | else_ | endCase | endFunction | endIf | when => true
  | _ => false

/-- Whether the word, followed by this text, is set off from it. -/
def isSetOff (k : Keyword) : Text → Bool
  | [] => true
  | c :: _ => Text.isBlank c || (k == print && c == '(')

/-- The text after the word, if the text begins with the word and sets it off. -/
def after? (k : Keyword) (t : Text) : Option Text :=
  (Text.dropPrefix? k.spelling t).filter k.isSetOff

def leading? (t : Text) : Option (Keyword × Text) :=
  leading.findSome? fun k => (k.after? t).map (k, ·)

theorem spelling_ne_nil (k : Keyword) : k.spelling ≠ [] := by cases k <;> decide

theorem after?_eq_some_iff {k : Keyword} {t r : Text} :
    k.after? t = some r ↔ t = k.spelling ++ r ∧ k.isSetOff r = true := by
  simp [after?, Option.filter_eq_some_iff, Text.dropPrefix?_eq_some_iff]

end Keyword

end LineScript
