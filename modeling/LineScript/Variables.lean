import LineScript.Table
import LineScript.Value.Basic

/-! # Variables

One table of values for the whole session. A variable that was never set reads as the empty
string, and a token that names no variable stands for itself.
-/

namespace LineScript

abbrev Variables := Table Value

namespace Variables

def fetch (vars : Variables) (name : Text) : Value := (vars.get? name).getD default

/-- What a token stands for: the variable it names, or else the value it spells. -/
def resolve (vars : Variables) (token : Text) : Value :=
  (vars.get? (Text.trim token)).getD (Value.read token)

def store (vars : Variables) (name : Text) (v : Value) : Variables := vars.insert name v

end Variables

end LineScript
