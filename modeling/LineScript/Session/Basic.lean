import LineScript.Variables
import LineScript.Line

/-! # Sessions

What lasts from one program to the next: the variables, the functions, and whether an interrupt
is pending. A function is kept as the lines of its body, unread.
-/

namespace LineScript

abbrev Functions := Table (List Line)

structure Session where
  vars : Variables := {}
  functions : Functions := {}
  interrupted : Bool := false
  deriving DecidableEq, Repr

namespace Session

def reset (s : Session) : Session := { s with vars := {}, functions := {} }

/-- Asks the running program to stop at its next statement. -/
def interrupt (s : Session) : Session := { s with interrupted := true }

end Session

end LineScript
