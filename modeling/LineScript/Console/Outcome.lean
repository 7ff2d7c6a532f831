import LineScript.Text.Lines
import LineScript.Session.Run

/-! # Outcomes

What a finished process leaves behind: an exit code and what it wrote.
-/

namespace LineScript

structure Outcome where
  code : Nat := 0
  stdout : Text := []
  stderr : Text := []
  deriving DecidableEq, Repr

/-- The text between the escape sequences that switch bold type on and off. -/
def Text.bold (t : Text) : Text := "\x1b[1m".toList ++ t ++ "\x1b[0m".toList

namespace Outcome

/-- The outcome of running one source, or of failing to load it. -/
def ofSource (g : Guard) (source : Except Error Text) : Outcome :=
  match source.bind fun t => (Session.run g {} t).result with
  | .ok output => { stdout := Text.chomp output ++ ['\n'] }
  | .error e => { code := 1, stderr := Text.bold ("Error: ".toList ++ e.message) ++ ['\n'] }

end Outcome

end LineScript
