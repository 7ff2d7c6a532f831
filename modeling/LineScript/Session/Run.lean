import LineScript.Machine.Execution

/-! # Running a program in a session

A run reads the whole source, executes it, and reports how it ended. Whatever the run changed in
the session stays changed when it fails; only its output is dropped.
-/

namespace LineScript

/-- How a run ended: what it shows, or the error that stopped it, and the machine it left. -/
structure Report where
  result : Except Error Text
  machine : Machine

namespace Report

def session (r : Report) : Session := r.machine.toSession

def events (r : Report) : List Event := r.machine.events.reverse

end Report

namespace Session

def execute (g : Guard) (source : Text) : Exec Unit := do
  let ls := Line.split source
  Exec.report (.started ls.length)
  Exec.run g (← Exec.ofExcept (Program.ofLines ls))

def run (g : Guard) (s : Session) (source : Text) : Report :=
  match execute g source (.ofSession g s) with
  | .ok _ m => ⟨.ok m.output.shown, m.report (.finished m.steps)⟩
  | .error e m => ⟨.error e, m.report (.aborted e)⟩

end Session

end LineScript
