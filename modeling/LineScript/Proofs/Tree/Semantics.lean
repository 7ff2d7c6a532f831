import LineScript.Proofs.Tree.Basic

/-! # Running trees

Trees run by their structure: a conditional runs one of its forests, a selection the first arm that
its value names or else the first `ELSE`, a definition keeps its forest, and a call runs the forest
that is kept at that moment. No line is looked for. The checks and the reports are those of the
machine.
-/

namespace LineScript

/-- A machine that keeps forests for functions. -/
structure Grove where
  /-- All but the functions; the functions of this machine itself are never used. -/
  machine : Machine
  bodies : Table Forest := {}

abbrev Walk := EStateM Error Grove

namespace Walk

def ofExec {α : Type} (act : Exec α) : Walk α := fun s =>
  match act s.machine with
  | .ok a m => .ok a { s with machine := m }
  | .error e m => .error e { s with machine := m }

def start (g : Guard) (l : Line) : Walk Unit :=
  ofExec do
    Exec.tick g l
    Exec.announce g l

def decide (c : Condition) : Walk Bool :=
  ofExec do
    let taken ← Exec.decideCondition c
    Exec.report (.branched taken)
    return taken

def between (enter leave : Machine → Machine) (act : Walk Unit) : Walk Unit := fun s =>
  match act { s with machine := enter s.machine } with
  | .ok a s => .ok a { s with machine := leave s.machine }
  | .error e s => .error e { s with machine := leave s.machine }

/-- Runs what stands under a line one level deeper, unless that would pass the limit on nesting. -/
def deeper (g : Guard) (l : Line) (act : Walk Unit) : Walk Unit := do
  if g.maxNesting ≤ (← get).machine.nesting then
    throw (.ofLimit .nesting l g.maxNesting)
  else
    between Machine.enterBlock Machine.leaveBlock act

def keep (name : Text) (body : Forest) : Walk Unit := do
  ofExec (Exec.report (.defined name body.lines.length))
  modify fun s => { s with bodies := s.bodies.insert name body }

abbrev Caller := Line → Text → Forest → Walk Unit

def choose? {α : Type} (arms : List (Option Text × α)) (label : Text) : Option (Option Text × α) :=
  (arms.find? (·.1 == some label)).or (arms.find? (·.1 == none))

end Walk

open Walk

def Simple.run (caller : Caller) (l : Line) : Simple → Walk Unit
  | assign name value => ofExec (Exec.assign name value)
  | print e => ofExec (Exec.print e)
  | call name => do
    match (← get).bodies.get? name with
    | none => ofExec (modify (·.skip ⟨.undefinedFunction, some l, []⟩))
    | some body => caller l name body
  | unrecognized => ofExec (modify (·.skip ⟨.unrecognized, some l, []⟩))

mutual

def Tree.run (g : Guard) (caller : Caller) : Tree → Walk Unit
  | .simple s l => do
    start g l.line
    s.run caller l.line
  | .conditional condition header yes _ => do
    start g header.line
    if ← decide condition then
      deeper g header.line (yes.run g caller)
    else
      pure ()
  | .alternative condition header yes _ no _ => do
    start g header.line
    if ← decide condition then
      deeper g header.line (yes.run g caller)
    else
      deeper g header.line (no.run g caller)
  | .selection name header _ arms _ => do
    start g header.line
    match choose? (arms.runs g caller) ((← get).machine.vars.fetch name).text with
    | some (label, act) => do
      ofExec (Exec.report (.selected label))
      deeper g header.line act
    | none => pure ()
  | .definition name header body _ => do
    start g header.line
    keep name body

def Forest.run (g : Guard) (caller : Caller) : Forest → Walk Unit
  | .nil => pure ()
  | .cons t f => do
    t.run g caller
    f.run g caller

/-- What running each of the arms would be. -/
def Arms.runs (g : Guard) (caller : Caller) : Arms → List (Option Text × Walk Unit)
  | .nil => []
  | .cons label _ body arms => (label, body.run g caller) :: arms.runs g caller

end

namespace Walk

/--
Calls a function, unless that would pass the limit on calls. Started with the limit itself, `calls`
runs out only where the counter has reached the limit.
-/
def call (g : Guard) : (calls : Nat) → Caller
  | 0, l, _, _ => throw (.ofLimit .callDepth l g.maxCallDepth)
  | calls + 1, l, name, body => do
    let depth := (← get).machine.depth
    if g.maxCallDepth ≤ depth then
      throw (.ofLimit .callDepth l g.maxCallDepth)
    else
      ofExec (Exec.report (.called name (depth + 1)))
      between Machine.enterCall Machine.leaveCall (deeper g l (body.run g (call g calls)))

end Walk

def Forest.exec (g : Guard) (f : Forest) : Walk Unit := f.run g (Walk.call g g.maxCallDepth)

end LineScript
