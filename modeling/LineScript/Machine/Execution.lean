import LineScript.Nesting
import LineScript.Machine.Basic

/-! # Execution

A command is executed with the commands that follow it in its segment, and says how many of those
it has dealt with. Bodies of blocks and of functions run one level deeper, through the argument
`inner`; the levels that the nesting limit leaves open are the measure of the recursion.
-/

namespace LineScript.Exec

/-- How the body under a line is run one level deeper. -/
abbrev Runner := Line → Program → Exec Unit

def closing (b : Block) (l : Line) (rest : Program) : Exec Nat :=
  match rest.closer? b with
  | some i => pure i
  | none => throw (.ofOpenBlock l b)

def assign (name value : Text) : Exec Unit :=
  modify fun m => { m with vars := m.vars.store name (.read value) }

def print (e : Expression) : Exec Unit :=
  modify fun m =>
    let text := match e with
      | .literal text => text
      | .token token => (m.vars.resolve token).text
    { m with output := m.output.print text }

/-- Decides a condition; an invalid one is reported, and false. -/
def decideCondition : Condition → Exec Bool
  | .compare lhs op rhs => do
    let vars := (← get).vars
    return (vars.resolve lhs).satisfies op (vars.resolve rhs)
  | .invalid text => do
    report (.undecided text)
    return false

/-- Runs what precedes or what follows the `ELSE` of a conditional, as its condition says. -/
def branch (inner : Runner) (l : Line) (condition : Condition) (rest : Program) : Exec Nat := do
  let stop ← closing .conditional l rest
  let body : Program := rest.take stop
  let taken ← decideCondition condition
  report (.branched taken)
  match taken, body.otherwise? with
  | true, some i => inner l (body.take i)
  | true, none => inner l body
  | false, some i => inner l (body.drop (i + 1))
  | false, none => pure ()
  return stop + 1

/-- Runs the arm of a selection that the value of its variable chooses, if there is one. -/
def select (inner : Runner) (l : Line) (name : Text) (rest : Program) : Exec Nat := do
  let stop ← closing .selection l rest
  let body : Program := rest.take stop
  let value := (← get).vars.fetch name
  match Arm.choose? body.arms value.text with
  | some arm =>
    report (.selected arm.label)
    inner l (body.slice arm.start arm.stop)
  | none => pure ()
  return stop + 1

/-- Keeps the lines of a function body, without running them. -/
def define (l : Line) (name : Text) (rest : Program) : Exec Nat := do
  let stop ← closing .function l rest
  let body := Program.lines (rest.take stop)
  report (.defined name body.length)
  modify fun m => { m with functions := m.functions.insert name body }
  return stop + 1

/-- Reads and runs the body that the function has at this moment. -/
def call (g : Guard) (inner : Runner) (l : Line) (name : Text) : Exec Unit := do
  let m ← get
  match m.functions.get? name with
  | none => modify (·.skip ⟨.undefinedFunction, some l, []⟩)
  | some body =>
    if g.maxCallDepth ≤ m.depth then
      throw (.ofLimit .callDepth l g.maxCallDepth)
    let p ← ofExcept (Program.ofLines body)
    report (.called name (m.depth + 1))
    between Machine.enterCall Machine.leaveCall (inner l p)

/-- Executes a command; the result is the number of commands after it that are done with. -/
def execute (g : Guard) (inner : Runner) (c : Command) (rest : Program) : Exec Nat := do
  tick g c.line
  announce g c.line
  match c.statement with
  | .assign name value => assign name value; return 0
  | .print e => print e; return 0
  | .ifThen condition => branch inner c.line condition rest
  | .caseOf name => select inner c.line name rest
  | .define name => define c.line name rest
  | .call name => call g inner c.line name; return 0
  | .otherwise | .when _ | .close _ => return 0
  | .unrecognized => modify (·.skip ⟨.unrecognized, some c.line, []⟩); return 0

/-- Executes the commands of a segment in order, after passing over the first `skip` of them. -/
def runFrom (g : Guard) (inner : Runner) : (skip : Nat) → Program → Exec Unit
  | _, [] => pure ()
  | 0, c :: p => do
    let done ← execute g inner c p
    runFrom g inner done p
  | skip + 1, _ :: p => runFrom g inner skip p

/--
Runs a body one level deeper, unless that would pass the limit on nesting. Started with the limit
itself, `room` runs out only where the counter has reached the limit.
-/
def nested (g : Guard) : (room : Nat) → Runner
  | 0, l, _ => throw (.ofLimit .nesting l g.maxNesting)
  | room + 1, l, p => do
    if g.maxNesting ≤ (← get).nesting then
      throw (.ofLimit .nesting l g.maxNesting)
    between Machine.enterBlock Machine.leaveBlock (runFrom g (nested g room) 0 p)

def run (g : Guard) (p : Program) : Exec Unit := runFrom g (nested g g.maxNesting) 0 p

end LineScript.Exec
