import LineScript.Event
import LineScript.Limits
import LineScript.Output
import LineScript.Session.Basic

/-! # The machine

A machine is a session in the middle of a run: besides the session it has the output so far, the
counters that the limits bound, and the events reported. An action on a machine may fail with an
error, and what it changed before it failed stays changed.
-/

namespace LineScript

structure Machine extends Session where
  output : Output := {}
  depth : Nat := 0
  nesting : Nat := 0
  steps : Nat := 0
  /-- The events so far, latest first. -/
  events : List Event := []
  deriving DecidableEq, Repr

abbrev Exec := EStateM Error Machine

namespace Machine

/-- The machine with which a run begins: an interrupt that was pending before is forgotten. -/
def ofSession (g : Guard) (s : Session) : Machine := { s with interrupted := g.alarm == some 0 }

def report (m : Machine) (e : Event) : Machine := { m with events := e :: m.events }

def skip (m : Machine) (e : Error) : Machine :=
  { m.report (.skipped e) with output := m.output.diagnostic e }

def enterBlock (m : Machine) : Machine := { m with nesting := m.nesting + 1 }

def leaveBlock (m : Machine) : Machine := { m with nesting := m.nesting - 1 }

def enterCall (m : Machine) : Machine := { m with depth := m.depth + 1 }

def leaveCall (m : Machine) : Machine := { m with depth := m.depth - 1 }

end Machine

namespace Exec

def report (e : Event) : Exec Unit := modify (·.report e)

/-- Runs an action between two changes of the machine, the second made however the action ends. -/
def between (enter leave : Machine → Machine) (act : Exec Unit) : Exec Unit := fun m =>
  match act (enter m) with
  | .ok a m => .ok a (leave m)
  | .error e m => .error e (leave m)

def ofExcept {α : Type} : Except Error α → Exec α
  | .ok a => pure a
  | .error e => throw e

/--
Counts the statement that starts at a line. A pending interrupt is taken first, and stops the
run; then the limit on steps is checked.
-/
def tick (g : Guard) (l : Line) : Exec Unit := do
  if (← get).interrupted then
    modify fun m => { m with interrupted := false }
    throw ⟨.interrupted, some l, []⟩
  modify fun m => { m with steps := m.steps + 1 }
  if g.maxSteps < (← get).steps then
    throw (.ofLimit .steps l g.maxSteps)

theorem tick_apply (g : Guard) (l : Line) (m : Machine) :
    tick g l m =
      if m.interrupted then
        .error ⟨.interrupted, some l, []⟩ { m with interrupted := false }
      else if g.maxSteps < m.steps + 1 then
        .error (.ofLimit .steps l g.maxSteps) { m with steps := m.steps + 1 }
      else .ok () { m with steps := m.steps + 1 } := by
  obtain ⟨⟨vars, functions, interrupted⟩, output, depth, nesting, steps, events⟩ := m
  cases interrupted with
  | true => rfl
  | false =>
    rw [if_neg Bool.false_ne_true]
    change (if g.maxSteps < steps + 1 then throw (.ofLimit .steps l g.maxSteps) else pure () :
      Exec Unit) _ = _
    split <;> rfl

/-- Reports the statement counted last; an interrupt that arrives with it becomes pending. -/
def announce (g : Guard) (l : Line) : Exec Unit :=
  modify fun m =>
    { m.report (.executed l) with interrupted := m.interrupted || g.alarm == some m.steps }

end Exec

end LineScript
