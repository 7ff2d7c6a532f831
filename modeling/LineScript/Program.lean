import LineScript.Error

/-! # Programs

A program is a list of commands, each a line with the statement read from it. Every line is read
before any runs, so one malformed line keeps the whole program from starting.
-/

namespace LineScript

structure Command where
  line : Line
  statement : Statement
  deriving DecidableEq, Repr

def Command.ofLine (l : Line) : Except Error Command :=
  match Statement.read l.text with
  | .ok s => .ok ⟨l, s⟩
  | .error f => .error (.ofFault l f)

abbrev Program := List Command

namespace Program

/-- Reads every line, or gives the error of the first one that is malformed. -/
def ofLines : List Line → Except Error Program
  | [] => .ok []
  | l :: ls =>
    match Command.ofLine l with
    | .error e => .error e
    | .ok c =>
      match ofLines ls with
      | .error e => .error e
      | .ok p => .ok (c :: p)

def ofText (source : Text) : Except Error Program := ofLines (Line.split source)

def lines (p : Program) : List Line := p.map Command.line

def statements (p : Program) : List Statement := p.map Command.statement

theorem lines_of_ofLines {ls : List Line} {p : Program} (h : ofLines ls = .ok p) :
    p.lines = ls := by
  induction ls generalizing p with
  | nil => cases h; rfl
  | cons l ls ih =>
    unfold ofLines Command.ofLine at h
    cases hr : Statement.read l.text with
    | error f => simp [hr] at h
    | ok s =>
      cases hp : ofLines ls with
      | error e => simp [hr, hp] at h
      | ok q =>
        simp only [hr, hp, Except.ok.injEq] at h
        subst h
        simp [lines, ← ih hp]

end Program

end LineScript
