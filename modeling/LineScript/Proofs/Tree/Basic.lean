import LineScript.Machine.Execution
import LineScript.Proofs.Nesting.Division

/-! # Program trees

A tree is a statement with all that belongs to it: the lines of its own, and the forests between
them. A line of a tree is one that reads as the statement which the tree needs there, so a tree
can always be written out; its flattening lists its lines in order.
-/

namespace LineScript

/-- A line that reads as the statement `s`. -/
structure LineOf (s : Statement) where
  line : Line
  reads : Statement.read line.text = .ok s

def LineOf.command {s : Statement} (l : LineOf s) : Command := ⟨l.line, s⟩

/-- The statements that are whole by themselves. -/
inductive Simple where
  | assign (name value : Text)
  | print (expression : Expression)
  | call (name : Text)
  | unrecognized

def Simple.statement : Simple → Statement
  | assign name value => .assign name value
  | print e => .print e
  | call name => .call name
  | unrecognized => .unrecognized

mutual

inductive Tree where
  | simple (s : Simple) (l : LineOf s.statement)
  | conditional (condition : Condition) (header : LineOf (.ifThen condition)) (yes : Forest)
      (closer : LineOf (.close .conditional))
  | alternative (condition : Condition) (header : LineOf (.ifThen condition)) (yes : Forest)
      (divider : LineOf .otherwise) (no : Forest) (closer : LineOf (.close .conditional))
  | selection (name : Text) (header : LineOf (.caseOf name)) (prelude : Forest) (arms : Arms)
      (closer : LineOf (.close .selection))
  | definition (name : Text) (header : LineOf (.define name)) (body : Forest)
      (closer : LineOf (.close .function))

inductive Forest where
  | nil
  | cons (t : Tree) (f : Forest)

/-- The arms of a selection, each with its label, or none for `ELSE`. -/
inductive Arms where
  | nil
  | cons (label : Option Text) (marker : LineOf (.marker label)) (body : Forest) (arms : Arms)

end

mutual

def Tree.flatten : Tree → Program
  | .simple _ l => [l.command]
  | .conditional _ header yes closer => header.command :: (yes.flatten ++ [closer.command])
  | .alternative _ header yes divider no closer =>
    header.command :: (yes.flatten ++ divider.command :: no.flatten ++ [closer.command])
  | .selection _ header prelude arms closer =>
    header.command :: (prelude.flatten ++ arms.flatten ++ [closer.command])
  | .definition _ header body closer => header.command :: (body.flatten ++ [closer.command])

def Forest.flatten : Forest → Program
  | .nil => []
  | .cons t f => t.flatten ++ f.flatten

def Arms.flatten : Arms → Program
  | .nil => []
  | .cons _ marker body arms => marker.command :: (body.flatten ++ arms.flatten)

end

def Forest.lines (f : Forest) : List Line := f.flatten.lines

def Arms.toList : Arms → List (Option Text × Forest)
  | .nil => []
  | .cons label _ body arms => (label, body) :: arms.toList

end LineScript
