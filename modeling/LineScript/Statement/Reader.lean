import LineScript.Text.Name
import LineScript.Statement.Basic
import LineScript.Statement.Fault

/-! # Reading a statement

A line is an assignment if it has the shape of one, whatever its name; otherwise its leading
keyword decides how the rest is read, and a line with neither is not recognized. The edge of a
line, which needs no more than the leading keyword, is also defined for malformed lines.
-/

namespace LineScript.Statement

open Text

/-- The name and the trimmed value of `name = value`; one space stands before the sign. -/
def assignment? (t : Text) : Option (Text × Text) :=
  match t.takeWhile isNameChar, t.dropWhile isNameChar with
  | c :: name, ' ' :: '=' :: value => some (c :: name, trim value)
  | _, _ => none

/-- The argument of `PRINT`. Empty quotes are a token, not a literal. -/
def readPrint (t : Text) : Except Fault Statement :=
  match dropPrefix? ['('] t with
  | none => .error .noLeftParenthesis
  | some t =>
    match dropSuffix? [')'] t with
    | none => .error .noRightParenthesis
    | some t =>
      let inner := trim t
      if inner.isEmpty then .error .noExpression
      else match unquote? inner with
        | some (c :: text) => .ok (.print (.literal (c :: text)))
        | _ => .ok (.print (.token inner))

/-- The header of a conditional; a blank sets its `THEN` off. -/
def readIf (t : Text) : Except Fault Statement :=
  match (dropSuffix? Keyword.then_.spelling t).filter endsBlank with
  | none => .error .noThen
  | some t =>
    let condition := trim t
    if condition.isEmpty then .error .noCondition
    else .ok (.ifThen (.ofText condition))

/-- The header of a selection, which takes any text for the name of its variable. -/
def readCase (t : Text) : Except Fault Statement :=
  if t.isEmpty then .error .noName else .ok (.caseOf t)

def readDefine (t : Text) : Except Fault Statement :=
  match dropSuffix? Keyword.asFunction.spelling t with
  | none => .error .noAsFunction
  | some t => if isName (trim t) then .ok (.define (trim t)) else .error .noName

def readCall (t : Text) : Except Fault Statement :=
  if isName t then .ok (.call t) else .error .noName

def readWhen (t : Text) : Except Fault Statement :=
  match dropSuffix? Keyword.then_.spelling t with
  | none => .error .noLabel
  | some t =>
    match unquote? (trim t) with
    | none => .error .noLabel
    | some label => .ok (.when label)

def readBare (word : Keyword) (s : Statement) (t : Text) : Except Fault Statement :=
  if t.isEmpty then .ok s else .error (.trailingText word)

def readAfter : Keyword → Text → Except Fault Statement
  | .print, t => readPrint t
  | .if_, t => readIf t
  | .revelationCase, t => readCase t
  | .define, t => readDefine t
  | .call, t => readCall t
  | .when, t => readWhen t
  | .else_, t => readBare .else_ .otherwise t
  | .endIf, t => readBare .endIf (.close .conditional) t
  | .endCase, t => readBare .endCase (.close .selection) t
  | .endFunction, t => readBare .endFunction (.close .function) t
  | .asFunction, _ | .then_, _ => .ok .unrecognized

/-- Reads the statement on a trimmed line. -/
def read (t : Text) : Except Fault Statement :=
  match assignment? t with
  | some (name, value) => .ok (.assign name value)
  | none =>
    match Keyword.leading? t with
    | some (word, rest) => readAfter word (trim rest)
    | none => .ok .unrecognized

def edgeOfWord : Keyword → Option Edge
  | .if_ => some (.opens .conditional)
  | .revelationCase => some (.opens .selection)
  | .define => some (.opens .function)
  | .endIf => some (.closes .conditional)
  | .endCase => some (.closes .selection)
  | .endFunction => some (.closes .function)
  | _ => none

/-- The edge of a trimmed line, well formed or not: an unfinished `IF` opens its block too. -/
def edge? (t : Text) : Option Edge :=
  match assignment? t with
  | some _ => none
  | none => (Keyword.leading? t).bind fun (word, _) => edgeOfWord word

end LineScript.Statement
