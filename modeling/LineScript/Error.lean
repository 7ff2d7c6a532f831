import LineScript.Line

/-! # Errors

An error has a kind, and may have the line where it arose and a detail. The two kinds that are
diagnostics are written to the output and stop nothing; all others end a run.
-/

namespace LineScript

inductive ErrorKind where
  | malformed
  | unterminated
  | undefinedFunction
  | unrecognized
  | callDepth
  | steps
  | nesting
  | interrupted
  | internal
  | fileNotFound
  deriving DecidableEq, Repr

namespace ErrorKind

def code : ErrorKind → Nat
  | malformed => 2
  | unterminated => 3
  | undefinedFunction => 18
  | unrecognized => 21
  | callDepth => 24
  | steps => 25
  | nesting => 26
  | interrupted => 27
  | internal => 51
  | fileNotFound => 53

def title : ErrorKind → String
  | malformed => "SYNTAX ERROR"
  | unterminated => "UNTERMINATED BLOCK"
  | undefinedFunction => "UNDEFINED FUNCTION"
  | unrecognized => "UNRECOGNIZED STATEMENT"
  | callDepth => "CALL DEPTH EXCEEDED"
  | steps => "EXECUTION STEPS EXCEEDED"
  | nesting => "NESTING TOO DEEP"
  | interrupted => "BREAK"
  | internal => "INTERNAL ERROR"
  | fileNotFound => "FILE NOT FOUND"

def isDiagnostic : ErrorKind → Bool
  | undefinedFunction | unrecognized => true
  | _ => false

def isLimit : ErrorKind → Bool
  | callDepth | steps | nesting => true
  | _ => false

end ErrorKind

structure Error where
  kind : ErrorKind
  line : Option Line := none
  detail : Text := []
  deriving DecidableEq, Repr

namespace Error

def isDiagnostic (e : Error) : Bool := e.kind.isDiagnostic

def lineNumber? (e : Error) : Option Nat := e.line.map Line.number

/-- The place named in a message: the number of the line, and its text unless that is empty. -/
def place (l : Line) : Text :=
  " IN ".toList ++ Text.ofNat l.number ++ if l.text.isEmpty then [] else ':' :: ' ' :: l.text

/-- Title, place and detail; what is absent or empty leaves no trace. -/
def message (e : Error) : Text :=
  e.kind.title.toList ++ (e.line.map place).getD [] ++
    if e.detail.isEmpty then [] else ';' :: ' ' :: e.detail

def marked (e : Error) : Text := "Error \x7b ".toList ++ e.message ++ " \x7d".toList

def ofFault (l : Line) (f : Fault) : Error := ⟨.malformed, some l, f.message⟩

/-- The error of a header whose block is not closed. -/
def ofOpenBlock (l : Line) (b : Block) : Error :=
  ⟨.unterminated, some l, "EXPECTED ".toList ++ b.closer.spelling⟩

/-- The error of a line that would pass a limit of a run. -/
def ofLimit (k : ErrorKind) (l : Line) (limit : Nat) : Error :=
  ⟨k, some l, "LIMIT IS ".toList ++ Text.ofNat limit⟩

end Error

end LineScript
