import LineScript.Error

/-! # Events

A run reports what it does as a sequence of events. An event has a level, a message and named
fields.
-/

namespace LineScript

inductive Level where
  | trace
  | debug
  | warn
  deriving DecidableEq, Repr

def Level.display : Level → String
  | trace => "TRACE"
  | debug => "DEBUG"
  | warn => "WARN"

inductive Event where
  | started (lines : Nat)
  | executed (line : Line)
  | branched (taken : Bool)
  | selected (label : Option Text)
  | defined (name : Text) (lines : Nat)
  | called (name : Text) (depth : Nat)
  | skipped (error : Error)
  | undecided (condition : Text)
  | finished (steps : Nat)
  | aborted (error : Error)
  deriving DecidableEq, Repr

inductive Field where
  | number (n : Nat)
  | flag (b : Bool)
  | text (t : Text)
  deriving DecidableEq, Repr

namespace Text

def isControl (c : Char) : Bool := c.toNat < 0x20 || (0x7F ≤ c.toNat && c.toNat < 0xA0)

/--
A character as it is shown in quotes. A control character and a blank other than the space stand
there by a letter or by code point; characters that join others or show nothing stand as they are.
-/
def escape (c : Char) : Text :=
  match c with
  | '"' | '\\' => ['\\', c]
  | '\x00' => ['\\', '0']
  | '\t' => ['\\', 't']
  | '\n' => ['\\', 'n']
  | '\r' => ['\\', 'r']
  | ' ' => [' ']
  | _ =>
    if isControl c || isBlank c then
      ['\\', 'u', '\x7b'] ++ Nat.toDigits 16 c.toNat ++ ['\x7d']
    else [c]

def quoted (t : Text) : Text := '"' :: t.flatMap escape ++ ['"']

end Text

namespace Event

def level : Event → Level
  | executed _ | branched _ | selected _ => .trace
  | skipped _ => .warn
  | _ => .debug

def message : Event → String
  | started _ => "compile"
  | executed _ => "execute"
  | branched _ => "if"
  | selected _ => "case"
  | defined .. => "define"
  | called .. => "call"
  | skipped _ => "skipped"
  | undecided _ => "no operator, condition is false"
  | finished _ => "finished"
  | aborted _ => "aborted"

def showLabel : Option Text → Text
  | none => ['N', 'o', 'n', 'e']
  | some t => 'S' :: 'o' :: 'm' :: 'e' :: '(' :: Text.quoted t ++ [')']

def fields : Event → List (String × Field)
  | started n => [("lines", .number n)]
  | executed l => [("line", .number l.number), ("text", .text l.text)]
  | branched b => [("taken", .flag b)]
  | selected l => [("label", .text (showLabel l))]
  | defined name n => [("function", .text name), ("lines", .number n)]
  | called name d => [("function", .text name), ("depth", .number d)]
  | skipped e | aborted e => [("error", .text e.message)]
  | undecided t => [("condition", .text t)]
  | finished n => [("steps", .number n)]

end Event

end LineScript
