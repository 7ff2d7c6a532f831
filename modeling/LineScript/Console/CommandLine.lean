import LineScript.Console.Dialogue
import LineScript.Console.Folder

/-! # The command line

Arguments are taken from left to right. The first fault, and the first request for the version or
for help, settle the matter; what stands after them is not looked at.
-/

namespace LineScript

inductive LimitOption where
  | callDepth
  | nesting
  | steps
  deriving DecidableEq, Repr

namespace LimitOption

def all : List LimitOption := [callDepth, nesting, steps]

def name : LimitOption → String
  | callDepth => "--max-call-depth"
  | nesting => "--max-nesting"
  | steps => "--max-steps"

end LimitOption

/-- One argument, by its shape alone. -/
inductive Argument where
  | limit (option : LimitOption) (value : Option Text)
  | version
  | help
  | separator
  | file (path : Text)
  | unknown

inductive UsageFault where
  | unknownArgument (arg : Text)
  | secondFile (arg : Text)
  | emptyFile
  | noValue (option : LimitOption)
  | badValue (option : LimitOption) (value : Text)
  | repeated (option : LimitOption)
  deriving DecidableEq, Repr

inductive Request where
  | version
  | help
  | start (limits : Limits) (file : Option Text)

namespace Argument

/-- A limit's name by itself, or joined to its value by an equals sign. -/
def ofOption? (t : Text) (o : LimitOption) : Option Argument :=
  match Text.dropPrefix? o.name.toList t with
  | some [] => some (.limit o none)
  | some ('=' :: value) => some (.limit o (some value))
  | _ => none

def ofText (t : Text) : Argument :=
  match t with
  | '-' :: '-' :: rest =>
    if rest = [] then separator
    else if rest = "version".toList then version
    else if rest = "help".toList then help
    else (LimitOption.all.findSome? (ofOption? t)).getD unknown
  | '-' :: 'V' :: _ => version
  | '-' :: 'h' :: _ => help
  | '-' :: _ :: _ => unknown
  | _ => file t

end Argument

namespace CommandLine

def maxLimit : Nat := 18446744073709551615

/-- Decimal digits, with a plus sign in front or not. -/
def readLimit? (t : Text) : Option Nat :=
  let digits := match t with
    | '+' :: t => t
    | t => t
  let n := Numeral.valueOfDigits digits
  if digits.isEmpty || !digits.all Char.isDigit || maxLimit < n then none else some n

structure Given where
  callDepth : Option Nat := none
  nesting : Option Nat := none
  steps : Option Nat := none
  file : Option Text := none

namespace Given

def get? (g : Given) : LimitOption → Option Nat
  | .callDepth => g.callDepth
  | .nesting => g.nesting
  | .steps => g.steps

def set (g : Given) (n : Nat) : LimitOption → Given
  | .callDepth => { g with callDepth := some n }
  | .nesting => { g with nesting := some n }
  | .steps => { g with steps := some n }

def giveLimit (g : Given) (o : LimitOption) (value : Text) : Except UsageFault Given :=
  match readLimit? value, g.get? o with
  | none, _ => .error (.badValue o value)
  | some _, some _ => .error (.repeated o)
  | some n, none => .ok (g.set n o)

def giveFile (g : Given) (path : Text) : Except UsageFault Given :=
  match path, g.file with
  | _, some _ => .error (.secondFile path)
  | [], none => .error .emptyFile
  | _, none => .ok { g with file := some path }

def request (g : Given) : Request :=
  let limits : Limits := {}
  .start
    { maxCallDepth := g.callDepth.getD limits.maxCallDepth
      maxNesting := g.nesting.getD limits.maxNesting
      maxSteps := g.steps.getD limits.maxSteps }
    g.file

end Given

/-- Reads the arguments after what has been given so far. -/
def parseFrom (g : Given) : List Text → Except UsageFault Request
  | [] => .ok g.request
  | arg :: rest =>
    match Argument.ofText arg with
    | .version => .ok .version
    | .help => .ok .help
    | .unknown => .error (.unknownArgument arg)
    | .separator => (rest.foldlM Given.giveFile g).map Given.request
    | .file path => (g.giveFile path).bind (parseFrom · rest)
    | .limit o (some value) => (g.giveLimit o value).bind (parseFrom · rest)
    | .limit o none =>
      match rest with
      | [] => .error (.noValue o)
      | value :: rest => (g.giveLimit o value).bind (parseFrom · rest)

def parse (args : List Text) : Except UsageFault Request := parseFrom {} args

def versionText : Text := "kjpl 0.1.0\n".toList

/--
Runs the program with these arguments in a folder, with nothing to read from its input. Help and
faults have no text here.
-/
def run (here : Node) (args : List Text) : Outcome :=
  match parse args with
  | .error _ => { code := 2 }
  | .ok .version => { stdout := versionText }
  | .ok .help => {}
  | .ok (.start limits (some path)) => .ofSource { limits with } (here.load path)
  | .ok (.start limits none) => (Dialogue.start { limits with } none []).outcome

end CommandLine

end LineScript
