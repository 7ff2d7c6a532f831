import LineScript.Console.CommandLine

/-! # The program

Reads files and the terminal, and hands everything else to the library. What is said about usage, in
answer to a request for help or to a fault, has a wording of its own here; only the exit code is
fixed.
-/

namespace LineScript

def ReadFailure.ofIOError : IO.Error → ReadFailure
  | .noFileOrDirectory .. => .notFound
  | .inappropriateType _ code _ => if code = 21 then .isFolder else .notFolder
  | e => .other (toString e).toList

def helpText : Text :=
  ("Run KJPL programs\n\nUsage: kjpl [OPTIONS] [FILE]\n\nOptions:\n" ++
    "  --max-call-depth <N>  Deepest allowed nesting of CALL [default: 64]\n" ++
    "  --max-nesting <N>     Deepest allowed nesting of blocks and calls [default: 256]\n" ++
    "  --max-steps <N>       Most statements one program may execute [default: 1000000]\n" ++
    "  -h, --help            Print help\n  -V, --version         Print version\n").toList

def faultText (f : UsageFault) : Text :=
  let wording := match f with
    | .unknownArgument arg => "unexpected argument: " ++ String.ofList arg
    | .secondFile arg => "more than one file: " ++ String.ofList arg
    | .emptyFile => "the name of the file is empty"
    | .noValue o => "a value is required for " ++ o.name
    | .badValue o value => "invalid value for " ++ o.name ++ ": " ++ String.ofList value
    | .repeated o => "given more than once: " ++ o.name
  ("error: " ++ wording ++ "\n").toList

def emit (o : Outcome) : IO UInt32 := do
  IO.print (String.ofList o.stdout)
  IO.eprint (String.ofList o.stderr)
  return o.code.toUInt32

def loadFile (path : Text) : IO (Except Error Text) := do
  let found ← (IO.FS.readBinFile (String.ofList path)).toBaseIO
  let text := match found with
    | .ok bytes => decodeText bytes
    | .error e => .error (.ofIOError e)
  return text.mapError (·.toError path)

/-- Goes on with a dialogue until the input ends. -/
partial def converse (g : Guard) (d : Dialogue) (input output : IO.FS.Stream) : IO Unit := do
  output.putStr (String.ofList d.draft.prompt)
  output.flush
  let line ← input.getLine
  if line.isEmpty then return
  let (d, log) := d.typed g (Text.chomp line.toList)
  for e in log do
    if let .write text := e then
      output.putStr (String.ofList text)
  converse g d input output

def runMain (args : List Text) : IO UInt32 := do
  match CommandLine.parse args with
  | .ok (.start limits (some path)) => emit (.ofSource { limits with } (← loadFile path))
  | .ok (.start limits none) =>
    converse { limits with } {} (← IO.getStdin) (← IO.getStdout)
    return 0
  | .ok .version => emit { stdout := CommandLine.versionText }
  | .ok .help => emit { stdout := helpText }
  | .error f => emit { code := 2, stderr := faultText f }

end LineScript

def main (args : List String) : IO UInt32 := LineScript.runMain (args.map String.toList)
