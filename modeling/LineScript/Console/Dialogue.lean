import LineScript.Console.Draft
import LineScript.Console.Outcome

/-! # Dialogues

An interactive session is an exchange with a terminal: the session sets prompts, asks for lines,
keeps a history and writes results. Typed lines are collected in a draft, and each program that
the draft releases is run in the one session.
-/

namespace LineScript

inductive Signal where
  | interrupt
  | break_
  | continue_
  | suspend
  | quit
  deriving DecidableEq, Repr

/-- What the terminal gives when it is asked for a line. -/
inductive Reading where
  | typed (line : Text)
  | signal (s : Signal)
  | failure (reason : Text)
  | endOfInput
  deriving DecidableEq, Repr

inductive Exchange where
  | opened (title : Text)
  | reportInterrupts
  | prompt (text : Text)
  | read (r : Reading)
  | history (line : Text)
  | write (text : Text)
  deriving DecidableEq, Repr

structure Dialogue where
  session : Session := {}
  draft : Draft := {}
  deriving DecidableEq, Repr

/-- What happened, the state at the end, and whether the terminal failed. -/
structure Transcript where
  log : List Exchange
  dialogue : Dialogue
  result : Except Text Unit

namespace Dialogue

/-- The line that, typed into an empty draft, makes the session forget everything. -/
def resetLine : Text := ['R', 'E', 'S', 'E', 'T']

def written : Except Error Text → Text
  | .ok output => Text.chomp output ++ ['\n']
  | .error e => Text.bold e.message ++ ['\n']

/-- Takes a typed line into the draft, and runs the program that this may release. -/
def push (g : Guard) (d : Dialogue) (line : Text) : Dialogue × List Exchange :=
  match d.draft.push line with
  | (none, draft) => ({ d with draft }, [.prompt draft.prompt])
  | (some program, draft) =>
    let report := Session.run g d.session program
    (⟨report.session, draft⟩, [.prompt draft.prompt, .write (written report.result)])

/-- Answers a typed line. Lines that are not blank go into the history. -/
def typed (g : Guard) (d : Dialogue) (line : Text) : Dialogue × List Exchange :=
  let t := Text.trim line
  let remembered := if t.isEmpty then [] else [.history line]
  if d.draft.isEmpty && t == resetLine then ({ d with session := d.session.reset }, remembered)
  else
    let (d, log) := d.push g line
    (d, remembered ++ log)

def interrupted (d : Dialogue) : Dialogue × List Exchange :=
  ({ d with draft := {} }, [.prompt (Draft.prompt {})])

/-- Goes through a script of readings; after the last one the input ends. -/
def play (g : Guard) (d : Dialogue) : List Reading → Transcript
  | [] => ⟨[.read .endOfInput], d, .ok ()⟩
  | r :: rs =>
    let next := fun ((d, log) : Dialogue × List Exchange) =>
      let rest := play g d rs
      { rest with log := .read r :: log ++ rest.log }
    match r with
    | .typed line => next (d.typed g line)
    | .signal .interrupt => next d.interrupted
    | .signal _ | .endOfInput => ⟨[.read r], d, .ok ()⟩
    | .failure reason => ⟨[.read r], d, .error reason⟩

def title : Text := ['K', 'J', 'P', 'L']

/-- A whole interactive session, on a terminal that may fail to open. -/
def start (g : Guard) (failure : Option Text) (script : List Reading) : Transcript :=
  match failure with
  | some reason => ⟨[.opened title], {}, .error reason⟩
  | none =>
    let rest := play g {} script
    let opening := [.opened title, .reportInterrupts, .prompt (Draft.prompt {})]
    { rest with log := opening ++ rest.log }

end Dialogue

def Transcript.outcome (t : Transcript) : Outcome :=
  match t.result with
  | .ok () => {}
  | .error reason => { code := 1, stderr := reason ++ ['\n'] }

end LineScript
