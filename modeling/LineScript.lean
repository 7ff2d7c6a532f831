import LineScript.Block
import LineScript.Console.CommandLine
import LineScript.Console.Dialogue
import LineScript.Console.Draft
import LineScript.Console.Folder
import LineScript.Console.Outcome
import LineScript.Error
import LineScript.Event
import LineScript.Keyword
import LineScript.Limits
import LineScript.Line
import LineScript.Machine.Basic
import LineScript.Machine.Execution
import LineScript.Main
import LineScript.Nesting
import LineScript.Operator
import LineScript.Output
import LineScript.Program
import LineScript.Proofs.Condition.Quotes
import LineScript.Proofs.Condition.Tokens
import LineScript.Proofs.Console.Agreement
import LineScript.Proofs.Console.Bookkeeping
import LineScript.Proofs.Console.Brackets
import LineScript.Proofs.Console.Collecting
import LineScript.Proofs.Lookup
import LineScript.Proofs.Machine.Action
import LineScript.Proofs.Machine.Alarm
import LineScript.Proofs.Machine.Effect
import LineScript.Proofs.Machine.Expense
import LineScript.Proofs.Machine.Extension
import LineScript.Proofs.Machine.Forward
import LineScript.Proofs.Machine.Indexed
import LineScript.Proofs.Machine.Levels
import LineScript.Proofs.Machine.Limiting
import LineScript.Proofs.Machine.Lockstep
import LineScript.Proofs.Machine.Overlay
import LineScript.Proofs.Machine.Point
import LineScript.Proofs.Machine.Renumbering
import LineScript.Proofs.Machine.Resemblance
import LineScript.Proofs.Machine.Running
import LineScript.Proofs.Machine.Sequence
import LineScript.Proofs.Machine.Tally
import LineScript.Proofs.Machine.Tracking
import LineScript.Proofs.Nesting.Balance
import LineScript.Proofs.Nesting.Division
import LineScript.Proofs.Nesting.Enclosure
import LineScript.Proofs.Nesting.Grammar
import LineScript.Proofs.Nesting.Parts
import LineScript.Proofs.Nesting.Scan
import LineScript.Proofs.Numbering
import LineScript.Proofs.Reading
import LineScript.Proofs.Session.Bodies
import LineScript.Proofs.Session.Citations
import LineScript.Proofs.Session.Composition
import LineScript.Proofs.Session.Counters
import LineScript.Proofs.Session.Finiteness
import LineScript.Proofs.Session.Forward
import LineScript.Proofs.Session.Fragments
import LineScript.Proofs.Session.Indifference
import LineScript.Proofs.Session.Interrupts
import LineScript.Proofs.Session.Limits
import LineScript.Proofs.Session.Malformed
import LineScript.Proofs.Session.Origins
import LineScript.Proofs.Session.Quoting
import LineScript.Proofs.Session.Reachable
import LineScript.Proofs.Session.Replay
import LineScript.Proofs.Session.Shown
import LineScript.Proofs.Session.Unbroken
import LineScript.Proofs.Session.Unterminated
import LineScript.Proofs.Spelling
import LineScript.Proofs.Statement.Classes
import LineScript.Proofs.Statement.Headers
import LineScript.Proofs.Statement.Leading
import LineScript.Proofs.Statement.Rendering
import LineScript.Proofs.Text.Bytes
import LineScript.Proofs.Text.Trimming
import LineScript.Proofs.Tree.Basic
import LineScript.Proofs.Tree.Flattening
import LineScript.Proofs.Tree.Refinement
import LineScript.Proofs.Tree.Semantics
import LineScript.Proofs.Value.Magnitude
import LineScript.Proofs.Value.Numerals
import LineScript.Proofs.Value.Order
import LineScript.Proofs.Value.Rounding
import LineScript.Session.Basic
import LineScript.Session.Run
import LineScript.Statement.Basic
import LineScript.Statement.Condition
import LineScript.Statement.Fault
import LineScript.Statement.Reader
import LineScript.Table
import LineScript.Text.Basic
import LineScript.Text.Blank
import LineScript.Text.Lines
import LineScript.Text.Name
import LineScript.Value.Basic
import LineScript.Value.Binary64
import LineScript.Value.Numeral
import LineScript.Variables
