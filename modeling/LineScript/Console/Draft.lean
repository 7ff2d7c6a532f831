import LineScript.Line

/-! # Drafts

Lines typed one by one are held back until every block they open is closed; then they are released
together as one program. Blocks are only counted here: their kinds are not compared.
-/

namespace LineScript

structure Draft where
  text : Text := []
  /-- The number of blocks that are open. -/
  depth : Nat := 0
  deriving DecidableEq, Repr

namespace Draft

def isEmpty (d : Draft) : Bool := d.text.isEmpty

def prompt (d : Draft) : Text := if d.isEmpty then ['>', ' '] else ['.', ' ']

/-- The number of open blocks after a line; a closer that closes nothing is ignored. -/
def depthAfter (depth : Nat) : Option Edge → Nat
  | some (.opens _) => depth + 1
  | some (.closes _) => depth - 1
  | none => depth

/-- Adds a typed line, and releases the whole text if no block is open after it. -/
def push (d : Draft) (input : Text) : Option Text × Draft :=
  let l := Line.ofText 0 input
  if l.isEmpty && d.isEmpty then (none, d)
  else
    let depth := depthAfter d.depth l.edge?
    let text := d.text ++ input ++ ['\n']
    if depth = 0 then (some text, {}) else (none, ⟨text, depth⟩)

end Draft

end LineScript
