import LineScript.Text.Lines
import LineScript.Statement.Reader

/-! # Numbered lines

A source is cut into physical lines, numbered from one. A line keeps its number and its trimmed
text; blank lines are dropped after the numbering.
-/

namespace LineScript

structure Line where
  number : Nat
  text : Text
  deriving DecidableEq, Repr

namespace Line

def ofText (number : Nat) (t : Text) : Line := ⟨number, Text.trim t⟩

def isEmpty (l : Line) : Bool := l.text.isEmpty

/-- The lines of a source that are not blank, with their physical numbers. -/
def split (source : Text) : List Line :=
  (((Text.lines source).zipIdx 1).map fun (t, n) => ofText n t).filter (!·.isEmpty)

/-- What the line does to the blocks around it, whether it is well formed or not. -/
def edge? (l : Line) : Option Edge := Statement.edge? l.text

def display (l : Line) : Text := Text.ofNat l.number ++ ' ' :: l.text

theorem text_ne_nil_of_mem_split {source : Text} {l : Line} (h : l ∈ split source) :
    l.text ≠ [] := by
  simpa [isEmpty] using (List.mem_filter.mp h).2

theorem trimmed_of_mem_split {source : Text} {l : Line} (h : l ∈ split source) :
    Text.Trimmed l.text := by
  obtain ⟨p, -, rfl⟩ := List.mem_map.mp (List.mem_filter.mp h).1
  exact Text.trimmed_trim p.1

end Line

end LineScript
