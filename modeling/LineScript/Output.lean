import LineScript.Error

/-! # Output

A run emits fragments, each ended by a line end. A run that emitted none shows a text that says
so.
-/

namespace LineScript

/-- The fragments emitted so far, latest first, each with its line end. -/
structure Output where
  fragments : List Text := []
  deriving DecidableEq, Repr

namespace Output

def nothing : Text := "No output generated.".toList

def append (o : Output) (t : Text) : Output := ⟨(t ++ ['\n']) :: o.fragments⟩

/-- Empty text appends nothing, not even a line end. -/
def print (o : Output) (t : Text) : Output := if t.isEmpty then o else o.append t

def diagnostic (o : Output) (e : Error) : Output := o.append ('?' :: e.message)

def emitted (o : Output) : Text := o.fragments.reverse.flatten

/-- The emitted text, or else the text that says there is none. -/
def shown (o : Output) : Text := if o.fragments.isEmpty then nothing else o.emitted

@[simp] theorem emitted_append (o : Output) (t : Text) :
    (o.append t).emitted = o.emitted ++ (t ++ ['\n']) := by
  simp [append, emitted]

end Output

end LineScript
