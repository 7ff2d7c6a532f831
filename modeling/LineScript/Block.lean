import LineScript.Keyword

/-! # Blocks

The three kinds of block, each with the word that opens it and the word that closes it.
-/

namespace LineScript

inductive Block where
  | conditional
  | selection
  | function
  deriving DecidableEq, Repr

namespace Block

def opener : Block → Keyword
  | conditional => .if_
  | selection => .revelationCase
  | function => .define

def closer : Block → Keyword
  | conditional => .endIf
  | selection => .endCase
  | function => .endFunction

/-- A block is displayed as the word that opens it. -/
def display (b : Block) : Text := b.opener.spelling

end Block

inductive Edge where
  | opens (block : Block)
  | closes (block : Block)
  deriving DecidableEq, Repr

end LineScript
