import LineScript.Program

/-! # Block nesting

A scan keeps the stack of blocks opened since it began. The commands met while the stack is empty
are the top level of the text scanned; inner blocks of any kind are passed over whole, and a
closer that does not fit the innermost open block is passed over too. The end of a block, its
`ELSE` and its arms are all found on that one level.
-/

namespace LineScript

/-- The blocks open at a point of a scan, innermost first. -/
abbrev Stack := List Block

namespace Stack

def after (s : Stack) (st : Statement) : Stack :=
  match st.opens with
  | some b => b :: s
  | none =>
    match st.closes, s with
    | some b, c :: s => if b = c then s else c :: s
    | _, s => s

end Stack

namespace Program

/-- The statements on the top level of a scan that starts at position `i`, with their positions. -/
def topLevelFrom (s : Stack) (i : Nat) : Program → List (Nat × Statement)
  | [] => []
  | c :: p =>
    let rest := topLevelFrom (s.after c.statement) (i + 1) p
    if s.isEmpty then (i, c.statement) :: rest else rest

def topLevel (p : Program) : List (Nat × Statement) := topLevelFrom [] 0 p

/-- The first position, counted from here, of a top-level command that closes a block `b`. -/
def closerFrom? (b : Block) (s : Stack) : Program → Option Nat
  | [] => none
  | c :: p =>
    if s.isEmpty && c.statement.closes == some b then some 0
    else (closerFrom? b (s.after c.statement) p).map (· + 1)

/-- The position of the command that closes a block of kind `b` opened just before the program. -/
def closer? (p : Program) (b : Block) : Option Nat := closerFrom? b [] p

/-- The position of the first `ELSE` on the top level. -/
def otherwise? (p : Program) : Option Nat :=
  (p.topLevel.find? (·.2 == .otherwise)).map Prod.fst

theorem closerFrom?_eq_find? (b : Block) (s : Stack) (i : Nat) (p : Program) :
    (closerFrom? b s p).map (i + ·) =
      ((topLevelFrom s i p).find? (·.2.closes == some b)).map Prod.fst := by
  induction p generalizing s i with
  | nil => rfl
  | cons c p ih =>
    have hi := ih (s.after c.statement) (i + 1)
    have hmap : (Option.map (· + 1) (closerFrom? b (s.after c.statement) p)).map (i + ·) =
        (closerFrom? b (s.after c.statement) p).map (i + 1 + ·) := by
      rw [Option.map_map]
      congr 1
      funext n
      simp only [Function.comp]
      omega
    unfold closerFrom? topLevelFrom
    cases hs : s.isEmpty <;> cases hc : (c.statement.closes == some b) <;> simp [hc, ← hi, hmap]

/-- The closer is the first top-level command that closes such a block. -/
theorem closer?_eq_find? (p : Program) (b : Block) :
    p.closer? b = (p.topLevel.find? (·.2.closes == some b)).map Prod.fst := by
  simpa [closer?, topLevel] using closerFrom?_eq_find? b [] 0 p

/-- The commands from position `start` up to, but not including, position `stop`. -/
def slice (p : Program) (start stop : Nat) : Program := (p.take stop).drop start

end Program

/--
A branch of a selection: its label, or none for `ELSE`, and where its commands start and stop.
-/
structure Arm where
  label : Option Text
  start : Nat
  stop : Nat
  deriving DecidableEq, Repr

namespace Arm

def label? : Statement → Option (Option Text)
  | .when label => some (some label)
  | .otherwise => some none
  | _ => none

/-- Each marker begins an arm that runs to the next marker, and the last one to `stop`. -/
def ofMarkers (stop : Nat) : List (Nat × Option Text) → List Arm
  | [] => []
  | [(i, label)] => [⟨label, i + 1, stop⟩]
  | (i, label) :: (j, next) :: rest => ⟨label, i + 1, j⟩ :: ofMarkers stop ((j, next) :: rest)

def choose? (arms : List Arm) (label : Text) : Option Arm :=
  (arms.find? (·.label == some label)).or (arms.find? (·.label == none))

end Arm

namespace Program

/-- The top-level `WHEN` and `ELSE` commands, with their positions and labels. -/
def markers (p : Program) : List (Nat × Option Text) :=
  p.topLevel.filterMap fun (i, s) => (Arm.label? s).map (i, ·)

def arms (p : Program) : List Arm := Arm.ofMarkers p.length p.markers

/-- The position of the command that closes the block `b` opened at `start`, before `limit`. -/
def findCloser (p : Program) (start : Nat) (b : Block) (limit : Nat) : Except Error Nat :=
  match (p.slice (start + 1) limit).closer? b with
  | some i => .ok (start + 1 + i)
  | none =>
    match p[start]? with
    | some c => .error (.ofOpenBlock c.line b)
    | none => .error ⟨.unterminated, none, "EXPECTED ".toList ++ b.closer.spelling⟩

/-- The position of the `ELSE` of a block that spans `start` to `stop`. -/
def findOtherwise (p : Program) (start stop : Nat) : Option Nat :=
  (p.slice (start + 1) stop).otherwise?.map (start + 1 + ·)

/-- The arms of a selection that spans `start` to `stop`. -/
def findArms (p : Program) (start stop : Nat) : List Arm :=
  (p.slice (start + 1) stop).arms.map fun a =>
    ⟨a.label, start + 1 + a.start, start + 1 + a.stop⟩

end Program

end LineScript
