import LineScript.Proofs.Machine.Lockstep

/-! # Changes that no statement sees

A change of the machine is unseen if it leaves alone what statements read, and commutes with what
they do. Then a command does on the changed machine what it does on the machine itself, and the
next point is the next point changed.
-/

namespace LineScript

/-- No statement reads what `φ` changes, and `φ` changes it alike before and after. -/
structure Machine.Unseen (φ : Machine → Machine) : Prop where
  vars : ∀ m, (φ m).vars = m.vars
  functions : ∀ m, (φ m).functions = m.functions
  depth : ∀ m, (φ m).depth = m.depth
  nesting : ∀ m, (φ m).nesting = m.nesting
  relevel : ∀ m d n, φ (m.relevel d n) = (φ m).relevel d n
  report : ∀ m e, φ (m.report e) = (φ m).report e
  assigned : ∀ m name value, φ (m.assigned name value) = (φ m).assigned name value
  printed : ∀ m e, φ (m.printed e) = (φ m).printed e
  defined : ∀ m name body, φ (m.defined name body) = (φ m).defined name body
  skip : ∀ m e, φ (m.skip e) = (φ m).skip e

def Action.map (φ : Machine → Machine) : Action → Action
  | fail e m => fail e (φ m)
  | pass done m => pass done (φ m)
  | enter start stop done m => enter start stop done (φ m)
  | call p m => call p (φ m)

def Point.map (φ : Machine → Machine) (pt : Point) : Point := ⟨φ pt.machine, pt.frames⟩

def Progress.map (φ : Machine → Machine) : Progress → Progress
  | running pt => running (pt.map φ)
  | failed e m => failed e (φ m)
  | finished m => finished (φ m)

variable {φ : Machine → Machine} {g g' : Guard}

theorem Progress.rel_map {I : Point → Point → Prop} {E : Machine → Machine → Prop} {x : Progress}
    (hI : ∀ pt, x = .running pt → I pt (pt.map φ)) (hE : E x.machine (φ x.machine)) :
    Rel I E x (x.map φ) := by
  cases x with
  | running pt => exact .running (hI pt rfl)
  | failed e m => exact .failed hE
  | finished m => exact .finished hE

namespace Machine.Unseen

theorem weighed (h : Unseen φ) (m : Machine) (c : Condition) :
    φ (m.weighed c) = (φ m).weighed c := by
  cases c with
  | compare lhs op rhs => rfl
  | invalid text => exact h.report m _

theorem enter (h : Unseen φ) (scope : Scope) (m : Machine) :
    φ (scope.enter m) = scope.enter (φ m) := by
  have hb : φ m.enterBlock = (φ m).enterBlock := by
    simpa [Machine.relevel, enterBlock, h.depth, h.nesting] using
      h.relevel m m.depth (m.nesting + 1)
  have hc : φ m.enterCall.enterBlock = (φ m).enterCall.enterBlock := by
    simpa [Machine.relevel, enterBlock, enterCall, h.depth, h.nesting] using
      h.relevel m (m.depth + 1) (m.nesting + 1)
  cases scope with
  | whole => rfl
  | block => exact hb
  | call => exact hc

theorem leave (h : Unseen φ) (scope : Scope) (m : Machine) :
    φ (scope.leave m) = scope.leave (φ m) := by
  have hb : φ m.leaveBlock = (φ m).leaveBlock := by
    simpa [Machine.relevel, leaveBlock, h.depth, h.nesting] using
      h.relevel m m.depth (m.nesting - 1)
  have hc : φ m.leaveBlock.leaveCall = (φ m).leaveBlock.leaveCall := by
    simpa [Machine.relevel, leaveBlock, leaveCall, h.depth, h.nesting] using
      h.relevel m (m.depth - 1) (m.nesting - 1)
  cases scope with
  | whole => rfl
  | block => exact hb
  | call => exact hc

theorem unwind (h : Unseen φ) (m : Machine) (fs : List Frame) :
    φ (Point.unwind m fs) = Point.unwind (φ m) fs := by
  induction fs generalizing m with
  | nil => rfl
  | cons f fs ih =>
    have hf := ih (f.scope.leave m)
    rw [h.leave] at hf
    exact hf

end Machine.Unseen

open Machine (Unseen)

namespace Action

variable {rest : Program} {m : Machine} {l : Line}

theorem ofBranch_map (h : Unseen φ) (condition : Condition) :
    ofBranch l condition rest (φ m) = (ofBranch l condition rest m).map φ := by
  unfold ofBranch
  cases rest.closer? .conditional with
  | none => rfl
  | some stop =>
    simp only [branching, h.vars, ← h.weighed, ← h.report]
    split <;> rfl

theorem ofSelection_map (h : Unseen φ) (name : Text) :
    ofSelection l name rest (φ m) = (ofSelection l name rest m).map φ := by
  unfold ofSelection
  cases rest.closer? .selection with
  | none => rfl
  | some stop =>
    simp only [selecting, h.vars, ← h.report]
    split <;> rfl

theorem ofDefinition_map (h : Unseen φ) (name : Text) :
    ofDefinition l name rest (φ m) = (ofDefinition l name rest m).map φ := by
  unfold ofDefinition
  cases rest.closer? .function with
  | none => rfl
  | some stop => simp only [map, h.defined]

theorem ofCall_map (h : Unseen φ) (hd : g'.maxCallDepth = g.maxCallDepth) (name : Text) :
    ofCall g' l name (φ m) = (ofCall g l name m).map φ := by
  unfold ofCall
  rw [h.functions, h.depth, hd]
  cases m.functions.get? name with
  | none => simp only [map, h.skip]
  | some body =>
    simp only [← h.report]
    split
    · rfl
    · cases Program.ofLines body <;> rfl

theorem ofStatement_map (h : Unseen φ) (hd : g'.maxCallDepth = g.maxCallDepth) (c : Command)
    (rest : Program) (m : Machine) :
    ofStatement g' c rest (φ m) = (ofStatement g c rest m).map φ := by
  unfold ofStatement
  cases c.statement with
  | assign name value => simp only [map, h.assigned]
  | print e => simp only [map, h.printed]
  | ifThen condition => exact ofBranch_map h condition
  | caseOf name => exact ofSelection_map h name
  | define name => exact ofDefinition_map h name
  | call name => exact ofCall_map h hd name
  | otherwise => rfl
  | when label => rfl
  | close b => rfl
  | unrecognized => simp only [map, h.skip]

end Action

namespace Point

theorem descend_map (h : Unseen φ) (hn : g'.maxNesting = g.maxNesting) (l : Line) (f : Frame)
    (m : Machine) (fs : List Frame) :
    descend g' l f (φ m) fs = (descend g l f m fs).map φ := by
  unfold descend
  rw [h.nesting, hn]
  split
  · simp only [Progress.map, h.unwind]
  · simp only [Progress.map, Point.map, h.enter]

theorem next_map_of_upcoming?_eq_none (h : Unseen φ) {pt : Point} (hu : pt.upcoming? = none) :
    (pt.map φ).next g' = (pt.next g).map φ := by
  obtain ⟨m, fs⟩ := pt
  cases fs with
  | nil => rfl
  | cons f fs =>
    have hs : f.segment = [] := by simpa [upcoming?] using hu
    rw [map, next_of_segment_eq_nil hs, next_of_segment_eq_nil hs, Progress.map, map, h.leave]

/-- If the next command acts alike on the changed machine, so does the whole step. -/
theorem next_map (h : Unseen φ) {m : Machine} {f : Frame} {c : Command} {rest : Program}
    (hs : f.segment = c :: rest)
    (ha : Action.ofCommand g' c rest (φ m) = (Action.ofCommand g c rest m).map φ)
    (hn : g'.maxNesting = g.maxNesting) (fs : List Frame) :
    next g' ⟨φ m, f :: fs⟩ = (next g ⟨m, f :: fs⟩).map φ := by
  rw [next_of_segment_eq_cons hs, next_of_segment_eq_cons hs, ha]
  cases Action.ofCommand g c rest m with
  | fail e m' => simp only [Action.map, Progress.map, h.unwind]
  | pass done m' => rfl
  | enter start stop done m' => exact descend_map h hn ..
  | call p m' => exact descend_map h hn ..

end Point

end LineScript
