import LineScript.Proofs.Machine.Tally
import LineScript.Proofs.Nesting.Parts

/-! # Execution by position

The same execution, told by positions: a command is executed at a position of a program, below a
limit, and says at which position to go on; bodies are ranges of positions. Every access to the
program is checked, and one out of range ends the execution in a way of its own. The positions at
which commands are started are noted.
-/

namespace LineScript

theorem Program.choose?_findArms (p : Program) (start stop : Nat) (label : Text) :
    Arm.choose? (p.findArms start stop) label =
      (Arm.choose? (p.slice (start + 1) stop).arms label).map
        fun a => ⟨a.label, start + 1 + a.start, start + 1 + a.stop⟩ := by
  unfold Arm.choose? findArms
  rw [List.find?_map, List.find?_map, ← Option.map_or]
  rfl

/-- What ends an execution by position: an error, or an access to the program out of range. -/
inductive Halt where
  | error (e : Error)
  | outOfRange
  deriving DecidableEq, Repr

/-- A machine, and the positions at which its program has started commands, in order. -/
structure Trail where
  machine : Machine
  starts : List Nat := []
  deriving DecidableEq, Repr

abbrev Indexed := EStateM Halt Trail

namespace Indexed

abbrev Result (α : Type) := EStateM.Result Halt Trail α

abbrev Runner := Line → Program → (start stop : Nat) → Indexed Unit

/-- An action that has nothing to do with positions. -/
def lift {α : Type} (act : Exec α) : Indexed α := fun s =>
  match act s.machine with
  | .ok a m => .ok a { s with machine := m }
  | .error e m => .error (.error e) { s with machine := m }

def command (p : Program) (i : Nat) : Indexed Command :=
  match p[i]? with
  | some c => pure c
  | none => throw .outOfRange

/-- A range has to start before it stops, and to stop before the limit. -/
def range (start stop limit : Nat) : Indexed Unit :=
  if start ≤ stop ∧ stop ≤ limit then pure () else throw .outOfRange

def look (p : Program) : (n start : Nat) → Indexed Unit
  | 0, _ => pure ()
  | n + 1, i => do
    let _ ← command p i
    look p n (i + 1)

def scan (p : Program) (start stop limit : Nat) : Indexed Unit := do
  range start stop limit
  look p (stop - start) start

def form (limit : Nat) : List Arm → Indexed Unit
  | [] => pure ()
  | a :: as => do
    range a.start a.stop limit
    form limit as

def enter (inner : Runner) (l : Line) (p : Program) (start stop limit : Nat) : Indexed Unit := do
  range start stop limit
  inner l p start stop

def between (enter leave : Machine → Machine) (act : Indexed Unit) : Indexed Unit := fun s =>
  match act { s with machine := enter s.machine } with
  | .ok a s => .ok a { s with machine := leave s.machine }
  | .error e s => .error e { s with machine := leave s.machine }

/-- Runs another program, whose positions are not noted among those of this one. -/
def apart (act : Indexed Unit) : Indexed Unit := fun s =>
  match act { s with starts := [] } with
  | .ok a s' => .ok a { s' with starts := s.starts }
  | .error e s' => .error e { s' with starts := s.starts }

def closing (b : Block) (p : Program) (index limit : Nat) : Indexed Nat := do
  scan p (index + 1) limit limit
  lift (Exec.ofExcept (p.findCloser index b limit))

def branch (inner : Runner) (p : Program) (index limit : Nat) (condition : Condition) :
    Indexed Nat := do
  let stop ← closing .conditional p index limit
  scan p (index + 1) stop limit
  let taken ← lift (Exec.decideCondition condition)
  lift (Exec.report (.branched taken))
  let c ← command p index
  match taken, p.findOtherwise index stop with
  | true, some i => enter inner c.line p (index + 1) i limit
  | true, none => enter inner c.line p (index + 1) stop limit
  | false, some i => enter inner c.line p (i + 1) stop limit
  | false, none => pure ()
  return stop + 1

def select (inner : Runner) (p : Program) (index limit : Nat) (name : Text) : Indexed Nat := do
  let stop ← closing .selection p index limit
  let value := (← get).machine.vars.fetch name
  scan p (index + 1) stop limit
  form limit (p.findArms index stop)
  match Arm.choose? (p.findArms index stop) value.text with
  | some arm =>
    lift (Exec.report (.selected arm.label))
    let c ← command p index
    enter inner c.line p arm.start arm.stop limit
  | none => pure ()
  return stop + 1

def define (p : Program) (index limit : Nat) (name : Text) : Indexed Nat := do
  let stop ← closing .function p index limit
  range (index + 1) stop limit
  let body := Program.lines (p.slice (index + 1) stop)
  lift (Exec.report (.defined name body.length))
  lift (modify fun m => { m with functions := m.functions.insert name body })
  return stop + 1

def call (g : Guard) (inner : Runner) (l : Line) (name : Text) : Indexed Unit := do
  let m := (← get).machine
  match m.functions.get? name with
  | none => lift (modify (·.skip ⟨.undefinedFunction, some l, []⟩))
  | some body =>
    if g.maxCallDepth ≤ m.depth then
      throw (.error (.ofLimit .callDepth l g.maxCallDepth))
    let q ← lift (Exec.ofExcept (Program.ofLines body))
    lift (Exec.report (.called name (m.depth + 1)))
    apart (between Machine.enterCall Machine.leaveCall (inner l q 0 q.length))

/-- Executes the command at a position; the result is the position at which to go on. -/
def execute (g : Guard) (inner : Runner) (p : Program) (index limit : Nat) : Indexed Nat := do
  let c ← command p index
  lift (Exec.tick g c.line)
  lift (Exec.announce g c.line)
  modify fun s => { s with starts := s.starts ++ [index] }
  match c.statement with
  | .assign name value => lift (Exec.assign name value); return index + 1
  | .print e => lift (Exec.print e); return index + 1
  | .ifThen condition => branch inner p index limit condition
  | .caseOf name => select inner p index limit name
  | .define name => define p index limit name
  | .call name => call g inner c.line name; return index + 1
  | .otherwise | .when _ | .close _ => return index + 1
  | .unrecognized =>
    lift (modify (·.skip ⟨.unrecognized, some c.line, []⟩))
    return index + 1

/--
Executes commands from a position on, `turns` at most, until the position is no longer below the
limit; the result is the position at which it is left.
-/
def loop (g : Guard) (inner : Runner) (p : Program) (limit : Nat) :
    (turns index : Nat) → Indexed Nat
  | 0, index => pure index
  | turns + 1, index =>
    if index < limit then do
      let next ← execute g inner p index limit
      loop g inner p limit turns next
    else pure index

def run (g : Guard) (inner : Runner) (p : Program) (start stop : Nat) : Indexed Nat :=
  loop g inner p stop (stop - start) start

def nested (g : Guard) : (room : Nat) → Runner
  | 0, l, _, _, _ => throw (.error (.ofLimit .nesting l g.maxNesting))
  | room + 1, l, p, start, stop => do
    if g.maxNesting ≤ (← get).machine.nesting then
      throw (.error (.ofLimit .nesting l g.maxNesting))
    between Machine.enterBlock Machine.leaveBlock do
      let _ ← run g (nested g room) p start stop

/-! ### Executing a command is performing its action -/

/-- How a plain execution ends, as the end of one by position that has started these commands. -/
def ends {α β : Type} (f : α → β) (starts : List Nat) : Exec.Result α → Result β
  | .ok a m => .ok (f a) ⟨m, starts⟩
  | .error e m => .error (.error e) ⟨m, starts⟩

def perform (inner : Runner) (l : Line) (p : Program) (index : Nat) (starts : List Nat) :
    Action → Result Nat
  | .fail e m => .error (.error e) ⟨m, starts⟩
  | .pass done m => .ok (index + 1 + done) ⟨m, starts⟩
  | .enter start stop done m =>
    (do inner l p (index + 1 + start) (index + 1 + stop); return index + 1 + done : Indexed Nat)
      ⟨m, starts⟩
  | .call q m =>
    (do apart (between Machine.enterCall Machine.leaveCall (inner l q 0 q.length))
        return index + 1 : Indexed Nat) ⟨m, starts⟩

open Exec (bind_ok bind_error get_apply)

section Access

variable {p : Program} {s : Trail}

theorem lift_ok {α : Type} {act : Exec α} {a : α} {m : Machine} (h : act s.machine = .ok a m) :
    lift act s = .ok a ⟨m, s.starts⟩ := by
  rw [lift, h]

theorem lift_error {α : Type} {act : Exec α} {e : Error} {m : Machine}
    (h : act s.machine = .error e m) : lift act s = .error (.error e) ⟨m, s.starts⟩ := by
  rw [lift, h]

theorem command_apply {i : Nat} {c : Command} (h : p[i]? = some c) : command p i s = .ok c s := by
  rw [command, h]
  rfl

theorem range_apply {start stop limit : Nat} (h : start ≤ stop) (h' : stop ≤ limit) :
    range start stop limit s = .ok () s := by
  rw [range, if_pos ⟨h, h'⟩]
  rfl

theorem look_apply {n start : Nat} (h : start + n ≤ p.length) : look p n start s = .ok () s := by
  induction n generalizing start with
  | zero => rfl
  | succ n ih =>
    have hget : p[start]? = some p[start] := List.getElem?_eq_getElem (by omega)
    rw [look, bind_ok (command_apply hget)]
    exact ih (by omega)

theorem scan_apply {start stop limit : Nat} (h : start ≤ stop) (h' : stop ≤ limit)
    (hl : limit ≤ p.length) : scan p start stop limit s = .ok () s := by
  rw [scan, bind_ok (range_apply h h')]
  exact look_apply (by omega)

theorem form_apply {limit : Nat} {as : List Arm}
    (h : ∀ a ∈ as, a.start ≤ a.stop ∧ a.stop ≤ limit) : form limit as s = .ok () s := by
  induction as with
  | nil => rfl
  | cons a as ih =>
    obtain ⟨⟨hle, hlim⟩, has⟩ := List.forall_mem_cons.mp h
    rw [form, bind_ok (range_apply hle hlim)]
    exact ih has

theorem enter_bind {β : Type} (inner : Runner) (l : Line) {start stop limit : Nat}
    (h : start ≤ stop) (h' : stop ≤ limit) (f : Unit → Indexed β) :
    (enter inner l p start stop limit >>= f) s = (inner l p start stop >>= f) s := by
  have he : enter inner l p start stop limit s = inner l p start stop s := by
    rw [enter, bind_ok (range_apply h h')]
  simp only [bind, EStateM.bind, he]

end Access

section Blocks

variable {p : Program} {index limit : Nat} {c : Command} (hc : p[index]? = some c)
  (hi : index < limit) (hl : limit ≤ p.length)

theorem stop_of_closer? {b : Block} {i : Nat}
    (h : (p.slice (index + 1) limit).closer? b = some i) :
    index + 1 + i < limit ∧
      (p.slice (index + 1) limit).take i = p.slice (index + 1) (index + 1 + i) := by
  have hlt : index + 1 + i < limit := by
    have := Program.lt_length_of_closer? h
    rw [Program.length_slice] at this
    omega
  exact ⟨hlt, Program.take_slice p (Nat.le_of_lt hlt)⟩

include hi hl in
theorem closing_ok {b : Block} {i : Nat} (h : (p.slice (index + 1) limit).closer? b = some i)
    (s : Trail) : closing b p index limit s = .ok (index + 1 + i) s := by
  have hf : p.findCloser index b limit = .ok (index + 1 + i) :=
    Program.findCloser_eq_ok_iff.mpr ⟨i, h, rfl⟩
  rw [closing, bind_ok (scan_apply hi (Nat.le_refl limit) hl), hf]
  rfl

include hc hi hl

theorem closing_error {b : Block} (h : (p.slice (index + 1) limit).closer? b = none)
    (s : Trail) : closing b p index limit s = .error (.error (.ofOpenBlock c.line b)) s := by
  have hf : p.findCloser index b limit = .error (.ofOpenBlock c.line b) := by
    rw [Program.findCloser, h, hc]
  rw [closing, bind_ok (scan_apply hi (Nat.le_refl limit) hl), hf]
  rfl

theorem branch_apply (inner : Runner) (condition : Condition) (s : Trail) :
    branch inner p index limit condition s = perform inner c.line p index s.starts
      (Action.ofBranch c.line condition (p.slice (index + 1) limit) s.machine) := by
  unfold branch Action.ofBranch
  cases hs : (p.slice (index + 1) limit).closer? .conditional with
  | none =>
    rw [bind_error (closing_error hc hi hl hs s)]
    rfl
  | some stop =>
    obtain ⟨hstop, htake⟩ := stop_of_closer? hs
    rw [bind_ok (closing_ok hi hl hs s), bind_ok (scan_apply (by omega) (by omega) hl),
      bind_ok (lift_ok (Exec.decideCondition_apply condition s.machine)),
      bind_ok (lift_ok (Exec.report_apply _ _)), bind_ok (command_apply hc)]
    dsimp only [Action.branching]
    rw [htake, Program.findOtherwise]
    have hle {i : Nat} (h : Program.otherwise? (p.slice (index + 1) (index + 1 + stop)) = some i) :
        i < stop := by
      have := (Program.isCut_of_otherwise? h).1
      rw [Program.length_slice] at this
      omega
    cases condition.holds s.machine.vars with
    | true =>
      cases ho : Program.otherwise? (p.slice (index + 1) (index + 1 + stop)) with
      | none => exact enter_bind inner c.line (Nat.le_add_right _ _) (Nat.le_of_lt hstop) _
      | some i =>
        have hlt := hle ho
        exact enter_bind inner c.line (show index + 1 ≤ index + 1 + i by omega) (by omega) _
    | false =>
      cases ho : Program.otherwise? (p.slice (index + 1) (index + 1 + stop)) with
      | none => rfl
      | some i =>
        have hlt := hle ho
        exact enter_bind inner c.line (show index + 1 + i + 1 ≤ index + 1 + stop by omega)
          (Nat.le_of_lt hstop) _

theorem select_apply (inner : Runner) (name : Text) (s : Trail) :
    select inner p index limit name s = perform inner c.line p index s.starts
      (Action.ofSelection c.line name (p.slice (index + 1) limit) s.machine) := by
  unfold select Action.ofSelection
  cases hs : (p.slice (index + 1) limit).closer? .selection with
  | none =>
    rw [bind_error (closing_error hc hi hl hs s)]
    rfl
  | some stop =>
    obtain ⟨hstop, htake⟩ := stop_of_closer? hs
    have hb := Program.balanced_take_of_closer? hs
    rw [htake] at hb
    have harm : ∀ a ∈ (p.slice (index + 1) (index + 1 + stop)).arms,
        a.start ≤ a.stop ∧ a.stop ≤ stop := by
      intro a ha
      obtain ⟨hle, hlen, -⟩ := hb.isCut_of_mem_arms ha
      rw [Program.length_slice] at hlen
      omega
    have hform : ∀ a ∈ p.findArms index (index + 1 + stop), a.start ≤ a.stop ∧ a.stop ≤ limit := by
      intro a ha
      obtain ⟨b, hb, rfl⟩ := List.mem_map.mp ha
      have := harm b hb
      dsimp only
      omega
    rw [bind_ok (closing_ok hi hl hs s), bind_ok (get_apply s),
      bind_ok (scan_apply (by omega) (by omega) hl), bind_ok (form_apply hform)]
    dsimp only [Action.selecting]
    rw [htake, Program.choose?_findArms]
    cases ha : Arm.choose? (p.slice (index + 1) (index + 1 + stop)).arms
        (s.machine.vars.fetch name).text with
    | none => rfl
    | some arm =>
      have := harm arm (Program.mem_arms_of_choose? ha)
      dsimp only [Option.map_some]
      rw [bind_ok (lift_ok (Exec.report_apply _ _)), bind_ok (command_apply hc)]
      exact enter_bind inner c.line (by omega) (by omega) _

theorem define_apply (inner : Runner) (name : Text) (s : Trail) :
    define p index limit name s = perform inner c.line p index s.starts
      (Action.ofDefinition c.line name (p.slice (index + 1) limit) s.machine) := by
  unfold define Action.ofDefinition
  cases hs : (p.slice (index + 1) limit).closer? .function with
  | none =>
    rw [bind_error (closing_error hc hi hl hs s)]
    rfl
  | some stop =>
    obtain ⟨hstop, htake⟩ := stop_of_closer? hs
    rw [bind_ok (closing_ok hi hl hs s), bind_ok (range_apply (by omega) (by omega))]
    dsimp only
    rw [htake]
    rfl

end Blocks

theorem call_apply (g : Guard) (inner : Runner) (l : Line) (name : Text) (p : Program)
    (index : Nat) (s : Trail) :
    (do call g inner l name; return index + 1 : Indexed Nat) s =
      perform inner l p index s.starts (Action.ofCall g l name s.machine) := by
  unfold call Action.ofCall
  rw [bind_assoc, bind_ok (get_apply s)]
  dsimp only
  cases s.machine.functions.get? name with
  | none => rfl
  | some body =>
    dsimp only
    by_cases hd : g.maxCallDepth ≤ s.machine.depth
    · rw [if_pos hd, if_pos hd]
      rfl
    · rw [if_neg hd, if_neg hd]
      cases hq : Program.ofLines body with
      | error e => rfl
      | ok q => rfl

/-- The position of a command, which is noted unless the command is stopped before it starts. -/
def noted (g : Guard) (m : Machine) (index : Nat) : List Nat :=
  if m.interrupted = true ∨ g.maxSteps ≤ m.steps then [] else [index]

/-- Executing the command at a position is performing its action. -/
theorem execute_apply {p : Program} {index limit : Nat} {c : Command} (hc : p[index]? = some c)
    (hi : index < limit) (hl : limit ≤ p.length) (g : Guard) (inner : Runner) (s : Trail) :
    execute g inner p index limit s =
      perform inner c.line p index (s.starts ++ noted g s.machine index)
        (Action.ofCommand g c (p.slice (index + 1) limit) s.machine) := by
  have ht := Exec.tick_apply g c.line s.machine
  unfold execute
  rw [bind_ok (command_apply hc)]
  cases hint : s.machine.interrupted with
  | true =>
    rw [if_pos hint] at ht
    rw [Action.ofCommand_of_interrupted c _ hint, noted, if_pos (.inl hint), List.append_nil]
    exact bind_error (lift_error ht)
  | false =>
    rw [if_neg (by simp [hint])] at ht
    rcases Nat.lt_or_ge s.machine.steps g.maxSteps with hs | hs
    · rw [if_neg (by omega)] at ht
      rw [Action.ofCommand_of_started c _ hint hs, noted, if_neg (by simp [hint, hs]),
        bind_ok (lift_ok ht), bind_ok (lift_ok (Exec.announce_apply _ _ _))]
      have hnote (t : Trail) : (modify fun s => { s with starts := s.starts ++ [index] } :
          Indexed Unit) t = .ok () { t with starts := t.starts ++ [index] } := rfl
      rw [bind_ok (hnote _)]
      unfold Action.ofStatement
      cases c.statement with
      | ifThen condition => exact branch_apply hc hi hl ..
      | caseOf name => exact select_apply hc hi hl ..
      | define name => exact define_apply hc hi hl ..
      | call name => exact call_apply ..
      | print e => cases e <;> rfl
      | assign name value => rfl
      | otherwise => rfl
      | when label => rfl
      | close b => rfl
      | unrecognized => rfl
    · rw [if_pos (by omega)] at ht
      rw [Action.ofCommand_of_exhausted c _ hint hs, noted, if_pos (.inr hs), List.append_nil]
      exact bind_error (lift_error ht)

end Indexed

end LineScript
