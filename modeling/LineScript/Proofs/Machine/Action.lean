import LineScript.Machine.Execution
import LineScript.Proofs.Nesting.Division

/-! # Actions

What a command does by itself, before anything runs one level deeper: it fails, it passes on to a
later command, it enters a segment of the text after it, or it calls a function. Executing a
command is performing its action.
-/

namespace LineScript

def Condition.holds (vars : Variables) : Condition → Bool
  | .compare lhs op rhs => (vars.resolve lhs).satisfies op (vars.resolve rhs)
  | .invalid _ => false

def Expression.shown (vars : Variables) : Expression → Text
  | .literal text => text
  | .token t => (vars.resolve t).text

namespace Machine

def calmed (m : Machine) : Machine := { m with interrupted := false }

def counted (m : Machine) : Machine := { m with steps := m.steps + 1 }

def announced (m : Machine) (g : Guard) (l : Line) : Machine :=
  { m.report (.executed l) with interrupted := m.interrupted || g.alarm == some m.steps }

def weighed (m : Machine) : Condition → Machine
  | .compare .. => m
  | .invalid text => m.report (.undecided text)

def assigned (m : Machine) (name value : Text) : Machine :=
  { m with vars := m.vars.store name (.read value) }

def printed (m : Machine) (e : Expression) : Machine :=
  { m with output := m.output.print (e.shown m.vars) }

def defined (m : Machine) (name : Text) (body : List Line) : Machine :=
  { m.report (.defined name body.length) with functions := m.functions.insert name body }

end Machine

namespace Exec

abbrev Result (α : Type) := EStateM.Result Error Machine α

/-- The machine that is left, however the action ended. -/
def final {α : Type} : Result α → Machine
  | .ok _ m | .error _ m => m

def mapMachine {α : Type} (f : Machine → Machine) : Result α → Result α
  | .ok a m => .ok a (f m)
  | .error e m => .error e (f m)

/-- The same end, with `a` for the result if there is one. -/
def returning {α : Type} (a : α) : Result Unit → Result α
  | .ok _ m => .ok a m
  | .error e m => .error e m

@[simp] theorem mapMachine_ok {α : Type} (f : Machine → Machine) (a : α) (m : Machine) :
    mapMachine f (.ok a m) = .ok a (f m) := rfl

@[simp] theorem mapMachine_error {α : Type} (f : Machine → Machine) (e : Error) (m : Machine) :
    mapMachine f (.error e m : Result α) = .error e (f m) := rfl

theorem mapMachine_id {α : Type} (r : Result α) : mapMachine id r = r := by cases r <;> rfl

theorem mapMachine_mapMachine {α : Type} (f f' : Machine → Machine) (r : Result α) :
    mapMachine f (mapMachine f' r) = mapMachine (f ∘ f') r := by cases r <;> rfl

@[simp] theorem final_mapMachine {α : Type} (f : Machine → Machine) (r : Result α) :
    final (mapMachine f r) = f (final r) := by cases r <;> rfl

@[simp] theorem final_returning {α : Type} (a : α) (r : Result Unit) :
    final (returning a r) = final r := by cases r <;> rfl

end Exec

inductive Action where
  | fail (e : Error) (m : Machine)
  | pass (done : Nat) (m : Machine)
  | enter (start stop done : Nat) (m : Machine)
  | call (p : Program) (m : Machine)

namespace Action

def branching (condition : Condition) (body : Program) (stop : Nat) (m : Machine) : Action :=
  let taken := condition.holds m.vars
  let m := (m.weighed condition).report (.branched taken)
  match taken, body.otherwise? with
  | true, some i => .enter 0 i (stop + 1) m
  | true, none => .enter 0 stop (stop + 1) m
  | false, some i => .enter (i + 1) stop (stop + 1) m
  | false, none => .pass (stop + 1) m

def ofBranch (l : Line) (condition : Condition) (rest : Program) (m : Machine) : Action :=
  match rest.closer? .conditional with
  | none => .fail (.ofOpenBlock l .conditional) m
  | some stop => branching condition (rest.take stop) stop m

def selecting (name : Text) (body : Program) (stop : Nat) (m : Machine) : Action :=
  match Arm.choose? body.arms (m.vars.fetch name).text with
  | some arm => .enter arm.start arm.stop (stop + 1) (m.report (.selected arm.label))
  | none => .pass (stop + 1) m

def ofSelection (l : Line) (name : Text) (rest : Program) (m : Machine) : Action :=
  match rest.closer? .selection with
  | none => .fail (.ofOpenBlock l .selection) m
  | some stop => selecting name (rest.take stop) stop m

def ofDefinition (l : Line) (name : Text) (rest : Program) (m : Machine) : Action :=
  match rest.closer? .function with
  | none => .fail (.ofOpenBlock l .function) m
  | some stop =>
    .pass (stop + 1) (m.defined name (Program.lines (rest.take stop)))

def ofCall (g : Guard) (l : Line) (name : Text) (m : Machine) : Action :=
  match m.functions.get? name with
  | none => .pass 0 (m.skip ⟨.undefinedFunction, some l, []⟩)
  | some body =>
    if g.maxCallDepth ≤ m.depth then .fail (.ofLimit .callDepth l g.maxCallDepth) m
    else match Program.ofLines body with
      | .error e => .fail e m
      | .ok p => .call p (m.report (.called name (m.depth + 1)))

/-- The action of a command whose start has been counted and announced. -/
def ofStatement (g : Guard) (c : Command) (rest : Program) (m : Machine) : Action :=
  match c.statement with
  | .assign name value => .pass 0 (m.assigned name value)
  | .print e => .pass 0 (m.printed e)
  | .ifThen condition => ofBranch c.line condition rest m
  | .caseOf name => ofSelection c.line name rest m
  | .define name => ofDefinition c.line name rest m
  | .call name => ofCall g c.line name m
  | .otherwise | .when _ | .close _ => .pass 0 m
  | .unrecognized => .pass 0 (m.skip ⟨.unrecognized, some c.line, []⟩)

/-- The action of a command, with the commands that follow it in its segment. -/
def ofCommand (g : Guard) (c : Command) (rest : Program) (m : Machine) : Action :=
  if m.interrupted then .fail ⟨.interrupted, some c.line, []⟩ m.calmed
  else if g.maxSteps < m.counted.steps then .fail (.ofLimit .steps c.line g.maxSteps) m.counted
  else ofStatement g c rest (m.counted.announced g c.line)

/-- Carries an action out, with bodies run by `inner`. -/
def perform (inner : Exec.Runner) (l : Line) (rest : Program) : Action → Exec.Result Nat
  | fail e m => .error e m
  | pass done m => .ok done m
  | enter start stop done m => Exec.returning done (inner l (rest.slice start stop) m)
  | call p m => Exec.returning 0 (Exec.mapMachine Machine.leaveCall (inner l p m.enterCall))

end Action

namespace Exec

open LineScript.Action

theorem bind_ok {ε σ α β : Type} {x : EStateM ε σ α} {f : α → EStateM ε σ β} {m m' : σ}
    {a : α} (h : x m = .ok a m') : (x >>= f) m = f a m' := by
  simp only [bind, EStateM.bind, h]

theorem bind_error {ε σ α β : Type} {x : EStateM ε σ α} {f : α → EStateM ε σ β} {m m' : σ}
    {e : ε} (h : x m = .error e m') : (x >>= f) m = .error e m' := by
  simp only [bind, EStateM.bind, h]

theorem bind_return {α : Type} (act : Exec Unit) (a : α) (m : Machine) :
    (do act; return a : Exec α) m = returning a (act m) := by
  cases h : act m with
  | ok u m' => exact bind_ok h
  | error e m' => exact bind_error h

theorem between_apply (enter leave : Machine → Machine) (act : Exec Unit) (m : Machine) :
    between enter leave act m = mapMachine leave (act (enter m)) := by
  unfold between
  cases act (enter m) <;> rfl

theorem closing_ok {b : Block} {rest : Program} {i : Nat} (h : rest.closer? b = some i)
    (l : Line) (m : Machine) : closing b l rest m = .ok i m := by
  unfold closing
  rw [h]
  rfl

theorem closing_error {b : Block} {rest : Program} (h : rest.closer? b = none)
    (l : Line) (m : Machine) : closing b l rest m = .error (.ofOpenBlock l b) m := by
  unfold closing
  rw [h]
  rfl

theorem decideCondition_apply (c : Condition) (m : Machine) :
    decideCondition c m = .ok (c.holds m.vars) (m.weighed c) := by
  cases c <;> rfl

theorem announce_apply (g : Guard) (l : Line) (m : Machine) :
    announce g l m = .ok () (m.announced g l) := rfl

theorem report_apply (e : Event) (m : Machine) : report e m = .ok () (m.report e) := rfl

theorem get_apply {ε σ : Type} (m : σ) : (get : EStateM ε σ σ) m = .ok m m := rfl

variable (inner : Runner) (l : Line) (rest : Program) (m : Machine)

theorem branch_apply (condition : Condition) :
    branch inner l condition rest m = (ofBranch l condition rest m).perform inner l rest := by
  unfold branch ofBranch
  cases hs : rest.closer? .conditional with
  | none => exact bind_error (closing_error hs l m)
  | some stop =>
    rw [bind_ok (closing_ok hs l m), bind_ok (decideCondition_apply condition m),
      bind_ok (report_apply _ _)]
    dsimp only [branching]
    cases condition.holds m.vars with
    | true =>
      cases ho : Program.otherwise? (rest.take stop) with
      | none => exact bind_return ..
      | some i =>
        have hi : i ≤ stop := by
          have := (Program.isCut_of_otherwise? ho).1
          rw [List.length_take] at this
          omega
        have he : rest.slice 0 i = (rest.take stop).take i := by
          rw [List.take_take, Nat.min_eq_left hi]
          rfl
        unfold perform
        dsimp only
        rw [he]
        exact bind_return ..
    | false =>
      cases ho : Program.otherwise? (rest.take stop) with
      | none => rfl
      | some i => exact bind_return ..

theorem select_apply (name : Text) :
    select inner l name rest m = (ofSelection l name rest m).perform inner l rest := by
  unfold select ofSelection
  cases hs : rest.closer? .selection with
  | none => exact bind_error (closing_error hs l m)
  | some stop =>
    rw [bind_ok (closing_ok hs l m), bind_ok (get_apply m)]
    dsimp only [selecting]
    cases ha : Arm.choose? (Program.arms (rest.take stop)) (m.vars.fetch name).text with
    | none => rfl
    | some arm =>
      have hb := Program.balanced_take_of_closer? hs
      have hstop : arm.stop ≤ stop := by
        have := (hb.isCut_of_mem_arms (Program.mem_arms_of_choose? ha)).2.1
        rw [List.length_take] at this
        omega
      have he : rest.slice arm.start arm.stop =
          Program.slice (rest.take stop) arm.start arm.stop := by
        unfold Program.slice
        rw [List.take_take, Nat.min_eq_left hstop]
      unfold perform
      dsimp only
      rw [he, bind_ok (report_apply _ _)]
      exact bind_return ..

theorem define_apply (name : Text) :
    define l name rest m = (ofDefinition l name rest m).perform inner l rest := by
  unfold define ofDefinition
  cases hs : rest.closer? .function with
  | none => exact bind_error (closing_error hs l m)
  | some stop => exact bind_ok (closing_ok hs l m)

theorem call_apply (g : Guard) (name : Text) :
    (do call g inner l name; return 0) m = (ofCall g l name m).perform inner l rest := by
  rw [bind_return]
  unfold call ofCall
  rw [bind_ok (get_apply m)]
  cases m.functions.get? name with
  | none => rfl
  | some body =>
    dsimp only
    by_cases hd : g.maxCallDepth ≤ m.depth
    · rw [if_pos hd, if_pos hd]
      rfl
    · rw [if_neg hd, if_neg hd]
      cases Program.ofLines body with
      | error e => rfl
      | ok p =>
        have hp : (ofExcept (.ok p) : Exec Program) m = .ok p m := rfl
        rw [bind_ok hp, bind_ok (report_apply _ _), between_apply]
        rfl

/-- Executing a command is performing its action. -/
theorem execute_apply (g : Guard) (c : Command) :
    execute g inner c rest m = (ofCommand g c rest m).perform inner c.line rest := by
  have ht := tick_apply g c.line m
  unfold execute ofCommand
  by_cases hi : m.interrupted = true
  · rw [if_pos hi] at ht ⊢
    exact bind_error ht
  · rw [if_neg hi] at ht ⊢
    by_cases hs : g.maxSteps < m.counted.steps
    · rw [if_pos hs]
      exact bind_error (ht.trans (if_pos hs))
    · rw [if_neg hs, bind_ok (ht.trans (if_neg hs)), bind_ok (announce_apply _ _ _)]
      unfold ofStatement
      cases c.statement with
      | ifThen condition => exact branch_apply ..
      | caseOf name => exact select_apply ..
      | define name => exact define_apply ..
      | call name => exact call_apply ..
      | print e => cases e <;> rfl
      | assign name value => rfl
      | otherwise => rfl
      | when label => rfl
      | close b => rfl
      | unrecognized => rfl

end Exec

end LineScript
