import LineScript.Proofs.Machine.Point

/-! # Statements started

A command that is next is stopped by an interrupt, or by the limit on steps, or else it is counted
and announced; what it does after that starts no other statement. So a run that is not interrupted
executes as many statements as it starts, up to the limit on steps.
-/

namespace LineScript

def Event.executedLine? : Event → Option Line
  | executed l => some l
  | _ => none

namespace Machine

/-- The lines of the statements executed so far, latest first. -/
def executed (m : Machine) : List Line := m.events.filterMap Event.executedLine?

/-- What happens between `m` and `m'` belongs to the statement that is under way. -/
structure Continues (m m' : Machine) : Prop where
  interrupted : m'.interrupted = m.interrupted
  steps : m'.steps = m.steps
  events : m.events <:+ m'.events
  executed : m'.executed = m.executed

theorem Continues.refl (m : Machine) : Continues m m := ⟨rfl, rfl, List.suffix_rfl, rfl⟩

theorem Continues.report {m m' : Machine} (h : Continues m m') {e : Event}
    (he : e.executedLine? = none) : Continues m (m'.report e) where
  interrupted := h.interrupted
  steps := h.steps
  events := h.events.trans (List.suffix_cons e m'.events)
  executed := by simpa [Machine.executed, Machine.report, he] using h.executed

theorem Change.continues {g : Guard} {c : Command} {rest : Program} {m m' : Machine}
    (h : Change g c rest m m') : Continues m m' := by
  have hr : Continues m m := .refl m
  cases h with
  | none | assign | print => exact ⟨rfl, rfl, List.suffix_rfl, rfl⟩
  | select | call => exact hr.report rfl
  | define | undefined | unrecognized => exact ⟨rfl, rfl, List.suffix_cons .., rfl⟩
  | @decide condition =>
    cases condition with
    | compare lhs op rhs => exact hr.report rfl
    | invalid text => exact (hr.report rfl).report rfl

end Machine

namespace Action

inductive Start (g : Guard) (c : Command) (m : Machine) : Action → Prop where
  | interrupted : m.interrupted = true →
      Start g c m (.fail ⟨.interrupted, some c.line, []⟩ m.calmed)
  | exhausted : m.interrupted = false → g.maxSteps ≤ m.steps →
      Start g c m (.fail (.ofLimit .steps c.line g.maxSteps) m.counted)
  | started {a : Action} : m.interrupted = false → m.steps < g.maxSteps →
      (m.counted.announced g c.line).Continues a.machine → Start g c m a

section Equations

variable {g : Guard} {m : Machine} (c : Command) (rest : Program)

theorem ofCommand_of_interrupted (hi : m.interrupted = true) :
    ofCommand g c rest m = .fail ⟨.interrupted, some c.line, []⟩ m.calmed := if_pos hi

theorem ofCommand_of_exhausted (hi : m.interrupted = false) (hs : g.maxSteps ≤ m.steps) :
    ofCommand g c rest m = .fail (.ofLimit .steps c.line g.maxSteps) m.counted := by
  have hs : g.maxSteps < m.counted.steps := Nat.lt_succ_of_le hs
  simp [ofCommand, hi, hs]

theorem ofCommand_of_started (hi : m.interrupted = false) (hs : m.steps < g.maxSteps) :
    ofCommand g c rest m = ofStatement g c rest (m.counted.announced g c.line) := by
  have hs : ¬ g.maxSteps < m.counted.steps := Nat.not_lt.mpr hs
  simp [ofCommand, hi, hs]

end Equations

theorem start_ofCommand (g : Guard) (c : Command) (rest : Program) (m : Machine) :
    Start g c m (ofCommand g c rest m) := by
  cases hi : m.interrupted with
  | true =>
    rw [ofCommand_of_interrupted c rest hi]
    exact .interrupted hi
  | false =>
    rcases Nat.lt_or_ge m.steps g.maxSteps with hs | hs
    · rw [ofCommand_of_started c rest hi hs]
      exact .started hi hs change_ofStatement.continues
    · rw [ofCommand_of_exhausted c rest hi hs]
      exact .exhausted hi hs

end Action

namespace Machine

/-- No interrupt is pending, and the statements started are executed, up to the limit on steps. -/
structure Tallied (g : Guard) (m : Machine) : Prop where
  calm : m.interrupted = false
  length_executed : m.executed.length = min m.steps g.maxSteps

theorem Tallied.relevel {g : Guard} {m : Machine} (h : m.Tallied g) (depth nesting : Nat) :
    Tallied g { m with depth, nesting } := ⟨h.calm, h.length_executed⟩

end Machine

theorem Action.tallied_ofCommand {g : Guard} (hg : g.alarm = none) {m : Machine}
    (hm : m.Tallied g) (c : Command) (rest : Program) :
    (ofCommand g c rest m).machine.Tallied g := by
  have hl := hm.length_executed
  have hstart := start_ofCommand g c rest m
  generalize ofCommand g c rest m = a at hstart
  cases hstart with
  | interrupted hi => exact absurd hi (by simp [hm.calm])
  | exhausted _ hs =>
    refine ⟨hm.calm, ?_⟩
    change m.executed.length = min (m.steps + 1) g.maxSteps
    omega
  | started _ hs hc =>
    constructor
    · simp [hc.interrupted, Machine.announced, Machine.counted, hm.calm, hg]
    · rw [hc.executed, hc.steps]
      change m.executed.length + 1 = min (m.steps + 1) g.maxSteps
      omega

theorem Point.preserved_tallied {g : Guard} (hg : g.alarm = none) :
    Preserved g (Machine.Tallied g) fun _ => True where
  enter := fun scope _ h => by cases scope <;> exact h.relevel _ _
  leave := fun scope _ h => by cases scope <;> exact h.relevel _ _
  action := fun _ hm _ => Action.tallied_ofCommand hg hm _ _
  advance := fun _ _ _ => trivial
  block := fun _ _ _ _ => trivial
  call := fun _ _ _ => trivial

namespace Exec

variable {g : Guard} {p : Program} {m : Machine}

theorem Reaches.tallied (hg : g.alarm = none) {pt : Point} (h : Reaches g p m pt)
    (hm : m.Tallied g) : pt.machine.Tallied g :=
  (h.preserved (Point.preserved_tallied hg) hm trivial).1

theorem tallied_final (hg : g.alarm = none) (hm : m.Tallied g) : (final (run g p m)).Tallied g :=
  final_preserved (Point.preserved_tallied hg) hm trivial

end Exec

end LineScript
