import LineScript.Proofs.Machine.Action

/-! # What an action can do

An action changes the machine in one of a few ways, and passes control on in one of four. Each way
is recorded here once with all that is known when it is taken.
-/

namespace LineScript

/-- The command takes up the first `done` of the commands after it: its block, or none of them. -/
inductive Command.Spans (c : Command) (rest : Program) : (done : Nat) → Prop where
  | plain : c.statement.opens = none → Spans c rest 0
  | block {b : Block} {i : Nat} : c.statement.opens = some b → rest.closer? b = some i →
      Spans c rest (i + 1)

theorem Command.Spans.le_length {c : Command} {rest : Program} {done : Nat}
    (h : c.Spans rest done) : done ≤ rest.length := by
  cases h with
  | plain => exact Nat.zero_le _
  | block _ hc => exact Program.lt_length_of_closer? hc

theorem Command.Spans.balanced {c : Command} {rest : Program} {done : Nat}
    (h : c.Spans rest done) (hb : Program.Balanced (c :: rest)) :
    Program.Balanced (rest.drop done) := by
  cases h with
  | plain ho => exact hb.tail ho
  | @block b i ho hc =>
    obtain ⟨j, hj, hd⟩ := hb.closer? ho
    cases hc.symm.trans hj
    exact hd

/-- The changes that the command `c`, followed by `rest`, can make to a machine once started. -/
inductive Machine.Change (g : Guard) (c : Command) (rest : Program) (m : Machine) :
    Machine → Prop where
  | none : Change g c rest m m
  | assign {name value : Text} : c.statement = .assign name value →
      Change g c rest m (m.assigned name value)
  | print {e : Expression} : c.statement = .print e → Change g c rest m (m.printed e)
  | decide {condition : Condition} : c.statement = .ifThen condition →
      Change g c rest m ((m.weighed condition).report (.branched (condition.holds m.vars)))
  | select {name : Text} {label : Option Text} : c.statement = .caseOf name →
      Change g c rest m (m.report (.selected label))
  | define {name : Text} {stop : Nat} : c.statement = .define name →
      rest.closer? .function = some stop →
      Change g c rest m (m.defined name (Program.lines (rest.take stop)))
  | call {name : Text} {body : List Line} : c.statement = .call name →
      m.functions.get? name = some body → m.depth < g.maxCallDepth →
      Change g c rest m (m.report (.called name (m.depth + 1)))
  | undefined {name : Text} : c.statement = .call name → m.functions.get? name = .none →
      Change g c rest m (m.skip ⟨.undefinedFunction, some c.line, []⟩)
  | unrecognized : c.statement = .unrecognized →
      Change g c rest m (m.skip ⟨.unrecognized, some c.line, []⟩)

namespace Action

def machine : Action → Machine
  | fail _ m | pass _ m | enter _ _ _ m | call _ m => m

variable {g : Guard} {c : Command} {rest : Program} {m m' : Machine}

theorem change_ofBranch {condition : Condition} (h : c.statement = .ifThen condition) :
    Machine.Change g c rest m (ofBranch c.line condition rest m).machine := by
  have hd : Machine.Change g c rest m _ := .decide h
  unfold ofBranch
  split
  · exact .none
  · unfold branching
    dsimp only
    split <;> exact hd

theorem change_ofSelection {name : Text} (h : c.statement = .caseOf name) :
    Machine.Change g c rest m (ofSelection c.line name rest m).machine := by
  unfold ofSelection
  split
  · exact .none
  · unfold selecting
    split
    · exact .select h
    · exact .none

theorem change_ofDefinition {name : Text} (h : c.statement = .define name) :
    Machine.Change g c rest m (ofDefinition c.line name rest m).machine := by
  unfold ofDefinition
  split
  · exact .none
  · next hs => exact .define h hs

theorem change_ofCall {name : Text} (h : c.statement = .call name) :
    Machine.Change g c rest m (ofCall g c.line name m).machine := by
  unfold ofCall
  split
  · next hf => exact .undefined h hf
  · next hf =>
    split
    · exact .none
    · next hd =>
      split
      · exact .none
      · exact .call h hf (Nat.not_le.mp hd)

theorem change_ofStatement : Machine.Change g c rest m (ofStatement g c rest m).machine := by
  unfold ofStatement
  split
  · next h => exact .assign h
  · next h => exact .print h
  · next h => exact change_ofBranch h
  · next h => exact change_ofSelection h
  · next h => exact change_ofDefinition h
  · next h => exact change_ofCall h
  · exact .none
  · exact .none
  · exact .none
  · next h => exact .unrecognized h

/-- A property that survives the start of a command and its change survives its action. -/
theorem machine_ofCommand {P : Machine → Prop} (hcalm : P m.calmed) (hcount : P m.counted)
    (hchange : m.interrupted = false → m.counted.steps ≤ g.maxSteps → ∀ m',
      Machine.Change g c rest (m.counted.announced g c.line) m' → P m') :
    P (ofCommand g c rest m).machine := by
  unfold ofCommand
  split
  · exact hcalm
  · next hi =>
    split
    · exact hcount
    · next hs => exact hchange (by simpa using hi) (Nat.not_lt.mp hs) _ change_ofStatement

/-- How the command `c`, followed by `rest`, can pass control on. -/
inductive Control (g : Guard) (c : Command) (rest : Program) (m : Machine) : Action → Prop where
  | interrupted {m' : Machine} : m.interrupted = true →
      Control g c rest m (.fail ⟨.interrupted, some c.line, []⟩ m')
  | steps {m' : Machine} : g.maxSteps < m.counted.steps →
      Control g c rest m (.fail (.ofLimit .steps c.line g.maxSteps) m')
  | callDepth {m' : Machine} : g.maxCallDepth ≤ m.depth →
      Control g c rest m (.fail (.ofLimit .callDepth c.line g.maxCallDepth) m')
  | unclosed {b : Block} {m' : Machine} : c.statement.opens = some b → rest.closer? b = none →
      Control g c rest m (.fail (.ofOpenBlock c.line b) m')
  | malformed {name : Text} {body : List Line} {e : Error} {m' : Machine} :
      m.functions.get? name = some body → Program.ofLines body = .error e →
      Control g c rest m (.fail e m')
  | plain {m' : Machine} : c.statement.opens = none → Control g c rest m (.pass 0 m')
  | block {b : Block} {i : Nat} {m' : Machine} : c.statement.opens = some b →
      rest.closer? b = some i → Control g c rest m (.pass (i + 1) m')
  | enter {b : Block} {i start stop : Nat} {m' : Machine} : c.statement.opens = some b →
      rest.closer? b = some i → start ≤ stop → stop ≤ i → Program.IsCut (rest.take i) start →
      Program.IsCut (rest.take i) stop → Control g c rest m (.enter start stop (i + 1) m')
  | call {name : Text} {body : List Line} {p : Program} {m' : Machine} :
      c.statement = .call name → m.functions.get? name = some body →
      Program.ofLines body = .ok p → m.depth < g.maxCallDepth → Control g c rest m (.call p m')

theorem control_ofBranch {condition : Condition} (h : c.statement = .ifThen condition) :
    Control g c rest m (ofBranch c.line condition rest m') := by
  have ho : c.statement.opens = some .conditional := by rw [h]; rfl
  unfold ofBranch
  split
  · next hs => exact .unclosed ho hs
  · next i hs =>
    have hl : (rest.take i).length = i := by
      have := Program.lt_length_of_closer? hs
      rw [List.length_take]
      omega
    have hstop : Program.IsCut (rest.take i) i := by
      have := Program.isCut_length (Program.balanced_take_of_closer? hs)
      rwa [hl] at this
    unfold branching
    dsimp only
    split
    · next j _ hj =>
      obtain ⟨hlt, hc, -⟩ := Program.isCut_of_otherwise? hj
      exact .enter ho hs (Nat.zero_le _) (by omega) (Program.isCut_zero _) hc
    · exact .enter ho hs (Nat.zero_le _) (Nat.le_refl _) (Program.isCut_zero _) hstop
    · next j _ hj =>
      obtain ⟨hlt, -, hc⟩ := Program.isCut_of_otherwise? hj
      exact .enter ho hs (by omega) (Nat.le_refl _) hc hstop
    · exact .block ho hs

theorem control_ofSelection {name : Text} (h : c.statement = .caseOf name) :
    Control g c rest m (ofSelection c.line name rest m') := by
  have ho : c.statement.opens = some .selection := by rw [h]; rfl
  unfold ofSelection
  split
  · next hs => exact .unclosed ho hs
  · next i hs =>
    unfold selecting
    split
    · next arm ha =>
      obtain ⟨hle, hstop, hc, hc'⟩ := (Program.balanced_take_of_closer? hs).isCut_of_mem_arms
        (Program.mem_arms_of_choose? ha)
      rw [List.length_take] at hstop
      exact .enter ho hs hle (by omega) hc hc'
    · exact .block ho hs

theorem control_ofDefinition {name : Text} (h : c.statement = .define name) :
    Control g c rest m (ofDefinition c.line name rest m') := by
  have ho : c.statement.opens = some .function := by rw [h]; rfl
  unfold ofDefinition
  split
  · next hs => exact .unclosed ho hs
  · next i hs => exact .block ho hs

theorem control_ofCall {name : Text} (h : c.statement = .call name)
    (hf : m'.functions = m.functions) (hd : m'.depth = m.depth) :
    Control g c rest m (ofCall g c.line name m') := by
  have ho : c.statement.opens = none := by rw [h]; rfl
  unfold ofCall
  rw [hf, hd]
  split
  · exact .plain ho
  · next body hb =>
    split
    · next hlt => exact .callDepth hlt
    · next hlt =>
      split
      · next e he => exact .malformed hb he
      · next p hp => exact .call h hb hp (Nat.not_le.mp hlt)

/-- Every action of a command passes control on in one of these ways. -/
theorem control_ofCommand (g : Guard) (c : Command) (rest : Program) (m : Machine) :
    Control g c rest m (ofCommand g c rest m) := by
  unfold ofCommand
  split
  · next hi => exact .interrupted hi
  · split
    · next hs => exact .steps hs
    · unfold ofStatement
      split
      case h_3 condition h => exact control_ofBranch h
      case h_4 name h => exact control_ofSelection h
      case h_5 name h => exact control_ofDefinition h
      case h_6 name h => exact control_ofCall h rfl rfl
      all_goals next h => exact .plain (by rw [h]; rfl)

section Span

variable {done start stop : Nat} {p : Program}

theorem Control.spans_of_pass (h : Control g c rest m (.pass done m')) : c.Spans rest done := by
  cases h with
  | plain ho => exact .plain ho
  | block ho hc => exact .block ho hc

theorem Control.spans_of_enter (h : Control g c rest m (.enter start stop done m')) :
    c.Spans rest done := by
  cases h with
  | enter ho hc => exact .block ho hc

theorem Control.spans_of_call (h : Control g c rest m (.call p m')) : c.Spans rest 0 := by
  cases h with
  | call hs => exact .plain (by rw [hs]; rfl)

theorem Control.balanced_of_enter (h : Control g c rest m (.enter start stop done m')) :
    stop ≤ rest.length ∧ Program.Balanced (rest.slice start stop) := by
  cases h with
  | @enter b i _ _ _ ho hc hle hstop hcut hcut' =>
    have hlt := Program.lt_length_of_closer? hc
    have hs : Program.slice (rest.take i) start stop = rest.slice start stop := by
      unfold Program.slice
      rw [List.take_take, Nat.min_eq_left hstop]
    refine ⟨by omega, ?_⟩
    rw [← hs]
    exact hcut.balanced_slice hcut' hle

end Span

theorem tables_ofCommand {a : Action} (h : ofCommand g c rest m = a)
    (hp : ∀ done m', a ≠ .pass done m') :
    a.machine.vars = m.vars ∧ a.machine.functions = m.functions := by
  subst h
  revert hp
  refine machine_ofCommand (P := fun m' => _ → m'.vars = m.vars ∧ m'.functions = m.functions)
    (fun _ => ⟨rfl, rfl⟩) (fun _ => ⟨rfl, rfl⟩) ?_
  intro hi hs m' hc hp
  have ha : ofCommand g c rest m = ofStatement g c rest (m.counted.announced g c.line) := by
    rw [ofCommand, if_neg (by simp [hi]), if_neg (Nat.not_lt.mpr hs)]
  rw [ha] at hp
  cases hc with
  | assign hst => exact absurd (by rw [ofStatement, hst]) (hp 0 _)
  | @define name stop hst hcl =>
    exact absurd (by rw [ofStatement, hst]; dsimp only; rw [ofDefinition, hcl]) (hp (stop + 1) _)
  | @decide condition _ => cases condition <;> exact ⟨rfl, rfl⟩
  | _ => exact ⟨rfl, rfl⟩

end Action

end LineScript
