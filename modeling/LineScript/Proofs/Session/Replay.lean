import LineScript.Proofs.Session.Shown
import LineScript.Proofs.Table

/-! # Replaying the events of a run

The events of a run account for all its effects. A reader who has the events alone, and knows the
session in which the run began, finds the variables and the names of the functions that it leaves,
however it ends, and what it has emitted.
-/

namespace LineScript

/-- What the events of a run so far tell about its effects. -/
structure Replay where
  vars : Variables
  /-- The names of the functions. -/
  names : List Text
  emitted : Text := []

def Event.given? (name : Text) : Event → Option Value
  | executed l =>
    match Statement.read l.text with
    | .ok (.assign name' value) => if name = name' then some (.read value) else none
    | _ => none
  | _ => none

theorem Event.given?_eq_some_iff {name : Text} {e : Event} {v : Value} :
    e.given? name = some v ↔ ∃ l value, e = .executed l ∧
      Statement.read l.text = .ok (.assign name value) ∧ v = .read value := by
  constructor
  · intro h
    unfold given? at h
    split at h
    · next l =>
      split at h
      · next name' value hread =>
        split at h
        · next hn =>
          cases h
          exact ⟨l, value, rfl, hn ▸ hread, rfl⟩
        · cases h
      · cases h
    · cases h
  · rintro ⟨l, value, rfl, hread, rfl⟩
    simp [given?, hread]

namespace Replay

def ofSession (s : Session) : Replay where
  vars := s.vars
  names := s.functions.names

def emit (r : Replay) (t : Text) : Replay := { r with emitted := r.emitted ++ (t ++ ['\n']) }

def perform (r : Replay) (l : Line) : Statement → Replay
  | .assign name value => { r with vars := r.vars.store name (.read value) }
  | .print e => if e.shown r.vars = [] then r else r.emit (e.shown r.vars)
  | .call name =>
    if name ∈ r.names then r else r.emit ('?' :: Error.message ⟨.undefinedFunction, some l, []⟩)
  | .unrecognized => r.emit ('?' :: Error.message ⟨.unrecognized, some l, []⟩)
  | _ => r

/-- Takes in one event. Of an executed line there is only the text, which is read again. -/
def step (r : Replay) : Event → Replay
  | .executed l =>
    match Statement.read l.text with
    | .ok st => r.perform l st
    | .error _ => r
  | .defined name _ => { r with names := name :: r.names }
  | _ => r

def ofEvents (s : Session) (es : List Event) : Replay := es.foldl step (ofSession s)

theorem ofEvents_append_singleton (s : Session) (es : List Event) (e : Event) :
    ofEvents s (es ++ [e]) = (ofEvents s es).step e := by
  simp [ofEvents]

theorem names_perform (r : Replay) (l : Line) (st : Statement) :
    (r.perform l st).names = r.names := by
  cases st <;> simp only [perform, emit] <;> split <;> rfl

theorem mem_names_step {r : Replay} {e : Event} {name : Text} :
    name ∈ (r.step e).names ↔ name ∈ r.names ∨ ∃ n, e = .defined name n := by
  cases e with
  | executed l =>
    cases hr : Statement.read l.text <;> simp [step, hr, names_perform]
  | defined name' n =>
    simp only [step, List.mem_cons, Event.defined.injEq]
    constructor
    · rintro (rfl | h)
      · exact .inr ⟨n, rfl, rfl⟩
      · exact .inl h
    · rintro (h | ⟨_, rfl, -⟩)
      · exact .inr h
      · exact .inl rfl
  | _ => simp [step]

theorem mem_names_foldl {r : Replay} {es : List Event} {name : Text} :
    name ∈ (es.foldl step r).names ↔ name ∈ r.names ∨ ∃ n, .defined name n ∈ es := by
  induction es generalizing r with
  | nil => simp
  | cons e es ih =>
    simp only [List.foldl_cons, ih, mem_names_step, List.mem_cons, or_assoc, exists_or, eq_comm]

theorem get?_vars_step (r : Replay) (e : Event) (name : Text) :
    (r.step e).vars.get? name = (e.given? name).or (r.vars.get? name) := by
  cases e with
  | executed l =>
    cases hr : Statement.read l.text with
    | error f => simp [step, Event.given?, hr]
    | ok st =>
      simp only [step, Event.given?, hr]
      cases st with
      | assign name' value =>
        simp only [perform, Variables.store, Table.get?_insert]
        split <;> rfl
      | print e => simp only [perform]; split <;> rfl
      | call name' => simp only [perform]; split <;> rfl
      | _ => rfl
  | _ => rfl

theorem get?_vars_foldl (r : Replay) (es : List Event) (name : Text) :
    (es.foldl step r).vars.get? name =
      (es.reverse.findSome? (Event.given? name)).or (r.vars.get? name) := by
  induction es generalizing r with
  | nil => rfl
  | cons e es ih =>
    rw [List.foldl_cons, ih, get?_vars_step, List.reverse_cons, List.findSome?_append,
      List.findSome?_singleton, Option.or_assoc]

theorem contains_vars_foldl {r : Replay} {name : Text} (h : r.vars.contains name = true)
    (es : List Event) : (es.foldl step r).vars.contains name = true := by
  unfold Table.contains at *
  rw [get?_vars_foldl, Option.isSome_or, h, Bool.or_true]

theorem vars_foldl_of_forall {P : Text → Value → Prop} {r : Replay} {es : List Event}
    (hr : ∀ name v, r.vars.get? name = some v → P name v)
    (hes : ∀ l name value, .executed l ∈ es → Statement.read l.text = .ok (.assign name value) →
      P name (.read value)) :
    ∀ name v, (es.foldl step r).vars.get? name = some v → P name v := by
  intro name v hget
  rw [get?_vars_foldl, Option.or_eq_some_iff] at hget
  rcases hget with hget | ⟨-, hget⟩
  · obtain ⟨e, he, hg⟩ := List.exists_of_findSome?_eq_some hget
    obtain ⟨l, value, rfl, hread, rfl⟩ := Event.given?_eq_some_iff.mp hg
    exact hes l name value (List.mem_reverse.mp he) hread
  · exact hr name v hget

structure Matches (r : Replay) (m : Machine) : Prop where
  vars : r.vars = m.vars
  names : ∀ name, name ∈ r.names ↔ m.functions.contains name = true
  emitted : r.emitted = m.output.emitted

end Replay

namespace Machine

def replay (s : Session) (m : Machine) : Replay := Replay.ofEvents s m.events.reverse

@[simp] theorem replay_report (s : Session) (m : Machine) (e : Event) :
    (m.report e).replay s = (m.replay s).step e := by
  simp [replay, report, Replay.ofEvents_append_singleton]

/-- The events on the machine account for what it is, from the session on. -/
def Accounted (s : Session) (m : Machine) : Prop := (m.replay s).Matches m

variable {s : Session} {m : Machine}

theorem Accounted.report (h : m.Accounted s) {e : Event} (he : ∀ r, Replay.step r e = r) :
    (m.report e).Accounted s := by
  unfold Accounted
  rw [replay_report, he]
  exact ⟨h.vars, h.names, h.emitted⟩

theorem Accounted.weighed (h : m.Accounted s) (c : Condition) : (m.weighed c).Accounted s := by
  cases c with
  | compare lhs op rhs => exact h
  | invalid text => exact h.report fun _ => rfl

theorem Accounted.defined (h : m.Accounted s) (name : Text) (body : List Line) :
    (m.defined name body).Accounted s := by
  have hr : (m.defined name body).replay s = (m.replay s).step (.defined name body.length) :=
    replay_report s m _
  unfold Accounted
  rw [hr]
  refine ⟨h.vars, fun name' => ?_, h.emitted⟩
  simp [Replay.step, Machine.defined, Table.contains_insert, h.names]

section Announced

-- the account of an announced statement is ahead of the machine until the statement is done
variable {r : Replay} (h : r.Matches m)

include h

theorem accounted_assigned {name value : Text}
    (hr : m.replay s = { r with vars := r.vars.store name (.read value) }) :
    (m.assigned name value).Accounted s := by
  have hm : (m.assigned name value).replay s = _ := hr
  unfold Accounted
  rw [hm]
  exact ⟨congrArg (Variables.store · name (.read value)) h.vars, h.names, h.emitted⟩

theorem accounted_printed {e : Expression}
    (hr : m.replay s = if e.shown r.vars = [] then r else r.emit (e.shown r.vars)) :
    (m.printed e).Accounted s := by
  have hm : (m.printed e).replay s = _ := hr
  unfold Accounted
  rw [hm, h.vars]
  split
  · next he => exact ⟨h.vars, h.names, by simp [printed, Output.print, he, h.emitted]⟩
  · next he =>
    exact ⟨h.vars, h.names, by simp [printed, Output.print, he, h.emitted, Replay.emit]⟩

theorem accounted_skip {e : Error} (hr : m.replay s = r.emit ('?' :: e.message)) :
    (m.skip e).Accounted s := by
  have hm : (m.skip e).replay s = m.replay s := replay_report s m (.skipped e)
  unfold Accounted
  rw [hm, hr]
  exact ⟨h.vars, h.names, by simp [skip, Output.diagnostic, Replay.emit, h.emitted]⟩

end Announced

end Machine

namespace Action

variable {s : Session} {m : Machine} {rest : Program}

theorem accounted_ofBranch (h : m.Accounted s) (l : Line) (condition : Condition) :
    (ofBranch l condition rest m).machine.Accounted s := by
  have hb : ((m.weighed condition).report (.branched (condition.holds m.vars))).Accounted s :=
    (h.weighed condition).report fun _ => rfl
  unfold ofBranch
  cases rest.closer? .conditional with
  | none => exact h
  | some stop =>
    simp only [branching]
    split <;> exact hb

theorem accounted_ofSelection (h : m.Accounted s) (l : Line) (name : Text) :
    (ofSelection l name rest m).machine.Accounted s := by
  unfold ofSelection
  cases rest.closer? .selection with
  | none => exact h
  | some stop =>
    simp only [selecting]
    split
    · exact h.report fun _ => rfl
    · exact h

theorem accounted_ofDefinition (h : m.Accounted s) (l : Line) (name : Text) :
    (ofDefinition l name rest m).machine.Accounted s := by
  unfold ofDefinition
  cases rest.closer? .function with
  | none => exact h
  | some stop => exact h.defined name _

theorem accounted_ofCall (h : m.Accounted s) (g : Guard) (l : Line) {name : Text}
    (hf : m.functions.contains name = true) : (ofCall g l name m).machine.Accounted s := by
  obtain ⟨body, hb⟩ := Option.isSome_iff_exists.mp hf
  simp only [ofCall, hb]
  split
  · exact h
  · split
    · exact h
    · exact h.report fun _ => rfl

theorem accounted_ofStatement {r : Replay} {c : Command} (h : r.Matches m)
    (hr : m.replay s = r.perform c.line c.statement) (g : Guard) (rest : Program) :
    (ofStatement g c rest m).machine.Accounted s := by
  have hsame : m.replay s = r → m.Accounted s := by
    rintro rfl
    exact h
  unfold ofStatement
  generalize c.statement = st at hr
  cases st with
  | assign name value => exact Machine.accounted_assigned h hr
  | print e => exact Machine.accounted_printed h hr
  | ifThen condition => exact accounted_ofBranch (hsame hr) c.line condition
  | caseOf name => exact accounted_ofSelection (hsame hr) c.line name
  | define name => exact accounted_ofDefinition (hsame hr) c.line name
  | call name =>
    simp only [Replay.perform, h.names] at hr
    split at hr
    · next hf => exact accounted_ofCall (hsame hr) g c.line hf
    · next hf =>
      have hget : m.functions.get? name = none := by simpa [Table.contains] using hf
      simp only [ofCall, hget]
      exact Machine.accounted_skip h hr
  | otherwise | when label | close b => exact hsame hr
  | unrecognized => exact Machine.accounted_skip h hr

theorem accounted_ofCommand {c : Command} (h : m.Accounted s)
    (hr : Statement.read c.line.text = .ok c.statement) (g : Guard) (rest : Program) :
    (ofCommand g c rest m).machine.Accounted s := by
  have hannounced : (m.replay s).Matches (m.counted.announced g c.line) :=
    ⟨h.vars, h.names, h.emitted⟩
  have hstep : (m.counted.announced g c.line).replay s = (m.replay s).step (.executed c.line) :=
    Machine.replay_report s m _
  simp only [Replay.step, hr] at hstep
  unfold ofCommand
  split
  · exact ⟨h.vars, h.names, h.emitted⟩
  · split
    · exact ⟨h.vars, h.names, h.emitted⟩
    · exact accounted_ofStatement hannounced hstep g rest

end Action

theorem Point.preserved_accounted (g : Guard) (s : Session) :
    Preserved g (Machine.Accounted s) (·.program.IsRead) where
  enter := fun scope _ h => by cases scope <;> exact ⟨h.vars, h.names, h.emitted⟩
  leave := fun scope _ h => by cases scope <;> exact ⟨h.vars, h.names, h.emitted⟩
  action := by
    intro f c rest m hs hm hf
    have hc := Frame.mem_program_of_segment hs List.mem_cons_self
    exact Action.accounted_ofCommand hm (hf c hc) g rest
  advance := fun _ _ hf => hf
  block := fun _ _ _ hf => hf
  call := fun _ _ hp => Program.isRead_of_ofLines hp

namespace Session

theorem accounted_machine (s : Session) (source : Text) : (s.machine g source).Accounted s := by
  have hnew : (Machine.ofSession g s).Accounted s := ⟨rfl, fun _ => Table.mem_names, rfl⟩
  exact hnew.report fun _ => rfl

/-- The events of a run account for the machine that it leaves, however it ends. -/
theorem accounted_run (g : Guard) (s : Session) (source : Text) :
    (run g s source).machine.Accounted s := by
  refine machine_run_preserved (Point.preserved_accounted g s) (accounted_machine s source) ?_ ?_ ?_
  · exact fun p hp => Program.isRead_of_ofLines hp
  · exact fun m n hm => hm.report fun _ => rfl
  · exact fun m e hm => hm.report fun _ => rfl

/--
The events of a run account for every effect, whether it succeeds, fails or is interrupted. Replayed
in order from the session in which the run began, they give the variables that the run leaves, and,
if it succeeds, what is shown. The functions are those of the session and those that an event
defines. So no run removes a variable or a function.
-/
theorem events_account_for_effects (g : Guard) (s : Session) (source : Text) :
    let r := run g s source
    let replay := Replay.ofEvents s r.events
    r.session.vars = replay.vars ∧
    (∀ name, r.session.functions.contains name = true ↔
      s.functions.contains name = true ∨ ∃ n, .defined name n ∈ r.events) ∧
    (∀ shown, r.result = .ok shown → shown = Output.showing replay.emitted) ∧
    ∀ name, s.vars.contains name = true → r.session.vars.contains name = true := by
  intro r replay
  have h : replay.Matches r.machine := accounted_run g s source
  refine ⟨h.vars.symm, fun name => ?_, fun shown hok => ?_, fun name hname => ?_⟩
  · refine (h.names name).symm.trans ?_
    rw [← Table.mem_names]
    exact Replay.mem_names_foldl
  · rw [h.emitted]
    exact shown_of_ok hok
  · change r.machine.vars.contains name = true
    rw [← h.vars]
    exact Replay.contains_vars_foldl hname r.events

/-- A call before and after the definition of its function, and a run that is interrupted. -/
theorem events_account_for_calls :
    ∃ source shown : Text,
      source = "CALL F\nX = 1\nDEFINE F AS FUNCTION\nPRINT(X)\nENDFUNCTION\nCALL F".toList ∧
      shown = "?UNDEFINED FUNCTION IN 1: CALL F\n1\n".toList ∧
      (run {} {} source).result = .ok shown ∧
      shown = Output.showing (Replay.ofEvents {} (run {} {} source).events).emitted ∧
      (∃ n, .defined ['F'] n ∈ (run {} {} source).events) ∧
      (run { alarm := some 2 } {} source).session.vars =
        (Replay.ofEvents {} (run { alarm := some 2 } {} source).events).vars := by
  obtain ⟨source, hs⟩ : ∃ source, source =
      "CALL F\nX = 1\nDEFINE F AS FUNCTION\nPRINT(X)\nENDFUNCTION\nCALL F".toList := ⟨_, rfl⟩
  have hok : (run {} {} source).result = .ok "?UNDEFINED FUNCTION IN 1: CALL F\n1\n".toList := by
    rw [hs]
    decide +kernel
  have hf : (run {} {} source).session.functions.contains ['F'] = true := by
    rw [hs]
    decide +kernel
  obtain ⟨-, hnames, hshown, -⟩ := events_account_for_effects {} {} source
  obtain ⟨hvars, -⟩ := events_account_for_effects { alarm := some 2 } {} source
  refine ⟨source, _, hs, rfl, hok, hshown _ hok, ?_, hvars⟩
  exact ((hnames ['F']).mp hf).resolve_left (by decide)

end Session

end LineScript
