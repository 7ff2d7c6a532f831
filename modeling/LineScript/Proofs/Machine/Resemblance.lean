import LineScript.Proofs.Lookup
import LineScript.Proofs.Machine.Renumbering
import LineScript.Proofs.Machine.Tracking

/-! # Runs that resemble each other

Two machines resemble each other if they differ only in variables that are hidden, and in what a
view of lines does not show. Programs that look up no hidden variable, and look the same in the
view, do the same on such machines: both succeed or both fail alike, and what they leave resembles
each other again.
-/

namespace LineScript

open Program

/-- What is shown of a line; its text always is. -/
structure View where
  line : Line → Line
  text_line : ∀ l, (line l).text = l.text

namespace View

def whole : View := ⟨id, fun _ => rfl⟩

def unnumbered : View := ⟨fun l => ⟨0, l.text⟩, fun _ => rfl⟩

end View

def Error.seen (v : View) (e : Error) : Error := { e with line := e.line.map v.line }

def Event.seen (v : View) : Event → Event
  | executed l => executed (v.line l)
  | skipped e => skipped (e.seen v)
  | aborted e => aborted (e.seen v)
  | e => e

def Command.seen (v : View) (c : Command) : Command := { c with line := v.line c.line }

theorem Error.seen_whole (e : Error) : e.seen .whole = e := by
  simp [Error.seen, View.whole]

theorem Event.seen_whole (e : Event) : e.seen .whole = e := by
  cases e <;> simp [Event.seen, View.whole, Error.seen]

namespace View

theorem line_unnumbered : unnumbered.line = Line.mk 0 ∘ Line.text := rfl

theorem mk_injective : Function.Injective (Line.mk 0) := fun _ _ h => congrArg Line.text h

theorem lines_unnumbered_iff {ls ls' : List Line} :
    ls'.map unnumbered.line = ls.map unnumbered.line ↔ ls'.map Line.text = ls.map Line.text := by
  rw [line_unnumbered, ← List.map_map, ← List.map_map]
  exact (List.map_injective_iff.mpr mk_injective).eq_iff

theorem bodies_unnumbered_iff {body body' : Option (List Line)} :
    body'.map (List.map unnumbered.line) = body.map (List.map unnumbered.line) ↔
      body'.map (List.map Line.text) = body.map (List.map Line.text) := by
  rw [line_unnumbered, ← List.map_comp_map, ← Option.map_map, ← Option.map_map]
  exact (Option.map_injective (List.map_injective_iff.mpr mk_injective)).eq_iff

end View

theorem Error.seen_unnumbered_iff {e e' : Error} :
    e'.seen .unnumbered = e.seen .unnumbered ↔
      e'.kind = e.kind ∧ e'.line.map Line.text = e.line.map Line.text ∧ e'.detail = e.detail := by
  rw [Error.seen, Error.seen, Error.mk.injEq, View.line_unnumbered, ← Option.map_map,
    ← Option.map_map, (Option.map_injective View.mk_injective).eq_iff]

namespace Program

variable {v : View} {p p' : Program}

def Resembles (v : View) (p p' : Program) : Prop := p'.map (Command.seen v) = p.map (Command.seen v)

namespace Resembles

theorem alike (h : Resembles v p p') : Alike p p' := by
  have hc : Command.content ∘ Command.seen v = Command.content := by
    funext c
    simp [Command.content, Command.seen, v.text_line]
  have hm := congrArg (List.map Command.content) h
  rw [List.map_map, List.map_map, hc] at hm
  exact hm.symm

theorem take (h : Resembles v p p') (n : Nat) : Resembles v (p.take n) (p'.take n) := by
  unfold Resembles at *
  rw [List.map_take, List.map_take, h]

theorem drop (h : Resembles v p p') (n : Nat) : Resembles v (p.drop n) (p'.drop n) := by
  unfold Resembles at *
  rw [List.map_drop, List.map_drop, h]

theorem slice (h : Resembles v p p') (start stop : Nat) :
    Resembles v (p.slice start stop) (p'.slice start stop) := (h.take stop).drop start

theorem lines (h : Resembles v p p') : p'.lines.map v.line = p.lines.map v.line := by
  have hl := congrArg (List.map Command.line) h
  simpa [Program.lines, Command.seen, Function.comp_def] using hl

theorem exists_cons {c : Command} (h : Resembles v (c :: p) p') :
    ∃ d q, p' = d :: q ∧ v.line d.line = v.line c.line ∧ d.statement = c.statement ∧
      Resembles v p q := by
  cases p' with
  | nil => cases h
  | cons d q =>
    obtain ⟨hc, hq⟩ := List.cons_eq_cons.mp h
    have hl : (d.seen v).line = (c.seen v).line := congrArg (·.line) hc
    have hs : (d.seen v).statement = (c.seen v).statement := congrArg (·.statement) hc
    exact ⟨d, q, rfl, hl, hs, hq⟩

end Resembles

/-- What was read from lines, as the view shows it. -/
def readingSeen (v : View) : Except Error Program → Except Error Program
  | .ok p => .ok (p.map (Command.seen v))
  | .error e => .error (e.seen v)

theorem ofLines_seen (v : View) (ls : List Line) :
    ofLines (ls.map v.line) = readingSeen v (ofLines ls) := by
  induction ls with
  | nil => rfl
  | cons l ls ih =>
    rw [List.map_cons, ofLines, ofLines, ih, Command.ofLine, Command.ofLine, v.text_line]
    cases Statement.read l.text with
    | error f => rfl
    | ok s => cases ofLines ls <;> rfl

theorem ofLines_resembles {ls ls' : List Line} (h : ls'.map v.line = ls.map v.line) :
    (∃ p p', ofLines ls = .ok p ∧ ofLines ls' = .ok p' ∧ Resembles v p p') ∨
      ∃ e e', ofLines ls = .error e ∧ ofLines ls' = .error e' ∧ e'.seen v = e.seen v := by
  have hs : readingSeen v (ofLines ls') = readingSeen v (ofLines ls) := by
    rw [← ofLines_seen, ← ofLines_seen, h]
  cases hp : ofLines ls with
  | ok p =>
    cases hp' : ofLines ls' with
    | ok p' =>
      rw [hp, hp'] at hs
      exact .inl ⟨p, p', rfl, rfl, Except.ok.inj hs⟩
    | error e' =>
      rw [hp, hp'] at hs
      cases hs
  | error e =>
    cases hp' : ofLines ls' with
    | ok p' =>
      rw [hp, hp'] at hs
      cases hs
    | error e' =>
      rw [hp, hp'] at hs
      exact .inr ⟨e, e', rfl, rfl, Except.error.inj hs⟩

end Program

/--
The sessions differ only in hidden variables, which no function looks up, and in what the view does
not show. It may hide nothing, and then the functions are the same table.
-/
structure Session.Resembles (v : View) (hidden : Set Text) (s s' : Session) : Prop where
  vars : ∀ name, name ∉ hidden → s'.vars.get? name = s.vars.get? name
  bodies : ∀ name, (s'.functions.get? name).map (List.map v.line) =
    (s.functions.get? name).map (List.map v.line)
  ignores : ∀ name body, s.functions.get? name = some body → ∀ l ∈ body, l.Ignores hidden
  functions : v = .whole → s'.functions = s.functions

namespace Machine

/--
The machines differ only in hidden variables and in what the view does not show. Diagnostics cite
lines, so the outputs are the same if the view hides nothing, or if there was none.
-/
structure Resembles (v : View) (hidden : Set Text) (m m' : Machine) : Prop
    extends Session.Resembles v hidden m.toSession m'.toSession where
  interrupted : m'.interrupted = m.interrupted
  depth : m'.depth = m.depth
  nesting : m'.nesting = m.nesting
  steps : m'.steps = m.steps
  events : m'.events.map (Event.seen v) = m.events.map (Event.seen v)
  output : m.Quiet ∨ v = .whole → m'.output = m.output

namespace Resembles

variable {v : View} {hidden : Set Text} {m m' : Machine}

theorem report (h : Resembles v hidden m m') {e e' : Event} (he : e'.seen v = e.seen v) :
    Resembles v hidden (m.report e) (m'.report e') :=
  { h with
    events := List.cons_eq_cons.mpr ⟨he, h.events⟩
    output := fun hq => h.output (hq.imp_left Quiet.of_report) }

theorem calmed (h : Resembles v hidden m m') : Resembles v hidden m.calmed m'.calmed :=
  { h with interrupted := rfl }

theorem counted (h : Resembles v hidden m m') : Resembles v hidden m.counted m'.counted :=
  { h with steps := congrArg (· + 1) h.steps }

theorem announced (h : Resembles v hidden m m') (g : Guard) {l l' : Line}
    (hl : v.line l' = v.line l) :
    Resembles v hidden (m.announced g l) (m'.announced g l') := by
  have he : (Event.executed l').seen v = (Event.executed l).seen v := congrArg Event.executed hl
  exact { h.report he with
    interrupted := by simp only [Machine.announced, h.interrupted, h.steps] }

theorem weighed (h : Resembles v hidden m m') (c : Condition) :
    Resembles v hidden (m.weighed c) (m'.weighed c) := by
  cases c with
  | compare lhs op rhs => exact h
  | invalid text => exact h.report rfl

theorem assigned (h : Resembles v hidden m m') (name value : Text) :
    Resembles v hidden (m.assigned name value) (m'.assigned name value) :=
  { h with
    vars := fun name' hn => by
      simp only [Machine.assigned, Variables.store, Table.get?_insert, h.vars name' hn] }

theorem printed (h : Resembles v hidden m m') {e : Expression}
    (he : e.shown m'.vars = e.shown m.vars) :
    Resembles v hidden (m.printed e) (m'.printed e) :=
  { h with output := fun hq => by simp only [Machine.printed, he, h.output hq] }

theorem defined (h : Resembles v hidden m m') (name : Text) {body body' : List Line}
    (hb : body'.map v.line = body.map v.line) (hi : ∀ l ∈ body, l.Ignores hidden) :
    Resembles v hidden (m.defined name body) (m'.defined name body') := by
  have hlen : body'.length = body.length := by simpa using congrArg List.length hb
  have he : (Event.defined name body'.length).seen v = (Event.defined name body.length).seen v := by
    rw [hlen]
  refine { h.report he with
    bodies := fun name' => ?_, ignores := fun name' body₁ hget => ?_, functions := ?_ }
  · simp only [Machine.defined, Table.get?_insert]
    split
    · exact congrArg some hb
    · exact h.bodies name'
  · simp only [Machine.defined, Table.get?_insert] at hget
    split at hget
    · cases hget
      exact hi
    · exact h.ignores name' body₁ hget
  · rintro rfl
    have hsame : body' = body := by simpa [View.whole] using hb
    simp only [Machine.defined, h.functions rfl, hsame]

theorem skip (h : Resembles v hidden m m') {e e' : Error} (he : e'.seen v = e.seen v) :
    Resembles v hidden (m.skip e) (m'.skip e') := by
  have hs : (Event.skipped e').seen v = (Event.skipped e).seen v := congrArg Event.skipped he
  refine { h.report hs with output := ?_ }
  rintro (hq | rfl)
  · exact absurd List.mem_cons_self (hq e)
  · rw [Error.seen_whole, Error.seen_whole] at he
    simp only [Machine.skip, he, h.output (.inr rfl)]

theorem enterBlock (h : Resembles v hidden m m') :
    Resembles v hidden m.enterBlock m'.enterBlock :=
  { h with nesting := congrArg (· + 1) h.nesting }

theorem leaveBlock (h : Resembles v hidden m m') :
    Resembles v hidden m.leaveBlock m'.leaveBlock :=
  { h with nesting := congrArg (· - 1) h.nesting }

theorem enterCall (h : Resembles v hidden m m') : Resembles v hidden m.enterCall m'.enterCall :=
  { h with depth := congrArg (· + 1) h.depth }

theorem leaveCall (h : Resembles v hidden m m') : Resembles v hidden m.leaveCall m'.leaveCall :=
  { h with depth := congrArg (· - 1) h.depth }

end Resembles

end Machine

namespace Action

inductive Resembles (v : View) (hidden : Set Text) : Action → Action → Prop where
  | fail {e e' : Error} {m m' : Machine} : e'.seen v = e.seen v → m.Resembles v hidden m' →
      Resembles v hidden (.fail e m) (.fail e' m')
  | pass {done : Nat} {m m' : Machine} : m.Resembles v hidden m' →
      Resembles v hidden (.pass done m) (.pass done m')
  | enter {start stop done : Nat} {m m' : Machine} : m.Resembles v hidden m' →
      Resembles v hidden (.enter start stop done m) (.enter start stop done m')
  | call {p p' : Program} {m m' : Machine} : p.Resembles v p' → p.Ignores hidden →
      m.Resembles v hidden m' → Resembles v hidden (.call p m) (.call p' m')

section Commands

variable {v : View} {hidden : Set Text} {g : Guard} {c c' : Command} {rest rest' : Program}
  {m m' : Machine} {l l' : Line}

theorem seen_error (hl : v.line l' = v.line l) (k : ErrorKind) (detail : Text) :
    Error.seen v ⟨k, some l', detail⟩ = Error.seen v ⟨k, some l, detail⟩ := by
  simp [Error.seen, hl]

theorem resembles_ofBranch (hl : v.line l' = v.line l) (hr : rest.Resembles v rest')
    (h : m.Resembles v hidden m') {condition : Condition}
    (hs : (Statement.ifThen condition).SeesAlike m.vars m'.vars) :
    Resembles v hidden (ofBranch l condition rest m) (ofBranch l' condition rest' m') := by
  unfold ofBranch
  rw [← hr.alike.closer?]
  cases rest.closer? .conditional with
  | none => exact .fail (seen_error hl _ _) h
  | some stop =>
    have hm := (h.weighed condition).report (e := .branched (condition.holds m.vars)) rfl
    dsimp only [branching]
    rw [hs.holds, ← (hr.alike.take stop).otherwise?]
    split
    · exact .enter hm
    · exact .enter hm
    · exact .enter hm
    · exact .pass hm

theorem resembles_ofSelection (hl : v.line l' = v.line l) (hr : rest.Resembles v rest')
    (h : m.Resembles v hidden m') {name : Text}
    (hs : (Statement.caseOf name).SeesAlike m.vars m'.vars) :
    Resembles v hidden (ofSelection l name rest m) (ofSelection l' name rest' m') := by
  unfold ofSelection
  rw [← hr.alike.closer?]
  cases rest.closer? .selection with
  | none => exact .fail (seen_error hl _ _) h
  | some stop =>
    dsimp only [selecting]
    rw [hs.fetch, ← (hr.alike.take stop).arms]
    split
    · exact .enter (h.report rfl)
    · exact .pass h

theorem resembles_ofDefinition (hl : v.line l' = v.line l) (hr : rest.Resembles v rest')
    (hi : rest.Ignores hidden) (h : m.Resembles v hidden m') (name : Text) :
    Resembles v hidden (ofDefinition l name rest m) (ofDefinition l' name rest' m') := by
  unfold ofDefinition
  rw [← hr.alike.closer?]
  cases rest.closer? .function with
  | none => exact .fail (seen_error hl _ _) h
  | some stop =>
    exact .pass (h.defined name (hr.take stop).lines fun _ hl => (hi.take stop).mem_lines hl)

theorem resembles_ofCall (hl : v.line l' = v.line l) (h : m.Resembles v hidden m') (name : Text) :
    Resembles v hidden (ofCall g l name m) (ofCall g l' name m') := by
  have hf := h.bodies name
  unfold ofCall
  cases hb : m.functions.get? name with
  | none =>
    rw [hb, Option.map_none, Option.map_eq_none_iff] at hf
    rw [hf]
    exact .pass (h.skip (seen_error hl _ _))
  | some body =>
    rw [hb, Option.map_some, Option.map_eq_some_iff] at hf
    obtain ⟨body', hb', ht⟩ := hf
    rw [hb', h.depth]
    dsimp only
    split
    · exact .fail (seen_error hl _ _) h
    · rcases ofLines_resembles ht with ⟨p, p', hp, hp', hr⟩ | ⟨e, e', he, he', hs⟩
      · rw [hp, hp']
        exact .call hr (.of_ofLines hp (h.ignores name body hb)) (h.report rfl)
      · rw [he, he']
        exact .fail hs h

theorem resembles_ofStatement (hl : v.line c'.line = v.line c.line)
    (hs : c'.statement = c.statement) (hr : rest.Resembles v rest')
    (hi : Ignores hidden (c :: rest)) (h : m.Resembles v hidden m') :
    Resembles v hidden (ofStatement g c rest m) (ofStatement g c' rest' m') := by
  have hsees : c.statement.SeesAlike m.vars m'.vars :=
    (hi.lines c List.mem_cons_self).seesAlike (hi.isRead c List.mem_cons_self) h.vars
  unfold ofStatement
  rw [hs]
  generalize c.statement = st at hsees
  cases st with
  | assign name value => exact .pass (h.assigned name value)
  | print e => exact .pass (h.printed hsees.shown)
  | ifThen condition => exact resembles_ofBranch hl hr h hsees
  | caseOf name => exact resembles_ofSelection hl hr h hsees
  | define name => exact resembles_ofDefinition hl hr (hi.drop 1) h name
  | call name => exact resembles_ofCall hl h name
  | otherwise | when label | close b => exact .pass h
  | unrecognized => exact .pass (h.skip (seen_error hl _ _))

theorem resembles_ofCommand (g : Guard) (hl : v.line c'.line = v.line c.line)
    (hs : c'.statement = c.statement) (hr : rest.Resembles v rest')
    (hi : Ignores hidden (c :: rest)) (h : m.Resembles v hidden m') :
    Resembles v hidden (ofCommand g c rest m) (ofCommand g c' rest' m') := by
  unfold ofCommand
  rw [h.interrupted, h.counted.steps]
  split
  · exact .fail (seen_error hl _ _) h.calmed
  · split
    · exact .fail (seen_error hl _ _) h.counted
    · exact resembles_ofStatement hl hs hr hi (h.counted.announced g hl)

end Commands

end Action

namespace Exec

inductive Resembles {α : Type} (v : View) (hidden : Set Text) : Result α → Result α → Prop where
  | ok {a : α} {m m' : Machine} : m.Resembles v hidden m' →
      Resembles v hidden (.ok a m) (.ok a m')
  | error {e e' : Error} {m m' : Machine} : e'.seen v = e.seen v → m.Resembles v hidden m' →
      Resembles v hidden (.error e m) (.error e' m')

def ResemblesRunner (v : View) (hidden : Set Text) (inner : Runner) : Prop :=
  ∀ {p p' : Program} {m m' : Machine} {l l' : Line}, v.line l' = v.line l → p.Resembles v p' →
    p.Ignores hidden → m.Resembles v hidden m' → Resembles v hidden (inner l p m) (inner l' p' m')

section Running

variable {v : View} {hidden : Set Text} {g : Guard} {inner : Runner}

theorem Resembles.mapMachine {α : Type} {r r' : Result α} (h : Resembles v hidden r r')
    {f : Machine → Machine}
    (hf : ∀ {m m'}, m.Resembles v hidden m' → (f m).Resembles v hidden (f m')) :
    Resembles v hidden (mapMachine f r) (mapMachine f r') := by
  cases h with
  | ok hm => exact .ok (hf hm)
  | error he hm => exact .error he (hf hm)

theorem Resembles.returning {α : Type} {r r' : Result Unit} (h : Resembles v hidden r r') (a : α) :
    Resembles v hidden (returning a r) (returning a r') := by
  cases h with
  | ok hm => exact .ok hm
  | error he hm => exact .error he hm

theorem resembles_perform (hin : ResemblesRunner v hidden inner) {a a' : Action}
    (h : a.Resembles v hidden a') {l l' : Line} (hl : v.line l' = v.line l)
    {rest rest' : Program} (hr : rest.Resembles v rest') (hi : rest.Ignores hidden) :
    Resembles v hidden (a.perform inner l rest) (a'.perform inner l' rest') := by
  cases h with
  | fail he hm => exact .error he hm
  | pass hm => exact .ok hm
  | enter hm => exact (hin hl (hr.slice _ _) (hi.slice _ _) hm).returning _
  | call hp hip hm => exact ((hin hl hp hip hm.enterCall).mapMachine (·.leaveCall)).returning _

theorem resembles_runFrom (hin : ResemblesRunner v hidden inner) {p p' : Program} {m m' : Machine}
    (hp : p.Resembles v p') (hi : p.Ignores hidden) (h : m.Resembles v hidden m') :
    Resembles v hidden (runFrom g inner 0 p m) (runFrom g inner 0 p' m') := by
  induction p using dropInduction generalizing p' m m' with
  | nil =>
    cases p' with
    | cons c p' => cases hp
    | nil => exact .ok h
  | cons c rest ih =>
    obtain ⟨c', rest', rfl, hl, hs, hr⟩ := hp.exists_cons
    have hrest : Program.Ignores hidden rest := hi.drop 1
    have ha := resembles_perform hin (Action.resembles_ofCommand g hl hs hr hi h) hl hr hrest
    rw [runFrom_cons, runFrom_cons]
    generalize (Action.ofCommand g c rest m).perform inner c.line rest = r at ha
    generalize (Action.ofCommand g c' rest' m').perform inner c'.line rest' = r' at ha
    cases ha with
    | ok hm => exact ih _ (hr.drop _) (hrest.drop _) hm
    | error he hm => exact .error he hm

theorem resemblesRunner_nested (g : Guard) (room : Nat) :
    ResemblesRunner v hidden (nested g room) := by
  induction room with
  | zero => exact fun hl _ _ h => .error (Action.seen_error hl _ _) h
  | succ room ih =>
    intro p p' m m' l l' hl hp hi h
    rw [nested_succ, nested_succ, h.nesting]
    split
    · exact .error (Action.seen_error hl _ _) h
    · exact (resembles_runFrom ih hp hi h.enterBlock).mapMachine (·.leaveBlock)

/-- Programs that look the same run alike from machines that resemble each other. -/
theorem resembles_run (g : Guard) {p p' : Program} {m m' : Machine} (hp : p.Resembles v p')
    (hi : p.Ignores hidden) (h : m.Resembles v hidden m') :
    Resembles v hidden (run g p m) (run g p' m') :=
  resembles_runFrom (resemblesRunner_nested g g.maxNesting) hp hi h

end Running

end Exec

end LineScript
