import LineScript.Proofs.Machine.Renumbering

/-! # Tracking a run

A machine tracks another one if it has the same variables, the same functions up to line numbers,
and what the other has added to its output since they parted; it may have counted fewer steps. What
succeeds on the one machine succeeds on the one that tracks it, for programs that are alike, and
leaves them tracking. No interrupt may arrive in the meantime.
-/

namespace LineScript

open Program

def Functions.texts (t : Functions) : Table (List Text) := t.map (List.map Line.text)

namespace Machine

def Quiet (m : Machine) : Prop := ∀ e, .skipped e ∉ m.events

theorem Quiet.of_report {m : Machine} {e : Event} (h : (m.report e).Quiet) : m.Quiet :=
  fun e' he => h e' (List.mem_cons_of_mem e he)

/-- The machine `m'` has what `m` has, apart from the fragments `prev` that `m` had before. -/
structure Tracks (prev : List Text) (m m' : Machine) : Prop where
  vars : m'.vars = m.vars
  functions : Functions.texts m'.functions = Functions.texts m.functions
  depth : m'.depth = m.depth
  nesting : m'.nesting = m.nesting
  steps : m'.steps ≤ m.steps
  calm : m'.interrupted = false
  output : m.Quiet → m.output.fragments = m'.output.fragments ++ prev

namespace Tracks

variable {prev : List Text} {m m' : Machine}

theorem report (h : Tracks prev m m') (e e' : Event) : Tracks prev (m.report e) (m'.report e') :=
  { h with output := fun hq => h.output hq.of_report }

theorem counted (h : Tracks prev m m') : Tracks prev m.counted m'.counted :=
  { h with steps := Nat.succ_le_succ h.steps }

theorem announced (h : Tracks prev m m') {g : Guard} (hg : g.alarm = none) (l l' : Line) :
    Tracks prev (m.announced g l) (m'.announced g l') where
  vars := h.vars
  functions := h.functions
  depth := h.depth
  nesting := h.nesting
  steps := h.steps
  calm := by simp [Machine.announced, h.calm, hg]
  output := fun hq => h.output (Quiet.of_report (e := .executed l) hq)

theorem weighed (h : Tracks prev m m') (c : Condition) :
    Tracks prev (m.weighed c) (m'.weighed c) := by
  cases c with
  | compare lhs op rhs => exact h
  | invalid text => exact h.report _ _

theorem assigned (h : Tracks prev m m') (name value : Text) :
    Tracks prev (m.assigned name value) (m'.assigned name value) :=
  { h with vars := by simp only [Machine.assigned, h.vars] }

theorem printed (h : Tracks prev m m') (e : Expression) :
    Tracks prev (m.printed e) (m'.printed e) where
  vars := h.vars
  functions := h.functions
  depth := h.depth
  nesting := h.nesting
  steps := h.steps
  calm := h.calm
  output := by
    intro hq
    have ho := h.output hq
    simp only [Machine.printed, Output.print, h.vars]
    split
    · exact ho
    · simp only [Output.append, ho, List.cons_append]

theorem defined (h : Tracks prev m m') (name : Text) {body body' : List Line}
    (hb : body'.map Line.text = body.map Line.text) :
    Tracks prev (m.defined name body) (m'.defined name body') where
  vars := h.vars
  functions := by
    have hf := h.functions
    unfold Functions.texts at hf ⊢
    unfold Machine.defined
    rw [Table.map_insert, Table.map_insert, hb]
    exact congrArg (·.insert name (body.map Line.text)) hf
  depth := h.depth
  nesting := h.nesting
  steps := h.steps
  calm := h.calm
  output := fun hq => h.output (Quiet.of_report (e := .defined name body.length) hq)

theorem skip (h : Tracks prev m m') (e e' : Error) : Tracks prev (m.skip e) (m'.skip e') :=
  { h with output := fun hq => absurd List.mem_cons_self (hq e) }

theorem enterBlock (h : Tracks prev m m') : Tracks prev m.enterBlock m'.enterBlock :=
  { h with nesting := congrArg (· + 1) h.nesting }

theorem leaveBlock (h : Tracks prev m m') : Tracks prev m.leaveBlock m'.leaveBlock :=
  { h with nesting := congrArg (· - 1) h.nesting }

theorem enterCall (h : Tracks prev m m') : Tracks prev m.enterCall m'.enterCall :=
  { h with depth := congrArg (· + 1) h.depth }

theorem leaveCall (h : Tracks prev m m') : Tracks prev m.leaveCall m'.leaveCall :=
  { h with depth := congrArg (· - 1) h.depth }

end Tracks

end Machine

section Diagnostics

variable {g : Guard}

theorem Machine.Change.quiet {c : Command} {rest : Program} {m m' : Machine}
    (h : Machine.Change g c rest m m') (hq : m'.Quiet) : m.Quiet := by
  cases h with
  | none | assign | print => exact hq
  | select | call | define | undefined | unrecognized => exact hq.of_report
  | @decide condition =>
    cases condition with
    | compare lhs op rhs => exact hq.of_report
    | invalid text => exact hq.of_report.of_report

theorem Action.quiet_ofCommand {c : Command} {rest : Program} {m : Machine} :
    (ofCommand g c rest m).machine.Quiet → m.Quiet := by
  refine machine_ofCommand (P := fun m' => m'.Quiet → m.Quiet) id id fun _ _ m' hc hq => ?_
  exact Machine.Quiet.of_report (e := .executed c.line) (hc.quiet hq)

theorem Exec.evolves_quiet (g : Guard) : Evolves g fun m m' => m'.Quiet → m.Quiet where
  refl := fun _ hq => hq
  trans := fun h h' hq => h (h' hq)
  action := fun _ _ _ => Action.quiet_ofCommand
  block := id
  call := id

end Diagnostics

namespace Action

inductive Tracks (prev : List Text) : Action → Action → Prop where
  | fail {e : Error} {m : Machine} {a : Action} : Tracks prev (.fail e m) a
  | pass {done : Nat} {m m' : Machine} : m.Tracks prev m' →
      Tracks prev (.pass done m) (.pass done m')
  | enter {start stop done : Nat} {m m' : Machine} : m.Tracks prev m' →
      Tracks prev (.enter start stop done m) (.enter start stop done m')
  | call {p p' : Program} {m m' : Machine} : Alike p p' → m.Tracks prev m' →
      Tracks prev (.call p m) (.call p' m')

section Commands

variable {prev : List Text} {g : Guard} {c c' : Command} {rest rest' : Program} {m m' : Machine}
  {l l' : Line}

theorem tracks_ofBranch (hr : Alike rest rest') (h : m.Tracks prev m') (condition : Condition) :
    Tracks prev (ofBranch l condition rest m) (ofBranch l' condition rest' m') := by
  unfold ofBranch
  rw [← hr.closer?]
  cases rest.closer? .conditional with
  | none => exact .fail
  | some stop =>
    have hm := (h.weighed condition).report (.branched (condition.holds m.vars))
      (.branched (condition.holds m.vars))
    dsimp only [branching]
    rw [h.vars, ← (hr.take stop).otherwise?]
    split
    · exact .enter hm
    · exact .enter hm
    · exact .enter hm
    · exact .pass hm

theorem tracks_ofSelection (hr : Alike rest rest') (h : m.Tracks prev m') (name : Text) :
    Tracks prev (ofSelection l name rest m) (ofSelection l' name rest' m') := by
  unfold ofSelection
  rw [← hr.closer?]
  cases rest.closer? .selection with
  | none => exact .fail
  | some stop =>
    dsimp only [selecting]
    rw [h.vars, ← (hr.take stop).arms]
    split
    · exact .enter (h.report _ _)
    · exact .pass h

theorem tracks_ofDefinition (hr : Alike rest rest') (h : m.Tracks prev m') (name : Text) :
    Tracks prev (ofDefinition l name rest m) (ofDefinition l' name rest' m') := by
  unfold ofDefinition
  rw [← hr.closer?]
  cases rest.closer? .function with
  | none => exact .fail
  | some stop => exact .pass (h.defined name (hr.take stop).texts_lines.symm)

theorem tracks_ofCall (h : m.Tracks prev m') (name : Text) :
    Tracks prev (ofCall g l name m) (ofCall g l' name m') := by
  have hf := congrArg (·.get? name) h.functions
  simp only [Functions.texts, Table.get?_map] at hf
  unfold ofCall
  cases hb : m.functions.get? name with
  | none =>
    rw [hb, Option.map_none, Option.map_eq_none_iff] at hf
    rw [hf]
    exact .pass (h.skip _ _)
  | some body =>
    rw [hb, Option.map_some, Option.map_eq_some_iff] at hf
    obtain ⟨body', hb', ht⟩ := hf
    rw [hb', h.depth]
    dsimp only
    split
    · exact .fail
    · cases hp : ofLines body with
      | error e => exact .fail
      | ok p =>
        obtain ⟨p', hp', ha⟩ := alike_of_texts ht.symm hp
        rw [hp']
        exact .call ha (h.report _ _)

theorem tracks_ofStatement (hc : c'.content = c.content) (hr : Alike rest rest')
    (h : m.Tracks prev m') :
    Tracks prev (ofStatement g c rest m) (ofStatement g c' rest' m') := by
  have hs : c'.statement = c.statement := congrArg Prod.snd hc
  unfold ofStatement
  rw [hs]
  cases c.statement with
  | assign name value => exact .pass (h.assigned name value)
  | print e => exact .pass (h.printed e)
  | ifThen condition => exact tracks_ofBranch hr h condition
  | caseOf name => exact tracks_ofSelection hr h name
  | define name => exact tracks_ofDefinition hr h name
  | call name => exact tracks_ofCall h name
  | otherwise => exact .pass h
  | when label => exact .pass h
  | close b => exact .pass h
  | unrecognized => exact .pass (h.skip _ _)

theorem tracks_ofCommand (hg : g.alarm = none) (hc : c'.content = c.content)
    (hr : Alike rest rest') (h : m.Tracks prev m') :
    Tracks prev (ofCommand g c rest m) (ofCommand g c' rest' m') := by
  unfold ofCommand
  split
  · exact .fail
  · split
    · exact .fail
    · next hs =>
      have hs' : ¬ g.maxSteps < m'.counted.steps := by
        have := h.counted.steps
        omega
      rw [if_neg (by simp [h.calm]), if_neg hs']
      exact tracks_ofStatement hc hr (h.counted.announced hg _ _)

end Commands

end Action

namespace Exec

/-- If the one run succeeds, so does the other, and its machine tracks that of the one. -/
def Tracks {α : Type} (prev : List Text) (r r' : Result α) : Prop :=
  ∀ a m, r = .ok a m → ∃ m', r' = .ok a m' ∧ m.Tracks prev m'

def TracksRunner (inner : Runner) : Prop :=
  ∀ {prev : List Text} {p p' : Program} {m m' : Machine} (l l' : Line), Alike p p' →
    m.Tracks prev m' → Tracks prev (inner l p m) (inner l' p' m')

section Running

variable {prev : List Text} {g : Guard} {inner : Runner}

theorem Tracks.mapMachine {α : Type} {r r' : Result α} (h : Tracks prev r r')
    {f : Machine → Machine} (hf : ∀ {m m'}, m.Tracks prev m' → (f m).Tracks prev (f m')) :
    Tracks prev (mapMachine f r) (mapMachine f r') := by
  intro a m hr
  cases r with
  | error e m₁ => cases hr
  | ok a₁ m₁ =>
    cases hr
    obtain ⟨m₁', rfl, hm⟩ := h _ _ rfl
    exact ⟨f m₁', rfl, hf hm⟩

theorem Tracks.returning {α : Type} {r r' : Result Unit} (h : Tracks prev r r') (a : α) :
    Tracks prev (returning a r) (returning a r') := by
  intro b m hr
  cases r with
  | error e m₁ => cases hr
  | ok u m₁ =>
    cases hr
    obtain ⟨m₁', rfl, hm⟩ := h _ _ rfl
    exact ⟨m₁', rfl, hm⟩

theorem tracks_perform (hin : TracksRunner inner) {a a' : Action} (h : a.Tracks prev a')
    (l l' : Line) {rest rest' : Program} (hr : Alike rest rest') :
    Tracks prev (a.perform inner l rest) (a'.perform inner l' rest') := by
  cases h with
  | fail =>
    intro a m he
    cases he
  | @pass done m m' hm =>
    intro a m₁ he
    cases he
    exact ⟨m', rfl, hm⟩
  | enter hm => exact (hin l l' (hr.slice _ _) hm).returning _
  | call ha hm => exact ((hin l l' ha hm.enterCall).mapMachine (·.leaveCall)).returning _

theorem tracks_runFrom (hg : g.alarm = none) (hin : TracksRunner inner) {p p' : Program}
    {m m' : Machine} (hp : Alike p p') (h : m.Tracks prev m') :
    Tracks prev (runFrom g inner 0 p m) (runFrom g inner 0 p' m') := by
  induction p using dropInduction generalizing p' m m' with
  | nil =>
    cases p' with
    | cons c p' => cases hp
    | nil =>
      intro u m₁ he
      cases he
      exact ⟨m', rfl, h⟩
  | cons c rest ih =>
    obtain ⟨c', rest', rfl, hc, hr⟩ := hp.exists_cons
    have ha := tracks_perform hin (Action.tracks_ofCommand hg hc hr h) c.line c'.line hr
    intro u m₁ he
    rw [runFrom_cons] at he ⊢
    cases hd : (Action.ofCommand g c rest m).perform inner c.line rest with
    | error e m₂ =>
      rw [hd] at he
      cases he
    | ok done m₂ =>
      rw [hd] at he
      obtain ⟨m₂', hd', hm⟩ := ha done m₂ hd
      rw [hd']
      exact ih done (hr.drop done) hm u m₁ he

theorem tracksRunner_nested (hg : g.alarm = none) (room : Nat) :
    TracksRunner (nested g room) := by
  induction room with
  | zero =>
    intro prev p p' m m' l l' _ _ a m₁ he
    cases he
  | succ room ih =>
    intro prev p p' m m' l l' hp h
    rw [nested_succ, nested_succ, h.nesting]
    split
    · intro a m₁ he
      cases he
    · exact (tracks_runFrom hg ih hp h.enterBlock).mapMachine (·.leaveBlock)

/-- A program that is alike, run from a machine that tracks, tracks the whole run. -/
theorem tracks_run (hg : g.alarm = none) {p p' : Program} {m m' : Machine} (hp : Alike p p')
    (h : m.Tracks prev m') : Tracks prev (run g p m) (run g p' m') :=
  tracks_runFrom hg (tracksRunner_nested hg g.maxNesting) hp h

end Running

end Exec

end LineScript
