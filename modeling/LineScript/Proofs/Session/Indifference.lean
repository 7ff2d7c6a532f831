import LineScript.Proofs.Machine.Resemblance
import LineScript.Proofs.Session.Replay

/-! # What a run does not depend on

A run depends neither on the value of a variable that nothing looks up, nor on the numbers of lines.
Two runs that differ in these alone go the same way, statement by statement, and what differs at the
end is what differed at the start.
-/

namespace LineScript

structure Report.Resembles (v : View) (hidden : Set Text) (r r' : Report) : Prop where
  machine : r.machine.Resembles v hidden r'.machine
  result : (r.result = .ok r.machine.output.shown ∧ r'.result = .ok r'.machine.output.shown) ∨
    ∃ e e', r.result = .error e ∧ r'.result = .error e' ∧ e'.seen v = e.seen v

namespace Session

variable {v : View} {hidden : Set Text} {s s' : Session} {source source' : Text}

theorem Resembles.machine (h : s.Resembles v hidden s')
    (hlines : (Line.split source').map v.line = (Line.split source).map v.line) :
    (s.machine g source).Resembles v hidden (s'.machine g source') := by
  have hlen : (Line.split source').length = (Line.split source).length := by
    simpa using congrArg List.length hlines
  have hnew : (Machine.ofSession g s).Resembles v hidden (.ofSession g s') :=
    { h with
      interrupted := rfl, depth := rfl, nesting := rfl, steps := rfl, events := rfl
      output := fun _ => rfl }
  exact hnew.report (by rw [hlen])

theorem resembles_run (g : Guard) (h : s.Resembles v hidden s')
    (hlines : (Line.split source').map v.line = (Line.split source).map v.line)
    (hi : ∀ l ∈ Line.split source, l.Ignores hidden) :
    (run g s source).Resembles v hidden (run g s' source') := by
  have hm := h.machine (g := g) hlines
  rcases Program.ofLines_resembles hlines with ⟨p, p', hp, hp', hr⟩ | ⟨e, e', he, he', hseen⟩
  · rw [run_of_ofText_eq_ok hp, run_of_ofText_eq_ok hp']
    have hrun := Exec.resembles_run g hr (.of_ofLines hp hi) hm
    generalize Exec.run g p (s.machine g source) = r at hrun
    generalize Exec.run g p' (s'.machine g source') = r' at hrun
    cases hrun with
    | ok hend => exact ⟨hend.report (by rw [hend.steps]), .inl ⟨rfl, rfl⟩⟩
    | error hseen hend =>
      exact ⟨hend.report (congrArg Event.aborted hseen), .inr ⟨_, _, rfl, rfl, hseen⟩⟩
  · rw [run_of_ofText_eq_error he, run_of_ofText_eq_error he']
    exact ⟨hm.report (congrArg Event.aborted hseen), .inr ⟨e, e', rfl, rfl, hseen⟩⟩

/-! ### Variables that nothing looks up -/

theorem isSome_given?_iff {es : List Event} {name : Text} :
    (es.reverse.findSome? (Event.given? name)).isSome = true ↔
      ∃ l value, .executed l ∈ es ∧ Statement.read l.text = .ok (.assign name value) := by
  rw [List.findSome?_isSome_iff]
  simp only [List.mem_reverse, Option.isSome_iff_exists, Event.given?_eq_some_iff]
  constructor
  · rintro ⟨_, hl, _, l, value, rfl, hread, -⟩
    exact ⟨l, value, hl, hread⟩
  · rintro ⟨l, value, hl, hread⟩
    exact ⟨_, hl, _, l, value, rfl, hread, rfl⟩

/-- A variable ends with the value that the run gave it last, or else with the one that it had. -/
theorem get?_vars_run (g : Guard) (s : Session) (source name : Text) :
    (run g s source).session.vars.get? name =
      ((run g s source).events.reverse.findSome? (Event.given? name)).or (s.vars.get? name) := by
  have h : (Replay.ofEvents s (run g s source).events).vars = (run g s source).session.vars :=
    (accounted_run g s source).vars
  rw [← h]
  exact Replay.get?_vars_foldl _ _ name

/--
Variables that are not mentioned do not matter. If no line of the source, and no line of a function
of the session, prints, compares or selects by the variable `x`, then runs that begin with variables
that agree on all names but `x` have the same result, the same events and the same functions, and
leave variables that agree on all names but `x`. They agree on `x` as well if a statement assigned
it, and otherwise each run leaves it as it was.
-/
theorem unmentioned_variable_immaterial (g : Guard) (s : Session) {vars' : Variables}
    {x source : Text} (hvars : ∀ name, name ≠ x → vars'.get? name = s.vars.get? name)
    (hsource : ∀ l ∈ Line.split source, l.Ignores {x})
    (hbodies : ∀ name body, s.functions.get? name = some body → ∀ l ∈ body, l.Ignores {x}) :
    let s' := { s with vars := vars' }
    let r := run g s source
    let r' := run g s' source
    let assigned := ∃ l value, .executed l ∈ r.events ∧
      Statement.read l.text = .ok (.assign x value)
    r'.result = r.result ∧ r'.events = r.events ∧
    r'.session.functions = r.session.functions ∧
    (∀ name, name ≠ x → r'.session.vars.get? name = r.session.vars.get? name) ∧
    (assigned → r'.session.vars.get? x = r.session.vars.get? x) ∧
    (¬ assigned → r.session.vars.get? x = s.vars.get? x ∧
      r'.session.vars.get? x = s'.vars.get? x) := by
  intro s' r r' assigned
  have hs : s.Resembles .whole {x} s' := ⟨hvars, fun _ => rfl, hbodies, fun _ => rfl⟩
  have h : r.Resembles .whole {x} r' := resembles_run g hs rfl hsource
  have hresult : r'.result = r.result := by
    rcases h.result with ⟨hr, hr'⟩ | ⟨e, e', hr, hr', he⟩
    · rw [hr, hr', h.machine.output (.inr rfl)]
    · rw [Error.seen_whole, Error.seen_whole] at he
      rw [hr, hr', he]
  have hevents : r'.events = r.events := by
    have he := h.machine.events
    rw [funext Event.seen_whole, List.map_id', List.map_id'] at he
    exact congrArg List.reverse he
  have hx : r.session.vars.get? x = _ := get?_vars_run g s source x
  have hx' : r'.session.vars.get? x = _ := get?_vars_run g s' source x
  change _ = (r'.events.reverse.findSome? _).or _ at hx'
  rw [hevents] at hx'
  refine ⟨hresult, hevents, h.machine.functions rfl, h.machine.vars, fun ha => ?_, fun hn => ?_⟩
  · have hgiven := isSome_given?_iff.mpr ha
    rw [hx, hx', Option.or_of_isSome hgiven, Option.or_of_isSome hgiven]
  · have hnone := Option.not_isSome_iff_eq_none.mp (mt isSome_given?_iff.mp hn)
    rw [hx, hx', hnone]
    exact ⟨rfl, rfl⟩

/-- The source calls a function, prints the name of the variable as a literal, and assigns it. -/
theorem immaterial_before_assignment :
    ∃ (vars : Variables) (functions : Functions) (s : Session) (source : Text),
      vars = ⟨[("Y".toList, .number ['2'])]⟩ ∧
      functions = Table.insert {} ['F'] [⟨2, "PRINT(Y)".toList⟩] ∧
      s = { vars := vars.store ['X'] (.number ['1']), functions } ∧
      source = "CALL F\nPRINT(\"X\")\nX = 5".toList ∧
      (run {} s source).result = .ok "2\nX\n".toList ∧
      (run {} { s with vars } source).result = .ok "2\nX\n".toList ∧
      (run {} { s with vars } source).session.vars.get? ['X'] = some (.number ['5']) := by
  obtain ⟨vars, hv⟩ : ∃ vars : Variables, vars = ⟨[("Y".toList, .number ['2'])]⟩ := ⟨_, rfl⟩
  obtain ⟨functions, hf⟩ : ∃ functions : Functions,
    functions = Table.insert {} ['F'] [⟨2, "PRINT(Y)".toList⟩] := ⟨_, rfl⟩
  obtain ⟨s, hs⟩ : ∃ s : Session,
    s = { vars := vars.store ['X'] (.number ['1']), functions } := ⟨_, rfl⟩
  obtain ⟨source, hq⟩ : ∃ source, source = "CALL F\nPRINT(\"X\")\nX = 5".toList := ⟨_, rfl⟩
  have hvars : ∀ name, name ≠ ['X'] → vars.get? name = s.vars.get? name := by
    intro name hname
    rw [hs, Variables.store, Table.get?_insert, if_neg hname]
  have hsource : ∀ l ∈ Line.split source, ∀ t ∈ l.lookups, t ≠ ['X'] := by
    rw [hq]
    decide +kernel
  have hbodies : ∀ name body, s.functions.get? name = some body →
      ∀ l ∈ body, ∀ t ∈ l.lookups, t ≠ ['X'] := by
    intro name body hbody
    rw [hs, hf, Table.get?_insert] at hbody
    split at hbody
    · cases hbody
      decide +kernel
    · cases hbody
  have hok : (run {} s source).result = .ok "2\nX\n".toList := by
    rw [hs, hf, hv, hq]
    decide +kernel
  have hget : (run {} s source).session.vars.get? ['X'] = some (.number ['5']) := by
    rw [hs, hf, hv, hq]
    decide +kernel
  have hassign : .executed ⟨3, "X = 5".toList⟩ ∈ (run {} s source).events := by
    rw [hs, hf, hv, hq]
    decide +kernel
  obtain ⟨hresult, -, -, -, hx, -⟩ := unmentioned_variable_immaterial {} s hvars hsource hbodies
  refine ⟨vars, functions, s, source, hv, hf, hs, hq, hok, hresult.trans hok, ?_⟩
  exact (hx ⟨_, ['5'], hassign, by decide +kernel⟩).trans hget

/-! ### Numbers of lines -/

theorem resembles_unnumbered (hvars : ∀ name, s'.vars.get? name = s.vars.get? name)
    (hbodies : ∀ name, (s'.functions.get? name).map (List.map Line.text) =
      (s.functions.get? name).map (List.map Line.text)) :
    s.Resembles .unnumbered ∅ s' where
  vars := fun name _ => hvars name
  bodies := fun name => View.bodies_unnumbered_iff.mpr (hbodies name)
  ignores := fun _ _ _ _ _ _ _ h => h
  functions := fun h => by cases congrArg (·.line ⟨1, []⟩) h

/--
The numbers of lines do not matter, and so neither do blank lines and indentation. If the lines of
two sources have the same texts, and two sessions have the same variables, and functions whose lines
have the same texts, then the runs both succeed, or both fail with the same code, line text and
detail. They leave the same variables, and functions that are the same up to the numbers of their
lines, after the same number of steps. The events are the same up to the numbers of lines. What is
shown is the same if there was no diagnostic, since that would cite a number.
-/
theorem line_numbers_immaterial (g : Guard)
    (hsource : (Line.split source').map Line.text = (Line.split source).map Line.text)
    (hvars : ∀ name, s'.vars.get? name = s.vars.get? name)
    (hbodies : ∀ name, (s'.functions.get? name).map (List.map Line.text) =
      (s.functions.get? name).map (List.map Line.text)) :
    let r := run g s source
    let r' := run g s' source'
    ((∃ shown shown', r.result = .ok shown ∧ r'.result = .ok shown' ∧
        ((∀ e, .skipped e ∉ r.events) → shown' = shown)) ∨
      ∃ e e', r.result = .error e ∧ r'.result = .error e' ∧ e'.kind.code = e.kind.code ∧
        e'.line.map Line.text = e.line.map Line.text ∧ e'.detail = e.detail) ∧
    (∀ name, r'.session.vars.get? name = r.session.vars.get? name) ∧
    (∀ name, (r'.session.functions.get? name).map (List.map Line.text) =
      (r.session.functions.get? name).map (List.map Line.text)) ∧
    r'.machine.steps = r.machine.steps ∧
    r'.events.map (Event.seen .unnumbered) = r.events.map (Event.seen .unnumbered) := by
  intro r r'
  have hlines := View.lines_unnumbered_iff.mpr hsource
  have h : r.Resembles .unnumbered ∅ r' :=
    resembles_run g (resembles_unnumbered hvars hbodies) hlines fun _ _ _ _ hmem => hmem
  refine ⟨?_, fun name => h.machine.vars name id,
    fun name => View.bodies_unnumbered_iff.mp (h.machine.bodies name), h.machine.steps, ?_⟩
  · rcases h.result with ⟨hr, hr'⟩ | ⟨e, e', hr, hr', he⟩
    · refine .inl ⟨_, _, hr, hr', fun hq => ?_⟩
      have hquiet : r.machine.Quiet := fun e he => hq e (List.mem_reverse.mpr he)
      rw [h.machine.output (.inl hquiet)]
    · obtain ⟨hk, hl, hd⟩ := Error.seen_unnumbered_iff.mp he
      exact .inr ⟨e, e', hr, hr', congrArg ErrorKind.code hk, hl, hd⟩
  · have he := congrArg List.reverse h.machine.events
    rwa [← List.map_reverse, ← List.map_reverse] at he

/-- A call, and a block that is not closed, in a source with blank lines and in one without. -/
theorem spaced_source_fails_alike :
    ∃ (s s' : Session) (source source' : Text),
      s = { functions := Table.insert {} ['F'] [⟨2, "PRINT(X)".toList⟩] } ∧
      s' = { functions := Table.insert {} ['F'] [⟨7, "PRINT(X)".toList⟩] } ∧
      source = "X = 1\nCALL F\nIF X = 1 THEN".toList ∧
      source' = "\n  X = 1\n\n\tCALL F\n\nIF X = 1 THEN  \n".toList ∧
      (run {} s source).result = .error (.ofOpenBlock ⟨3, "IF X = 1 THEN".toList⟩ .conditional) ∧
      (∃ e, (run {} s' source').result = .error e ∧ e.kind.code = 3 ∧
        e.line.map Line.text = some "IF X = 1 THEN".toList ∧ e.detail = "EXPECTED ENDIF".toList) ∧
      (run {} s' source').session.vars.get? ['X'] = some (.number ['1']) ∧
      (run {} s' source').machine.steps = 4 := by
  obtain ⟨s, hs⟩ : ∃ s : Session,
    s = { functions := Table.insert {} ['F'] [⟨2, "PRINT(X)".toList⟩] } := ⟨_, rfl⟩
  obtain ⟨s', hs'⟩ : ∃ s' : Session,
    s' = { functions := Table.insert {} ['F'] [⟨7, "PRINT(X)".toList⟩] } := ⟨_, rfl⟩
  obtain ⟨source, hq⟩ : ∃ source, source = "X = 1\nCALL F\nIF X = 1 THEN".toList := ⟨_, rfl⟩
  obtain ⟨source', hq'⟩ : ∃ source',
    source' = "\n  X = 1\n\n\tCALL F\n\nIF X = 1 THEN  \n".toList := ⟨_, rfl⟩
  have hsource : (Line.split source').map Line.text = (Line.split source).map Line.text := by
    rw [hq, hq']
    decide +kernel
  have hbodies : ∀ name, (s'.functions.get? name).map (List.map Line.text) =
      (s.functions.get? name).map (List.map Line.text) := by
    intro name
    rw [hs, hs', Table.get?_insert, Table.get?_insert]
    split <;> rfl
  have herror : (run {} s source).result =
      .error (.ofOpenBlock ⟨3, "IF X = 1 THEN".toList⟩ .conditional) := by
    rw [hs, hq]
    decide +kernel
  have hget : (run {} s source).session.vars.get? ['X'] = some (.number ['1']) := by
    rw [hs, hq]
    decide +kernel
  have hsteps : (run {} s source).machine.steps = 4 := by
    rw [hs, hq]
    decide +kernel
  obtain ⟨hresult, hvars, -, hcount, -⟩ :=
    line_numbers_immaterial {} hsource (fun _ => by rw [hs, hs']) hbodies
  refine ⟨s, s', source, source', hs, hs', hq, hq', herror, ?_, (hvars _).trans hget,
    hcount.trans hsteps⟩
  rcases hresult with ⟨_, _, hok, -⟩ | ⟨e, e', he, he', hk, hl, hd⟩
  · cases herror.symm.trans hok
  · cases herror.symm.trans he
    exact ⟨e', he', hk, hl, hd⟩

end Session

end LineScript
