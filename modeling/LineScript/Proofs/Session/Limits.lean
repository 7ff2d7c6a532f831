import LineScript.Proofs.Machine.Limiting
import LineScript.Proofs.Session.Reachable

/-! # Limits of a session's runs

Limits only cut runs short: what a run does under smaller limits is what it does under larger ones,
up to the statement at which a limit ends it. The limit on steps is exact.
-/

namespace LineScript

namespace Report

def executed (r : Report) : List Line := r.events.filterMap Event.executedLine?

end Report

namespace Session

theorem events_report_ok (u : Unit) (m : Machine) :
    (report (.ok u m)).events = m.events.reverse ++ [.finished m.steps] := List.reverse_cons ..

theorem events_report_error (e : Error) (m : Machine) :
    (report (.error e m)).events = m.events.reverse ++ [.aborted e] := List.reverse_cons ..

theorem executed_report (r : Exec.Result Unit) :
    (report r).executed = (Exec.final r).executed.reverse := by
  cases r with
  | ok u m =>
    rw [Report.executed, events_report_ok]
    simp [Machine.executed, Exec.final, Event.executedLine?]
  | error e m =>
    rw [Report.executed, events_report_error]
    simp [Machine.executed, Exec.final, Event.executedLine?]

theorem steps_report (r : Exec.Result Unit) : (report r).machine.steps = (Exec.final r).steps := by
  cases r <;> rfl

theorem reverse_events_final (r : Exec.Result Unit) :
    (Exec.final r).events.reverse <+: (report r).events := by
  cases r with
  | ok u m => exact events_report_ok u m ▸ List.prefix_append _ _
  | error e m => exact events_report_error e m ▸ List.prefix_append _ _

variable {s : Session} {source : Text}

theorem exists_events_of_error {g : Guard} {e : Error} (h : (run g s source).result = .error e) :
    ∃ before, (run g s source).events = before ++ [.aborted e] := by
  cases hp : Program.ofText source with
  | error e' =>
    rw [run_of_ofText_eq_error hp] at h ⊢
    cases h
    exact ⟨_, List.reverse_cons ..⟩
  | ok p =>
    obtain ⟨m, hr⟩ := exec_of_result_eq_error hp h
    rw [run_of_ofText_eq_ok hp, hr]
    exact ⟨_, events_report_error e m⟩

theorem executed_of_ofText_eq_error {g : Guard} {e : Error} (h : Program.ofText source = .error e) :
    (run g s source).executed = [] := by
  rw [run_of_ofText_eq_error h]
  rfl

/-- Under larger limits a run is the same, or a limit cuts the one under smaller limits short. -/
theorem run_of_le {limits limits' : Limits} (h : limits ≤ limits') (s : Session) (source : Text) :
    run ⟨limits', none⟩ s source = run ⟨limits, none⟩ s source ∨
      ∃ e before, (run ⟨limits, none⟩ s source).result = .error e ∧ e.kind.isLimit = true ∧
        (run ⟨limits, none⟩ s source).events = before ++ [.aborted e] ∧
        before <+: (run ⟨limits', none⟩ s source).events := by
  have hm : s.machine ⟨limits', none⟩ source = s.machine ⟨limits, none⟩ source := rfl
  cases hp : Program.ofText source with
  | error e =>
    left
    rw [run_of_ofText_eq_error hp, run_of_ofText_eq_error hp, hm]
  | ok p =>
    rw [run_of_ofText_eq_ok hp, run_of_ofText_eq_ok hp, hm]
    have hle : (⟨limits, none⟩ : Guard).toLimits ≤ (⟨limits', none⟩ : Guard).toLimits := h
    rcases Exec.run_of_le hle rfl p (s.machine ⟨limits, none⟩ source) with he | ⟨e, m, he, hk, hm⟩
    · exact .inl (congrArg report he)
    · right
      refine ⟨e, m.events.reverse, ?_, hk, ?_, ?_⟩
      · rw [he]
        rfl
      · rw [he, events_report_error]
      · exact (List.reverse_prefix.mpr hm).trans (reverse_events_final _)

/-- With another limit on steps, a run is the same, or it stops where that limit is reached. -/
theorem run_of_maxSteps {limits : Limits} {s : Session} {source : Text}
    (hsteps : ∀ e, (run ⟨limits, none⟩ s source).result = .error e → e.kind ≠ .steps) (n : Nat) :
    (run ⟨{ limits with maxSteps := n }, none⟩ s source = run ⟨limits, none⟩ s source ∧
      (run ⟨limits, none⟩ s source).executed.length ≤ n) ∨
    ∃ l, (run ⟨limits, none⟩ s source).executed[n]? = some l ∧
      (run ⟨{ limits with maxSteps := n }, none⟩ s source).result = .error (.ofLimit .steps l n) ∧
      (run ⟨{ limits with maxSteps := n }, none⟩ s source).executed =
        (run ⟨limits, none⟩ s source).executed.take n := by
  have hm : s.machine ⟨{ limits with maxSteps := n }, none⟩ source =
      s.machine ⟨limits, none⟩ source := rfl
  cases hp : Program.ofText source with
  | error e =>
    left
    rw [executed_of_ofText_eq_error hp, run_of_ofText_eq_error hp, run_of_ofText_eq_error hp, hm]
    exact ⟨rfl, Nat.zero_le n⟩
  | ok p =>
    rw [run_of_ofText_eq_ok hp] at hsteps
    have hsteps : ∀ e m, Exec.run ⟨limits, none⟩ p (s.machine ⟨limits, none⟩ source) = .error e m →
        e.kind ≠ .steps := fun e m he => hsteps e (by rw [he]; rfl)
    rw [run_of_ofText_eq_ok hp, run_of_ofText_eq_ok hp, hm, executed_report, executed_report]
    rcases Exec.run_of_maxSteps (n := n) rfl rfl rfl rfl hsteps with ⟨he, hl⟩ | ⟨l, m, he, hl, hx⟩
    · exact .inl ⟨congrArg report he, by simpa using hl⟩
    · right
      obtain ⟨after, hx⟩ := hx
      have hn : m.executed.reverse.length = n := by simpa using hl
      refine ⟨l, ?_, ?_, ?_⟩
      · rw [← hx]
        simp [← hn]
      · rw [he]
        rfl
      · rw [he, ← hx]
        simp [Exec.final, ← hn]

/--
Limits only cut runs short. Under larger limits a run that no limit ended is the same, and one that
a limit ended has reported, before the end, what the other run reports first. The limit on steps is
exact: a run that did not end by it is the same under every such limit that is not below the number
of statements it executed, and under a lower limit `n` it fails at the statement that comes after
the first `n`.
-/
theorem limits_only_cut_short (s : Session) (source : Text) :
    (∀ limits limits' : Limits, limits ≤ limits' →
      ((∀ e, (run ⟨limits, none⟩ s source).result = .error e → e.kind.isLimit = false) →
        run ⟨limits', none⟩ s source = run ⟨limits, none⟩ s source) ∧
      (∀ e, (run ⟨limits, none⟩ s source).result = .error e → e.kind.isLimit = true →
        ∃ before, (run ⟨limits, none⟩ s source).events = before ++ [.aborted e] ∧
          before <+: (run ⟨limits', none⟩ s source).events)) ∧
    (∀ limits : Limits,
      (∀ e, (run ⟨limits, none⟩ s source).result = .error e → e.kind ≠ .steps) →
      (∀ n, (run ⟨limits, none⟩ s source).executed.length ≤ n →
        run ⟨{ limits with maxSteps := n }, none⟩ s source = run ⟨limits, none⟩ s source) ∧
      (∀ n, n < (run ⟨limits, none⟩ s source).executed.length →
        ∃ l, (run ⟨limits, none⟩ s source).executed[n]? = some l ∧
          (run ⟨{ limits with maxSteps := n }, none⟩ s source).result =
            .error (.ofLimit .steps l n) ∧
          (run ⟨{ limits with maxSteps := n }, none⟩ s source).executed =
            (run ⟨limits, none⟩ s source).executed.take n)) := by
  refine ⟨fun limits limits' hle => ⟨?_, ?_⟩, fun limits hsteps => ⟨?_, ?_⟩⟩
  · intro hne
    rcases run_of_le hle s source with he | ⟨e, before, hr, hk, -⟩
    · exact he
    · exact absurd hk (by simp [hne e hr])
  · intro e hr hk
    rcases run_of_le hle s source with he | ⟨e', before, hr', -, hev, hp⟩
    · obtain ⟨before, hb⟩ := exists_events_of_error hr
      exact ⟨before, hb, he ▸ hb ▸ List.prefix_append _ _⟩
    · cases hr.symm.trans hr'
      exact ⟨before, hev, hp⟩
  · intro n hn
    rcases run_of_maxSteps hsteps n with ⟨he, -⟩ | ⟨l, hl, -⟩
    · exact he
    · obtain ⟨hlt, -⟩ := List.getElem?_eq_some_iff.mp hl
      omega
  · intro n hn
    rcases run_of_maxSteps hsteps n with ⟨-, hl⟩ | h
    · omega
    · exact h

/-- A conditional is cut short where no block may be open, or where two steps may be taken. -/
theorem limits_cut_conditional_short :
    let source := "X = 1\nIF X = 1 THEN\nPRINT(X)\nENDIF".toList
    (∃ before, (run ⟨{ maxNesting := 0 }, none⟩ {} source).events =
        before ++ [.aborted (.ofLimit .nesting ⟨2, "IF X = 1 THEN".toList⟩ 0)] ∧
      before <+: (run {} {} source).events) ∧
    run {} {} source = run ⟨{ maxNesting := 1 }, none⟩ {} source ∧
    run ⟨{ maxNesting := 1, maxSteps := 3 }, none⟩ {} source =
      run ⟨{ maxNesting := 1 }, none⟩ {} source ∧
    (run ⟨{ maxNesting := 1, maxSteps := 2 }, none⟩ {} source).result =
      .error (.ofLimit .steps ⟨3, "PRINT(X)".toList⟩ 2) := by
  intro source
  have hfail : (run ⟨{ maxNesting := 0 }, none⟩ {} source).result =
      .error (.ofLimit .nesting ⟨2, "IF X = 1 THEN".toList⟩ 0) := by decide +kernel
  have hok : (run ⟨{ maxNesting := 1 }, none⟩ {} source).result = .ok "1\n".toList := by
    decide +kernel
  have hx : (run ⟨{ maxNesting := 1 }, none⟩ {} source).executed =
      [⟨1, "X = 1".toList⟩, ⟨2, "IF X = 1 THEN".toList⟩, ⟨3, "PRINT(X)".toList⟩] := by
    decide +kernel
  obtain ⟨hle, hsteps⟩ := limits_only_cut_short {} source
  obtain ⟨hsame, hcut⟩ := hsteps { maxNesting := 1 } (by simp [hok])
  refine ⟨?_, ?_, ?_, ?_⟩
  · exact (hle { maxNesting := 0 } {} ⟨by decide, by decide, by decide⟩).2 _ hfail rfl
  · exact (hle { maxNesting := 1 } {} ⟨by decide, by decide, by decide⟩).1 (by simp [hok])
  · exact hsame 3 (by simp [hx])
  · obtain ⟨l, hl, hr, -⟩ := hcut 2 (by simp [hx])
    obtain rfl : ⟨3, "PRINT(X)".toList⟩ = l := by simpa [hx] using hl
    exact hr

end Session

end LineScript
