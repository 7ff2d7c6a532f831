import LineScript.Proofs.Machine.Alarm
import LineScript.Proofs.Session.Limits

/-! # Interrupts of a session's runs

An interrupt cuts a run exactly at the next statement, and leaves the session as the run without
interrupt has it there. No run heeds an interrupt that arrived before it.
-/

namespace LineScript.Session

theorem report_calmed (r : Exec.Result Unit) :
    let calm := report (Exec.mapMachine Machine.calmed r)
    calm.result = (report r).result ∧ calm.events = (report r).events ∧
      calm.session.vars = (report r).session.vars ∧
      calm.session.functions = (report r).session.functions := by
  cases r <;> exact ⟨rfl, rfl, rfl, rfl⟩

theorem machine_alarm (limits : Limits) (k : Nat) (s : Session) (source : Text) :
    s.machine ⟨limits, some k⟩ source = (s.machine ⟨limits, none⟩ source).alarmed k := by
  have hk : (some k == some 0) = (0 == k) := by simp [Bool.beq_comm]
  simp [machine, Machine.ofSession, Machine.report, Machine.alarmed, hk]

/-- What a run without interrupt reports from a point on at which a statement is next. -/
theorem events_of_upcoming {limits : Limits} {p : Program} {m : Machine} {pt : Point} {c : Command}
    (hpt : Exec.Reaches ⟨limits, none⟩ p m pt) (hi : pt.machine.interrupted = false)
    (hu : pt.upcoming? = some c) :
    pt.machine.events.reverse ++ [.executed c.line] <+:
        (report (Exec.run ⟨limits, none⟩ p m)).events ∨
      (report (Exec.run ⟨limits, none⟩ p m)).events =
        pt.machine.events.reverse ++ [.aborted (.ofLimit .steps c.line limits.maxSteps)] := by
  rcases Nat.lt_or_ge pt.machine.steps limits.maxSteps with hs | hs
  · left
    have hc := (Point.continues_next (g := ⟨limits, none⟩) hu hi hs).events
    have hx := List.reverse_prefix.mpr (hc.trans hpt.grows_next.events)
    have hr : (pt.machine.counted.announced ⟨limits, none⟩ c.line).events.reverse =
        pt.machine.events.reverse ++ [.executed c.line] := List.reverse_cons ..
    exact hr ▸ hx.trans (reverse_events_final _)
  · right
    obtain ⟨d, n, hn⟩ := Point.next_of_exhausted (g := ⟨limits, none⟩) hu hi hs
    rw [hpt.run_eq_error hn]
    exact events_report_error _ _

/--
An interrupt cuts a run exactly at the next statement. If the run without interrupt starts at most
`k` statements, an interrupt that arrives after `k` of them, or before the first one where `k` is
zero, changes nothing. Otherwise there is a
point of the run without interrupt with `k` statements started and another one next, where it goes
on to execute that one or fails there for want of steps: the interrupted run fails at that line, has
reported what the other one has at that point, and leaves the variables and functions of that point.
An interrupt that is pending when a run begins does not matter.
-/
theorem interrupt_cuts_at_next_statement (limits : Limits) (s : Session) (source : Text)
    (k : Nat) :
    let plain := run ⟨limits, none⟩ s source
    let cut := run ⟨limits, some k⟩ s source
    (plain.machine.steps ≤ k →
      cut.result = plain.result ∧ cut.events = plain.events ∧
      cut.session.vars = plain.session.vars ∧ cut.session.functions = plain.session.functions) ∧
    (k < plain.machine.steps →
      ∃ p pt c, Program.ofText source = .ok p ∧
        Exec.Reaches ⟨limits, none⟩ p (s.machine ⟨limits, none⟩ source) pt ∧
        pt.machine.steps = k ∧ pt.upcoming? = some c ∧
        (pt.machine.events.reverse ++ [.executed c.line] <+: plain.events ∨
          plain.events = pt.machine.events.reverse ++
            [.aborted (.ofLimit .steps c.line limits.maxSteps)]) ∧
        cut.result = .error ⟨.interrupted, some c.line, []⟩ ∧
        cut.events = pt.machine.events.reverse ++ [.aborted ⟨.interrupted, some c.line, []⟩] ∧
        cut.session.vars = pt.machine.vars ∧ cut.session.functions = pt.machine.functions) ∧
    ∀ (t : Session) (pending : Bool) (g : Guard) (later : Text),
      run g { t with interrupted := pending } later = run g t later := by
  intro plain cut
  cases hp : Program.ofText source with
  | error e =>
    have hplain : plain = _ := run_of_ofText_eq_error hp
    have hcut : cut = _ := run_of_ofText_eq_error hp
    rw [hplain, hcut]
    exact ⟨fun _ => ⟨rfl, rfl, rfl, rfl⟩, fun h => absurd h (Nat.not_lt_zero k), fun _ _ _ _ => rfl⟩
  | ok p =>
    let m := s.machine ⟨limits, none⟩ source
    have hplain : plain = _ := run_of_ofText_eq_ok hp
    have hcut : cut = report (Exec.run ⟨limits, some k⟩ p (m.alarmed k)) := by
      rw [← machine_alarm]
      exact run_of_ofText_eq_ok hp
    rw [hplain, hcut, steps_report]
    rcases Exec.run_alarmed limits p (m := m) rfl rfl with
      ⟨hle, he⟩ | ⟨pt, c, d, n, hpt, hi, hu, hs, he⟩
    · refine ⟨fun _ => ?_, fun hlt => absurd hle (Nat.not_le.mpr hlt), fun _ _ _ _ => rfl⟩
      obtain ⟨hr, hev, hv, hf⟩ := report_calmed (Exec.run ⟨limits, some k⟩ p (m.alarmed k))
      obtain ⟨hr', hev', hv', hf'⟩ := report_calmed (Exec.run ⟨limits, none⟩ p m)
      rw [he] at hr hev hv hf
      exact ⟨hr.symm.trans hr', hev.symm.trans hev', hv.symm.trans hv', hf.symm.trans hf'⟩
    · have hlt : k < (Exec.final (Exec.run ⟨limits, none⟩ p m)).steps := by
        have hg := hpt.grows_next.steps
        rw [Point.steps_next hu hi, hs] at hg
        exact hg
      refine ⟨fun hle => absurd hlt (Nat.not_lt.mpr hle), fun _ => ?_, fun _ _ _ _ => rfl⟩
      refine ⟨p, pt, c, rfl, hpt, hs, hu, events_of_upcoming hpt hi hu, ?_⟩
      rw [he]
      exact ⟨rfl, events_report_error _ _, rfl, rfl⟩

/--
A conditional that an interrupt stops at its third statement, at its first one, and not at all.
-/
theorem interrupt_cuts_conditional :
    let source := "IF A = A THEN\nX = 1\nX = 2\nENDIF".toList
    2 < (run {} {} source).machine.steps ∧
    (∃ (pt : Point) (c : Command), pt.machine.steps = 2 ∧ pt.upcoming? = some c ∧
      (run ⟨{}, some 2⟩ {} source).result = .error ⟨.interrupted, some c.line, []⟩ ∧
      (run ⟨{}, some 2⟩ {} source).session.vars = pt.machine.vars) ∧
    (∃ e, (run ⟨{}, some 0⟩ {} source).result = .error e ∧ e.kind = .interrupted) ∧
    (run ⟨{}, some 3⟩ {} source).result = (run {} {} source).result := by
  intro source
  have hsteps : (run {} {} source).machine.steps = 3 := by decide +kernel
  have hlt : 2 < (run {} {} source).machine.steps := by omega
  refine ⟨hlt, ?_, ?_, ?_⟩
  · obtain ⟨p, pt, c, -, -, hs, hu, -, hr, -, hv, -⟩ :=
      (interrupt_cuts_at_next_statement {} {} source 2).2.1 hlt
    exact ⟨pt, c, hs, hu, hr, hv⟩
  · obtain ⟨p, pt, c, -, -, -, -, -, hr, -⟩ :=
      (interrupt_cuts_at_next_statement {} {} source 0).2.1 (by omega)
    exact ⟨_, hr, rfl⟩
  · have h := interrupt_cuts_at_next_statement {} {} source 3
    exact (h.1 (Nat.le_of_eq hsteps)).1

end LineScript.Session
