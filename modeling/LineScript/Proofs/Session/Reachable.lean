import LineScript.Session.Run
import LineScript.Proofs.Machine.Point
import LineScript.Proofs.Reading

/-! # Reachable sessions

A run of a source that can be read is the run of its program from the machine of the session; a
source that cannot be read leaves the session alone. The reachable sessions are those that runs,
resets and interrupts lead to from a new one.
-/

namespace LineScript

theorem Machine.interrupted_ofSession {g : Guard} (hg : g.alarm ≠ some 0) (s : Session) :
    (ofSession g s).interrupted = false := by
  simpa [ofSession] using hg

namespace Session

/-- The machine with which the run of a source begins. -/
def machine (g : Guard) (s : Session) (source : Text) : Machine :=
  (Machine.ofSession g s).report (.started (Line.split source).length)

def report : Exec.Result Unit → Report
  | .ok _ m => ⟨.ok m.output.shown, m.report (.finished m.steps)⟩
  | .error e m => ⟨.error e, m.report (.aborted e)⟩

variable {g : Guard} {s : Session} {source : Text}

theorem run_of_ofText_eq_ok {p : Program} (h : Program.ofText source = .ok p) :
    run g s source = report (Exec.run g p (s.machine g source)) := by
  have hr : execute g source (.ofSession g s) = Exec.run g p (s.machine g source) := by
    unfold execute
    rw [Exec.bind_ok (Exec.report_apply _ _)]
    have hp : (Exec.ofExcept (Program.ofLines (Line.split source)) : Exec Program)
        (s.machine g source) = .ok p (s.machine g source) := by
      rw [show Program.ofLines (Line.split source) = .ok p from h]
      rfl
    exact Exec.bind_ok hp
  unfold run
  rw [hr]
  cases Exec.run g p (s.machine g source) <;> rfl

theorem run_of_ofText_eq_error {e : Error} (h : Program.ofText source = .error e) :
    run g s source = ⟨.error e, (s.machine g source).report (.aborted e)⟩ := by
  have hr : execute g source (.ofSession g s) = .error e (s.machine g source) := by
    unfold execute
    rw [Exec.bind_ok (Exec.report_apply _ _)]
    have hp : (Exec.ofExcept (Program.ofLines (Line.split source)) : Exec Program)
        (s.machine g source) = .error e (s.machine g source) := by
      rw [show Program.ofLines (Line.split source) = .error e from h]
      rfl
    exact Exec.bind_error hp
  unfold run
  rw [hr]

theorem exec_of_result_eq_ok {p : Program} (hp : Program.ofText source = .ok p) {shown : Text}
    (h : (run g s source).result = .ok shown) :
    ∃ m, Exec.run g p (s.machine g source) = .ok () m ∧ m.output.shown = shown := by
  rw [run_of_ofText_eq_ok hp] at h
  cases hr : Exec.run g p (s.machine g source) with
  | ok u m =>
    rw [hr] at h
    cases h
    exact ⟨m, rfl, rfl⟩
  | error e m =>
    rw [hr] at h
    cases h

theorem exec_of_result_eq_error {p : Program} (hp : Program.ofText source = .ok p) {e : Error}
    (h : (run g s source).result = .error e) :
    ∃ m, Exec.run g p (s.machine g source) = .error e m := by
  rw [run_of_ofText_eq_ok hp] at h
  cases hr : Exec.run g p (s.machine g source) with
  | ok u m =>
    rw [hr] at h
    cases h
  | error e' m =>
    rw [hr] at h
    cases h
    exact ⟨m, rfl⟩

theorem exists_reaches_session (g : Guard) (s : Session) {p : Program}
    (h : Program.ofText source = .ok p) :
    ∃ pt, Exec.Reaches g p (s.machine g source) pt ∧
      (run g s source).session.vars = pt.machine.vars ∧
      (run g s source).session.functions = pt.machine.functions := by
  rw [run_of_ofText_eq_ok h]
  cases hr : Exec.run g p (s.machine g source) with
  | ok u m => exact ⟨_, Exec.reaches_of_run_eq_ok hr, rfl, rfl⟩
  | error e m =>
    obtain ⟨pt, hp, hn⟩ := Exec.exists_reaches_of_run_eq_error hr
    obtain ⟨hv, hf⟩ := (Point.fails_of_next hn).tables
    exact ⟨pt, hp, hv, hf⟩

/--
What every step keeps, and no report of the end changes, holds of the machine that a run leaves.
-/
theorem machine_run_preserved {P : Machine → Prop} {R : Frame → Prop}
    (hpres : Point.Preserved g P R) (hstart : P (s.machine g source))
    (hprogram : ∀ p, Program.ofText source = .ok p → R ⟨p, 0, p.length, .whole⟩)
    (hfinished : ∀ m n, P m → P (m.report (.finished n)))
    (haborted : ∀ m e, P m → P (m.report (.aborted e))) : P (run g s source).machine := by
  cases hp : Program.ofText source with
  | error e =>
    rw [run_of_ofText_eq_error hp]
    exact haborted _ e hstart
  | ok p =>
    have hfinal := Exec.final_preserved hpres hstart (hprogram p hp)
    rw [run_of_ofText_eq_ok hp]
    cases hr : Exec.run g p (s.machine g source) with
    | ok u m =>
      rw [hr] at hfinal
      exact hfinished _ _ hfinal
    | error e m =>
      rw [hr] at hfinal
      exact haborted _ e hfinal

inductive Reachable : Session → Prop where
  | new : Reachable {}
  | run {s : Session} (h : Reachable s) (g : Guard) (source : Text) :
      Reachable (run g s source).session
  | reset {s : Session} (h : Reachable s) : Reachable s.reset
  | interrupt {s : Session} (h : Reachable s) : Reachable s.interrupt

end Session

end LineScript
