import Mathlib.Data.List.MinMax
import LineScript.Proofs.Machine.Expense
import LineScript.Proofs.Session.Limits
import LineScript.Proofs.Table

/-! # Every run is finite

The limits on calls and on nesting alone bound the number of statements that a run starts: each
segment starts each of its commands at most once, and calls nest only so deep.
-/

namespace LineScript

def Functions.bodies (t : Functions) : List (List Line) := t.names.filterMap t.get?

theorem Functions.mem_bodies {t : Functions} {body : List Line} :
    body ∈ t.bodies ↔ ∃ name, t.get? name = some body := by
  simp only [bodies, List.mem_filterMap, Table.mem_names, Table.contains]
  constructor
  · rintro ⟨name, -, h⟩
    exact ⟨name, h⟩
  · rintro ⟨name, h⟩
    exact ⟨name, by rw [h]; rfl, h⟩

namespace Session

/-- The number of lines of the longest text: the source, or one of the function bodies. -/
def longest (s : Session) (source : Text) : Nat :=
  (s.functions.bodies.map List.length).foldr max (Line.split source).length

variable {g : Guard} {s : Session} {source : Text}

theorem length_split_le_longest : (Line.split source).length ≤ s.longest source := by
  unfold longest
  induction s.functions.bodies.map List.length with
  | nil => exact Nat.le_refl _
  | cons n ns ih => exact Nat.le_trans ih (Nat.le_max_right _ _)

theorem within_longest : Functions.Within (s.longest source) s.functions := by
  intro name body h
  have hb : body ∈ s.functions.bodies := Functions.mem_bodies.mpr ⟨name, h⟩
  exact List.le_max_of_le' _ (List.mem_map_of_mem hb) (Nat.le_refl _)

/--
Every run is finite. If the source and the function bodies have up to `n` lines, and calls may nest
up to `d` deep, a run starts at most `n + n ^ 2 + ... + n ^ (d + 1)` statements, and one that an
interrupt stops was at one of these. So no run fails for want of steps if it may take so many.
-/
theorem statements_bounded (g : Guard) (s : Session) (source : Text) :
    let bound := ∑ i ∈ Finset.range (min g.maxCallDepth g.maxNesting + 1),
      s.longest source ^ (i + 1)
    (run g s source).machine.steps ≤ bound ∧
    (∀ e, (run g s source).result = .error e → e.kind = .interrupted →
      (run g s source).machine.steps < bound) ∧
    (bound ≤ g.maxSteps → ∀ e, (run g s source).result = .error e → e.kind ≠ .steps) := by
  intro bound
  have hbound : bound = s.longest source *
      Command.cost (s.longest source) (min g.maxCallDepth g.maxNesting) := by
    rw [Command.cost_eq_sum, Finset.mul_sum]
    simp only [bound, pow_succ']
  cases hp : Program.ofText source with
  | error e =>
    have hk := Program.kind_of_ofLines_eq_error hp
    rw [run_of_ofText_eq_error hp]
    refine ⟨Nat.zero_le _, ?_, ?_⟩
    · rintro _ ⟨⟩ hi
      simp [hk] at hi
    · rintro - _ ⟨⟩ hs
      simp [hk] at hs
  | ok p =>
    have hlen : p.length ≤ s.longest source :=
      Program.length_of_ofLines hp ▸ length_split_le_longest
    obtain ⟨hle, herr⟩ := Exec.run_cost_le (g := g) (m := s.machine g source)
      (n := s.longest source) rfl rfl rfl within_longest hlen
    rw [← hbound] at hle herr
    have hsteps : (run g s source).machine.steps =
        (Exec.final (Exec.run g p (s.machine g source))).steps := by
      rw [run_of_ofText_eq_ok hp, steps_report]
    rw [hsteps]
    refine ⟨hle, ?_, ?_⟩
    · intro e he hk
      obtain ⟨m', hr⟩ := exec_of_result_eq_error hp he
      rw [hr]
      exact (herr e m' hr).1 hk
    · intro hmax e he hk
      obtain ⟨m', hr⟩ := exec_of_result_eq_error hp he
      exact Nat.not_lt.mpr hmax ((herr e m' hr).2 hk)

/-- Calls that nest two deep in texts of two lines start as many statements as they may. -/
theorem statements_of_nested_calls :
    let s := (run {} {} ("DEFINE G AS FUNCTION\nX = 1\nX = 2\nENDFUNCTION\n" ++
      "DEFINE F AS FUNCTION\nCALL G\nCALL G\nENDFUNCTION").toList).session
    let g : Guard := { maxCallDepth := 2, maxSteps := 14 }
    let source := "CALL F\nCALL F".toList
    s.longest source = 2 ∧ (run g s source).machine.steps = 2 + 2 ^ 2 + 2 ^ 3 ∧
      (run g s source).machine.steps ≤ ∑ i ∈ Finset.range 3, 2 ^ (i + 1) ∧
      ∀ e, (run g s source).result = .error e → e.kind ≠ .steps := by
  intro s g source
  have hl : s.longest source = 2 := by decide +kernel
  obtain ⟨hle, -, hmax⟩ := statements_bounded g s source
  rw [hl] at hle hmax
  exact ⟨hl, by decide +kernel, hle, hmax (by decide)⟩

end Session

end LineScript
