import LineScript.Proofs.Machine.Overlay

/-! # A run on top of another

What a run has emitted, counted and reported does not matter to what it does next, apart from the
limit on steps. So a run that goes on where another one stopped does what it does by itself, with
what the other one left beneath it, as long as the steps of both together stay within the limit.
-/

namespace LineScript

namespace Machine

/-- What a run by itself has come to, on top of what `past` has emitted, counted and reported. -/
def extendedBy (past m : Machine) : Machine :=
  { m with
    output := ⟨m.output.fragments ++ past.output.fragments⟩
    steps := m.steps + past.steps
    events := m.events ++ past.events }

variable {g : Guard} (past m : Machine)

theorem unseen_extendedBy : Unseen past.extendedBy where
  vars _ := rfl
  functions _ := rfl
  depth _ := rfl
  nesting _ := rfl
  relevel _ _ _ := rfl
  report _ _ := rfl
  assigned _ _ _ := rfl
  printed m e := by
    by_cases he : (e.shown m.vars).isEmpty <;>
      simp [printed, extendedBy, Output.print, Output.append, he]
  defined _ _ _ := rfl
  skip _ _ := rfl

theorem counted_extendedBy : (past.extendedBy m).counted = past.extendedBy m.counted := by
  simp [counted, extendedBy, Nat.add_right_comm]

theorem announced_extendedBy (hg : g.alarm = none) (l : Line) :
    (past.extendedBy m).announced g l = past.extendedBy (m.announced g l) := by
  simp [announced, extendedBy, report, hg]

end Machine

open Machine

theorem Action.ofCommand_extendedBy {g : Guard} (hg : g.alarm = none) {past m : Machine}
    (hi : m.interrupted = false)
    (hs : m.steps < g.maxSteps → m.steps + past.steps < g.maxSteps) (c : Command)
    (rest : Program) :
    ofCommand g c rest (past.extendedBy m) = (ofCommand g c rest m).map past.extendedBy := by
  have hi' : (past.extendedBy m).interrupted = false := hi
  rcases Nat.lt_or_ge m.steps g.maxSteps with hlt | hge
  · have hlt' : (past.extendedBy m).steps < g.maxSteps := hs hlt
    rw [ofCommand_of_started c rest hi hlt, ofCommand_of_started c rest hi' hlt',
      counted_extendedBy, announced_extendedBy _ _ hg]
    exact ofStatement_map (unseen_extendedBy past) rfl c rest _
  · have hge' : g.maxSteps ≤ (past.extendedBy m).steps := Nat.le_add_right_of_le hge
    rw [ofCommand_of_exhausted c rest hi hge, ofCommand_of_exhausted c rest hi' hge',
      counted_extendedBy]
    rfl

namespace Point

variable {g : Guard} {past : Machine} {pt pt' : Point}

def Extends (past : Machine) (pt pt' : Point) : Prop :=
  pt.machine.interrupted = false ∧ pt' = pt.map past.extendedBy

/-- Only the steps of the past leave no room for the command that is next. -/
def Crowded (g : Guard) (past : Machine) (pt : Point) : Prop :=
  pt.machine.steps < g.maxSteps ∧ g.maxSteps ≤ pt.machine.steps + past.steps ∧
    ∃ c, pt.upcoming? = some c

theorem next_extendedBy (hg : g.alarm = none) (hi : pt.machine.interrupted = false)
    (hc : ¬ Crowded g past pt) :
    (pt.map past.extendedBy).next g = (pt.next g).map past.extendedBy := by
  have hunseen := unseen_extendedBy past
  cases hu : pt.upcoming? with
  | none => exact next_map_of_upcoming?_eq_none hunseen hu
  | some c =>
    have hs : pt.machine.steps < g.maxSteps → pt.machine.steps + past.steps < g.maxSteps := by
      intro hlt
      by_contra hge
      exact hc ⟨hlt, Nat.not_lt.mp hge, c, hu⟩
    obtain ⟨m, f, fs, rest, rfl, hseg⟩ := exists_of_upcoming? hu
    exact next_map hunseen hseg (Action.ofCommand_extendedBy hg hi hs c rest) rfl fs

theorem rel_next_extendedBy (hg : g.alarm = none) (h : Extends past pt pt') :
    Crowded g past pt ∨
      Progress.Rel (Extends past) (fun m m' => m' = past.extendedBy m) (pt.next g)
        (pt'.next g) := by
  obtain ⟨hi, rfl⟩ := h
  by_cases hc : Crowded g past pt
  · exact .inl hc
  · right
    rw [next_extendedBy hg hi hc]
    refine Progress.rel_map ?_ rfl
    intro pt' hn
    have hcalm := calm_next hg hi
    rw [hn] at hcalm
    exact ⟨hcalm, rfl⟩

end Point

namespace Exec

variable {g : Guard} {m : Machine}

/-- A run does the same on top of what is past, if the steps of both stay within the limit. -/
theorem run_extendedBy (hg : g.alarm = none) (hi : m.interrupted = false) (p : Program)
    {past : Machine}
    (hs : past.steps = 0 ∨ (final (run g p m)).steps + past.steps ≤ g.maxSteps) :
    run g p (past.extendedBy m) = mapMachine past.extendedBy (run g p m) := by
  have hstart : Point.Extends past (.start p m) (.start p (past.extendedBy m)) := ⟨hi, rfl⟩
  have hstep : ∀ pt pt', Point.Extends past pt pt' → Point.Crowded g past pt ∨
      Progress.Rel (Point.Extends past) (fun m m' => m' = past.extendedBy m) (pt.next g)
        (pt'.next g) := fun _ _ => Point.rel_next_extendedBy hg
  rcases lockstep hstep hstart with h | ⟨pt, _, ⟨hi, -⟩, ⟨hlt, hge, c, hu⟩, hpt, -⟩
  · rcases h.result with ⟨m₁, m₂, hr, hr', rfl⟩ | ⟨e, m₁, m₂, hr, hr', rfl⟩
    · rw [hr, hr', mapMachine_ok]
    · rw [hr, hr', mapMachine_error]
  · -- the crowded point counts one more step, which the whole run keeps
    have hgrows := hpt.grows_next.steps
    rw [Point.steps_next hu hi] at hgrows
    omega

end Exec

end LineScript
