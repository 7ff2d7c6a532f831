import LineScript.Proofs.Machine.Overlay

/-! # An interrupt that arrives with a statement

An interrupt that arrives as a statement is announced is seen by nothing until the next statement
starts, and that one it stops. Up to there the run is the one without interrupt, with the pending
interrupt laid over it.
-/

namespace LineScript

namespace Machine

/-- The machine as it is if an interrupt arrives with the `k`-th statement. -/
def alarmed (k : Nat) (m : Machine) : Machine := { m with interrupted := m.steps == k }

theorem unseen_alarmed (k : Nat) : Unseen (alarmed k) where
  vars _ := rfl
  functions _ := rfl
  depth _ := rfl
  nesting _ := rfl
  relevel _ _ _ := rfl
  report _ _ := rfl
  assigned _ _ _ := rfl
  printed _ _ := rfl
  defined _ _ _ := rfl
  skip _ _ := rfl

theorem alarmed_eq_self {k : Nat} {m : Machine} (hi : m.interrupted = false) (hs : m.steps < k) :
    m.alarmed k = m := by
  have hk : (m.steps == k) = false := by simpa using Nat.ne_of_lt hs
  rw [alarmed, hk, ← hi]

theorem announced_alarm {m : Machine} (hi : m.interrupted = false) (limits : Limits) (k : Nat)
    (l : Line) : m.announced ⟨limits, some k⟩ l = (m.announced ⟨limits, none⟩ l).alarmed k := by
  have hk : (some k == some m.steps) = (m.steps == k) := by simp [Bool.beq_comm]
  simp [announced, alarmed, hi, hk, report]

structure Awaits (k : Nat) (m : Machine) : Prop where
  calm : m.interrupted = false
  steps : m.steps ≤ k

def SameCalmed (k : Nat) (m m' : Machine) : Prop := m.steps ≤ k ∧ m'.calmed = m.calmed

end Machine

theorem Action.ofCommand_alarmed {limits : Limits} {k : Nat} {m : Machine}
    (hi : m.interrupted = false) (hk : m.steps < k) (hs : m.steps < limits.maxSteps)
    (c : Command) (rest : Program) :
    ofCommand ⟨limits, some k⟩ c rest (m.alarmed k) =
      (ofCommand ⟨limits, none⟩ c rest m).map (Machine.alarmed k) := by
  have hc : m.counted.interrupted = false := hi
  rw [Machine.alarmed_eq_self hi hk, ofCommand_of_started c rest hi hs,
    ofCommand_of_started c rest hi hs, Machine.announced_alarm hc]
  exact ofStatement_map (Machine.unseen_alarmed k) rfl c rest _

namespace Point

variable {limits : Limits} {k : Nat} {pt pt' : Point} {c : Command}

/-- At most `k` statements have been started, and `pt'` is `pt` with the interrupt laid over it. -/
def Overlaid (k : Nat) (pt pt' : Point) : Prop :=
  pt.machine.Awaits k ∧ pt' = pt.map (Machine.alarmed k)

theorem rel_map_alarmed {x : Progress} (h : x.machine.Awaits k) :
    Progress.Rel (Overlaid k) (Machine.SameCalmed k) x (x.map (Machine.alarmed k)) := by
  refine Progress.rel_map ?_ ⟨h.steps, rfl⟩
  rintro pt rfl
  exact ⟨h, rfl⟩

theorem awaits_next_of_upcoming?_eq_none (hu : pt.upcoming? = none) (h : pt.machine.Awaits k)
    (g : Guard) : (pt.next g).machine.Awaits k := by
  obtain ⟨d, n, hn⟩ := exists_machine_next_of_upcoming?_eq_none hu g
  rw [hn]
  exact ⟨h.calm, h.steps⟩

section Upcoming

variable (hu : pt.upcoming? = some c) (hi : pt.machine.interrupted = false)

include hu hi

theorem next_of_alarm (hk : pt.machine.steps = k) (g : Guard) :
    ∃ d n, (pt.map (Machine.alarmed k)).next g =
      .failed ⟨.interrupted, some c.line, []⟩ (pt.machine.relevel d n) := by
  obtain ⟨m, f, fs, rest, rfl, hseg⟩ := exists_of_upcoming? hu
  have ha : (m.alarmed k).interrupted = true := by simpa [Machine.alarmed] using hk
  obtain ⟨d, n, hn⟩ := next_of_fail hseg (Action.ofCommand_of_interrupted (g := g) c rest ha) fs
  have hm : (m.alarmed k).calmed = m := by
    change { m with interrupted := false } = m
    rw [← hi]
  exact ⟨d, n, hm ▸ hn⟩

theorem rel_next_of_lt (hk : pt.machine.steps < k) :
    Progress.Rel (Overlaid k) (Machine.SameCalmed k) (pt.next ⟨limits, none⟩)
      ((pt.map (Machine.alarmed k)).next ⟨limits, some k⟩) := by
  have hsteps := steps_next hu hi ⟨limits, none⟩
  rcases Nat.lt_or_ge pt.machine.steps limits.maxSteps with hs | hs
  · have hw : (pt.next ⟨limits, none⟩).machine.Awaits k := by
      constructor
      · exact calm_next rfl hi
      · omega
    obtain ⟨m, f, fs, rest, rfl, hseg⟩ := exists_of_upcoming? hu
    have hn : next ⟨limits, some k⟩ ⟨m.alarmed k, f :: fs⟩ =
        (next ⟨limits, none⟩ ⟨m, f :: fs⟩).map (Machine.alarmed k) :=
      next_map (Machine.unseen_alarmed k) hseg (Action.ofCommand_alarmed hi hk hs c rest) rfl fs
    rw [map, hn]
    exact rel_map_alarmed hw
  · obtain ⟨m, f, fs, rest, rfl, hseg⟩ := exists_of_upcoming? hu
    have hx : ∀ g : Guard, g.maxSteps = limits.maxSteps → next g ⟨m, f :: fs⟩ =
        .failed (.ofLimit .steps c.line limits.maxSteps) (unwind m.counted (f :: fs)) := by
      rintro g hg
      rw [next_of_segment_eq_cons hseg, Action.ofCommand_of_exhausted c rest hi (hg ▸ hs), hg]
    rw [hx _ rfl] at hsteps
    rw [map, Machine.alarmed_eq_self hi hk, hx _ rfl, hx _ rfl]
    refine .failed ⟨?_, rfl⟩
    exact Nat.le_trans (Nat.le_of_eq hsteps) hk

end Upcoming

theorem rel_next_alarmed (h : Overlaid k pt pt') :
    (pt.machine.steps = k ∧ ∃ c, pt.upcoming? = some c) ∨
      Progress.Rel (Overlaid k) (Machine.SameCalmed k) (pt.next ⟨limits, none⟩)
        (pt'.next ⟨limits, some k⟩) := by
  obtain ⟨hw, rfl⟩ := h
  cases hu : pt.upcoming? with
  | none =>
    right
    have hn : (pt.map (Machine.alarmed k)).next ⟨limits, some k⟩ =
        (pt.next ⟨limits, none⟩).map (Machine.alarmed k) :=
      next_map_of_upcoming?_eq_none (Machine.unseen_alarmed k) hu
    rw [hn]
    exact rel_map_alarmed (awaits_next_of_upcoming?_eq_none hu hw _)
  | some c =>
    rcases Nat.lt_or_eq_of_le hw.steps with hk | hk
    · exact .inr (rel_next_of_lt hu hw.calm hk)
    · exact .inl ⟨hk, c, rfl⟩

end Point

namespace Exec

variable (limits : Limits) {k : Nat} (p : Program) {m : Machine}

/--
A run with an interrupt after `k` statements ends like the run without, if that one starts no more
than these; otherwise it is stopped at the statement that comes after them.
-/
theorem run_alarmed (hi : m.interrupted = false) (hz : m.steps = 0) :
    ((final (run ⟨limits, none⟩ p m)).steps ≤ k ∧
      mapMachine Machine.calmed (run ⟨limits, some k⟩ p (m.alarmed k)) =
        mapMachine Machine.calmed (run ⟨limits, none⟩ p m)) ∨
    ∃ pt c d n, Reaches ⟨limits, none⟩ p m pt ∧ pt.machine.interrupted = false ∧
      pt.upcoming? = some c ∧ pt.machine.steps = k ∧
      run ⟨limits, some k⟩ p (m.alarmed k) =
        .error ⟨.interrupted, some c.line, []⟩ (pt.machine.relevel d n) := by
  have hstart : Point.Overlaid k (.start p m) (.start p (m.alarmed k)) :=
    ⟨⟨hi, hz ▸ Nat.zero_le k⟩, rfl⟩
  have hstep : ∀ pt pt', Point.Overlaid k pt pt' →
      (pt.machine.steps = k ∧ ∃ c, pt.upcoming? = some c) ∨
        Progress.Rel (Point.Overlaid k) (Machine.SameCalmed k) (pt.next ⟨limits, none⟩)
          (pt'.next ⟨limits, some k⟩) := fun _ _ => Point.rel_next_alarmed
  rcases lockstep hstep hstart with h | ⟨pt, _, ⟨hw, rfl⟩, ⟨hs, c, hu⟩, hpt, hpt'⟩
  · left
    rcases h.result with ⟨m₁, m₂, hr, hr', hs, hc⟩ | ⟨e, m₁, m₂, hr, hr', hs, hc⟩
    · rw [hr, hr', mapMachine_ok, mapMachine_ok, hc]
      exact ⟨hs, rfl⟩
    · rw [hr, hr', mapMachine_error, mapMachine_error, hc]
      exact ⟨hs, rfl⟩
  · right
    obtain ⟨d, n, hn⟩ := Point.next_of_alarm hu hw.calm hs ⟨limits, some k⟩
    exact ⟨pt, c, d, n, hpt, hw.calm, hu, hs, hpt'.run_eq_error hn⟩

end Exec

end LineScript
