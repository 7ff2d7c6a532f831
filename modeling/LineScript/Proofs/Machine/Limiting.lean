import LineScript.Proofs.Machine.Lockstep

/-! # Larger limits

Of two runs of a program, the one under smaller limits is that under larger limits, or a limit cuts
it short: then it has reported what the other one has, up to there. If only the limits on steps
differ, the cut comes exactly where the smaller number of statements has been executed.
-/

namespace LineScript

/-- No limit of the one is larger than that of the other. -/
instance : LE Limits where
  le a b := a.maxCallDepth ≤ b.maxCallDepth ∧ a.maxNesting ≤ b.maxNesting ∧ a.maxSteps ≤ b.maxSteps

/-- A limit ends the action `a`, with nothing reported that `a'` does not report. -/
def Action.Cuts (a a' : Action) : Prop :=
  ∃ e m, a = .fail e m ∧ e.kind.isLimit = true ∧ m.events <:+ a'.machine.events

/-- A limit ends the run at `x`, with nothing reported that is not reported at `x'`. -/
def Progress.Cuts (x x' : Progress) : Prop :=
  ∃ e m, x = .failed e m ∧ e.kind.isLimit = true ∧ m.events <:+ x'.machine.events

section Larger

variable {g g' : Guard}

namespace Action

variable {c : Command} {rest : Program} {m : Machine}

theorem ofCall_of_le (hd : g.maxCallDepth ≤ g'.maxCallDepth) {name : Text}
    (hs : c.statement = .call name) :
    ofCall g' c.line name m = ofCall g c.line name m ∨
      (ofCall g c.line name m).Cuts (ofCall g' c.line name m) := by
  have hchange : Machine.Change g' c [] m _ := change_ofCall hs
  have hg := hchange.continues.events
  unfold ofCall at hg ⊢
  cases hf : m.functions.get? name with
  | none => exact .inl rfl
  | some body =>
    by_cases hdepth : g.maxCallDepth ≤ m.depth
    · right
      rw [hf] at hg
      exact ⟨_, m, if_pos hdepth, rfl, hg⟩
    · left
      have hdepth' : ¬ g'.maxCallDepth ≤ m.depth := by omega
      simp only [hdepth, hdepth', if_false]

theorem ofStatement_of_le (hd : g.maxCallDepth ≤ g'.maxCallDepth) :
    ofStatement g' c rest m = ofStatement g c rest m ∨
      (ofStatement g c rest m).Cuts (ofStatement g' c rest m) := by
  cases hs : c.statement with
  | call name => simpa only [ofStatement, hs] using ofCall_of_le hd hs
  | _ => simp only [ofStatement, hs, true_or]

theorem ofCommand_of_le (h : g.toLimits ≤ g'.toLimits) (ha : g'.alarm = g.alarm) (c : Command)
    (rest : Program) (m : Machine) :
    ofCommand g' c rest m = ofCommand g c rest m ∨
      (ofCommand g c rest m).Cuts (ofCommand g' c rest m) := by
  obtain ⟨hd, -, hsteps⟩ := h
  cases hi : m.interrupted with
  | true =>
    left
    rw [ofCommand_of_interrupted c rest hi, ofCommand_of_interrupted c rest hi]
  | false =>
    rcases Nat.lt_or_ge m.steps g.maxSteps with hs | hs
    · have hm : m.counted.announced g' c.line = m.counted.announced g c.line := by
        simp only [Machine.announced, ha]
      rw [ofCommand_of_started c rest hi hs,
        ofCommand_of_started c rest hi (Nat.lt_of_lt_of_le hs hsteps), hm]
      exact ofStatement_of_le hd
    · right
      refine ⟨_, m.counted, ofCommand_of_exhausted c rest hi hs, rfl, ?_⟩
      exact (grows_ofCommand g' c rest m).events

end Action

namespace Point

theorem descend_of_le (h : g.maxNesting ≤ g'.maxNesting) (l : Line) (f : Frame) (m : Machine)
    (fs : List Frame) :
    descend g' l f m fs = descend g l f m fs ∨
      (descend g l f m fs).Cuts (descend g' l f m fs) := by
  by_cases hn : g.maxNesting ≤ m.nesting
  · right
    obtain ⟨d, n, hu⟩ := exists_unwind m fs
    obtain ⟨d', n', hd⟩ := exists_descend g' l f m fs
    refine ⟨.ofLimit .nesting l g.maxNesting, m.relevel d n, ?_, rfl, ?_⟩
    · rw [descend, if_pos hn, hu]
    · rw [hd]
      exact List.suffix_rfl
  · left
    have hn' : ¬ g'.maxNesting ≤ m.nesting := by omega
    rw [descend, descend, if_neg hn, if_neg hn']

theorem next_of_le (h : g.toLimits ≤ g'.toLimits) (ha : g'.alarm = g.alarm) (pt : Point) :
    pt.next g' = pt.next g ∨ (pt.next g).Cuts (pt.next g') := by
  cases hu : pt.upcoming? with
  | none => exact .inl (next_of_upcoming?_eq_none hu g g')
  | some c =>
    obtain ⟨m, f, fs, rest, rfl, hs⟩ := exists_of_upcoming? hu
    rcases Action.ofCommand_of_le h ha c rest m with he | ⟨e, m', hf, hk, hm⟩
    · rw [next_of_segment_eq_cons hs, next_of_segment_eq_cons hs, he]
      cases Action.ofCommand g c rest m with
      | fail e m' => exact .inl rfl
      | pass done m' => exact .inl rfl
      | enter start stop done m' => exact descend_of_le h.2.1 ..
      | call p m' => exact descend_of_le h.2.1 ..
    · right
      obtain ⟨d, n, hn⟩ := next_of_fail hs hf fs
      obtain ⟨d', n', hn'⟩ := exists_machine_next hs g' m fs
      refine ⟨e, m'.relevel d n, hn, hk, ?_⟩
      rw [hn']
      exact hm

end Point

end Larger

namespace Progress

theorem rel_rfl (x : Progress) : Rel Eq Eq x x := by
  cases x with
  | running => exact .running rfl
  | failed => exact .failed rfl
  | finished => exact .finished rfl

theorem eq_of_rel {r r' : Exec.Result Unit} (h : Rel Eq Eq (ofResult r) (ofResult r')) :
    r' = r := by
  rcases h.result with ⟨m, _, rfl, rfl, rfl⟩ | ⟨e, m, _, rfl, rfl, rfl⟩
  · rfl
  · rfl

end Progress

namespace Exec

open Progress

variable {g g' : Guard} {p : Program} {m : Machine}

/-- Under larger limits a run is the same, or a limit cuts the one under smaller limits short. -/
theorem run_of_le (h : g.toLimits ≤ g'.toLimits) (ha : g'.alarm = g.alarm) (p : Program)
    (m : Machine) :
    run g' p m = run g p m ∨
      ∃ e m₁, run g p m = .error e m₁ ∧ e.kind.isLimit = true ∧
        m₁.events <:+ (final (run g' p m)).events := by
  have hstep : ∀ pt pt' : Point, pt = pt' →
      (pt.next g).Cuts (pt.next g') ∨ Rel Eq Eq (pt.next g) (pt'.next g') := by
    rintro pt _ rfl
    rcases Point.next_of_le h ha pt with he | hcut
    · exact .inr (he ▸ rel_rfl _)
    · exact .inl hcut
  rcases lockstep (p := p) (m := m) hstep rfl with hr | ⟨pt, _, rfl, ⟨e, m₁, hn, hk, he⟩, hpt, hpt'⟩
  · exact .inl (eq_of_rel hr)
  · exact .inr ⟨e, m₁, hpt.run_eq_error hn, hk, he.trans hpt'.grows_next.events⟩

end Exec

section Steps

variable {g : Guard} {n : Nat}

theorem Action.ofCommand_of_maxSteps {m : Machine} (h : m.steps < g.maxSteps) (h' : m.steps < n)
    (c : Command) (rest : Program) :
    ofCommand { g with maxSteps := n } c rest m = ofCommand g c rest m := by
  have hs : ¬ g.maxSteps < m.counted.steps := Nat.not_lt.mpr h
  have hs' : ¬ n < m.counted.steps := Nat.not_lt.mpr h'
  unfold ofCommand
  rw [if_neg hs, if_neg hs']
  rfl

theorem Point.next_of_maxSteps {pt : Point} (h : pt.machine.steps < g.maxSteps)
    (h' : pt.machine.steps < n) : pt.next { g with maxSteps := n } = pt.next g := by
  cases hu : pt.upcoming? with
  | none => exact next_of_upcoming?_eq_none hu _ _
  | some c =>
    obtain ⟨m, f, fs, rest, rfl, hs⟩ := exists_of_upcoming? hu
    rw [next_of_segment_eq_cons hs, next_of_segment_eq_cons hs, Action.ofCommand_of_maxSteps h h']
    rfl

end Steps

namespace Exec

variable {g : Guard} {n : Nat} {p : Program} {m : Machine}

/--
With another limit on steps, a run that was not stopped by its own is the same and executes no more
statements than that, or it is stopped where it has executed that many.
-/
theorem run_of_maxSteps (hg : g.alarm = none) (hi : m.interrupted = false) (hz : m.steps = 0)
    (he : m.executed = []) (hsteps : ∀ e m', run g p m = .error e m' → e.kind ≠ .steps) :
    (run { g with maxSteps := n } p m = run g p m ∧ (final (run g p m)).executed.length ≤ n) ∨
      ∃ l m₁, run { g with maxSteps := n } p m = .error (.ofLimit .steps l n) m₁ ∧
        m₁.executed.length = n ∧ l :: m₁.executed <:+ (final (run g p m)).executed := by
  have ht : ∀ g : Guard, m.Tallied g := fun g => ⟨hi, by simp [hz, he]⟩
  have hstep : ∀ pt pt' : Point, pt = pt' →
      ((∃ c, pt.upcoming? = some c) ∧ (g.maxSteps ≤ pt.machine.steps ∨ n ≤ pt.machine.steps)) ∨
        Progress.Rel Eq Eq (pt.next g) (pt'.next { g with maxSteps := n }) := by
    rintro pt _ rfl
    by_cases hs : pt.machine.steps < g.maxSteps ∧ pt.machine.steps < n
    · exact .inr (Point.next_of_maxSteps hs.1 hs.2 ▸ Progress.rel_rfl _)
    · cases hu : pt.upcoming? with
      | none => exact .inr (Point.next_of_upcoming?_eq_none hu _ _ ▸ Progress.rel_rfl _)
      | some c => exact .inl ⟨⟨c, rfl⟩, by omega⟩
  rcases lockstep (p := p) (m := m) hstep rfl with hr | ⟨pt, _, rfl, ⟨⟨c, hu⟩, hs⟩, hpt, hpt'⟩
  · have heq := Progress.eq_of_rel hr
    have hl := (tallied_final (p := p) (g := { g with maxSteps := n }) hg (ht _)).length_executed
    rw [heq] at hl
    exact .inl ⟨heq, by rw [hl]; exact Nat.min_le_right _ _⟩
  · right
    have hc := (hpt.tallied hg (ht _)).calm
    -- the run under `g` is not stopped by its own limit, so it is the other one that is stopped
    have hlt : pt.machine.steps < g.maxSteps := by
      by_contra hge
      obtain ⟨d, k, hn⟩ := Point.next_of_exhausted (g := g) hu hc (Nat.not_lt.mp hge)
      exact hsteps _ _ (hpt.run_eq_error hn) rfl
    have hle : n ≤ pt.machine.steps := by omega
    obtain ⟨d, k, hn⟩ := Point.next_of_exhausted (g := { g with maxSteps := n }) hu hc hle
    have hl := (Reaches.tallied (g := { g with maxSteps := n }) hg hpt' (ht _)).length_executed
    refine ⟨c.line, _, hpt'.run_eq_error hn, ?_, ?_⟩
    · exact hl.trans (Nat.min_eq_right hle)
    · have hx := hpt.grows_next.executed
      rwa [(Point.continues_next hu hc hlt).executed] at hx

end Exec

end LineScript
