import LineScript.Proofs.Machine.Tally

/-! # Two runs side by side

From a point, a run comes to one end only, and on the way there it takes back nothing that it has
reported or counted. Two runs are followed side by side for as long as their points stay related:
either they come to related ends, or there is a pair of related points at which they part.
-/

namespace LineScript

namespace Machine

def relevel (m : Machine) (depth nesting : Nat) : Machine := { m with depth, nesting }

/-- Nothing that was reported or counted on `m` is taken back on `m'`. -/
structure Grows (m m' : Machine) : Prop where
  events : m.events <:+ m'.events
  steps : m.steps ≤ m'.steps

namespace Grows

variable {m m₁ m₂ : Machine}

theorem refl (m : Machine) : Grows m m := ⟨List.suffix_rfl, Nat.le_refl _⟩

theorem trans (h : Grows m m₁) (h' : Grows m₁ m₂) : Grows m m₂ :=
  ⟨h.events.trans h'.events, Nat.le_trans h.steps h'.steps⟩

theorem executed (h : Grows m m₁) : m.executed <:+ m₁.executed := h.events.filterMap _

end Grows

end Machine

theorem Action.grows_ofCommand (g : Guard) (c : Command) (rest : Program) (m : Machine) :
    m.Grows (ofCommand g c rest m).machine := by
  have hstart := start_ofCommand g c rest m
  generalize ofCommand g c rest m = a at hstart
  cases hstart with
  | interrupted => exact ⟨List.suffix_rfl, Nat.le_refl _⟩
  | exhausted => exact ⟨List.suffix_rfl, Nat.le_succ _⟩
  | started _ _ hc =>
    have hs : m.events <:+ (m.counted.announced g c.line).events := List.suffix_cons ..
    refine ⟨hs.trans hc.events, ?_⟩
    rw [hc.steps]
    exact Nat.le_succ m.steps

theorem Scope.exists_leave (scope : Scope) (m : Machine) :
    ∃ d n, scope.leave m = m.relevel d n := by
  cases scope <;> exact ⟨_, _, rfl⟩

theorem Scope.exists_enter (scope : Scope) (m : Machine) :
    ∃ d n, scope.enter m = m.relevel d n := by
  cases scope <;> exact ⟨_, _, rfl⟩

namespace Progress

def machine : Progress → Machine
  | running pt => pt.machine
  | failed _ m | finished m => m

def IsEnd : Progress → Prop
  | running _ => False
  | failed _ _ | finished _ => True

theorem isEnd_ofResult (r : Exec.Result Unit) : (ofResult r).IsEnd := by
  cases r <;> trivial

end Progress

namespace Point

theorem exists_unwind (m : Machine) (fs : List Frame) : ∃ d n, unwind m fs = m.relevel d n := by
  induction fs generalizing m with
  | nil => exact ⟨m.depth, m.nesting, rfl⟩
  | cons f fs ih =>
    obtain ⟨d, n, h⟩ := f.scope.exists_leave m
    obtain ⟨d', n', h'⟩ := ih (m.relevel d n)
    refine ⟨d', n', ?_⟩
    change unwind (f.scope.leave m) fs = m.relevel d' n'
    rw [h, h']
    rfl

theorem exists_descend (g : Guard) (l : Line) (f : Frame) (m : Machine) (fs : List Frame) :
    ∃ d n, (descend g l f m fs).machine = m.relevel d n := by
  unfold descend
  split
  · exact exists_unwind m fs
  · exact f.scope.exists_enter m

theorem exists_machine_next {f : Frame} {c : Command} {rest : Program}
    (h : f.segment = c :: rest) (g : Guard) (m : Machine) (fs : List Frame) :
    ∃ d n, (next g ⟨m, f :: fs⟩).machine = (Action.ofCommand g c rest m).machine.relevel d n := by
  rw [next_of_segment_eq_cons h]
  cases Action.ofCommand g c rest m with
  | fail e m' => exact exists_unwind m' _
  | pass done m' => exact ⟨m'.depth, m'.nesting, rfl⟩
  | enter start stop done m' => exact exists_descend ..
  | call p m' => exact exists_descend ..

theorem next_of_fail {g : Guard} {f : Frame} {c : Command} {rest : Program}
    (h : f.segment = c :: rest) {m m' : Machine} {e : Error}
    (ha : Action.ofCommand g c rest m = .fail e m') (fs : List Frame) :
    ∃ d n, next g ⟨m, f :: fs⟩ = .failed e (m'.relevel d n) := by
  obtain ⟨d, n, hu⟩ := exists_unwind m' (f :: fs)
  exact ⟨d, n, by rw [next_of_segment_eq_cons h, ha, ← hu]⟩

theorem grows_next (g : Guard) (pt : Point) : pt.machine.Grows (pt.next g).machine := by
  obtain ⟨m, fs⟩ := pt
  cases fs with
  | nil => exact .refl m
  | cons f fs =>
    cases hs : f.segment with
    | nil =>
      obtain ⟨d, n, h⟩ := f.scope.exists_leave m
      rw [next_of_segment_eq_nil hs, h]
      exact ⟨List.suffix_rfl, Nat.le_refl _⟩
    | cons c rest =>
      obtain ⟨d, n, h⟩ := exists_machine_next hs g m fs
      have ha := Action.grows_ofCommand g c rest m
      rw [h]
      exact ⟨ha.events, ha.steps⟩

def upcoming? (pt : Point) : Option Command := pt.frames.head?.bind (·.segment.head?)

theorem exists_of_upcoming? {pt : Point} {c : Command} (h : pt.upcoming? = some c) :
    ∃ m f fs rest, pt = ⟨m, f :: fs⟩ ∧ f.segment = c :: rest := by
  obtain ⟨m, fs⟩ := pt
  cases fs with
  | nil => cases h
  | cons f fs =>
    cases hs : f.segment with
    | nil => simp [upcoming?, hs] at h
    | cons d rest =>
      obtain rfl : d = c := by simpa [upcoming?, hs] using h
      exact ⟨m, f, fs, rest, rfl, hs⟩

theorem next_of_upcoming?_eq_none {pt : Point} (h : pt.upcoming? = none) (g g' : Guard) :
    pt.next g' = pt.next g := by
  obtain ⟨m, fs⟩ := pt
  cases fs with
  | nil => rfl
  | cons f fs =>
    have hs : f.segment = [] := by simpa [upcoming?] using h
    rw [next_of_segment_eq_nil hs, next_of_segment_eq_nil hs]

section Upcoming

variable {g : Guard} {pt : Point} {c : Command} (hu : pt.upcoming? = some c)
  (hi : pt.machine.interrupted = false)

include hu hi

theorem next_of_exhausted (hs : g.maxSteps ≤ pt.machine.steps) :
    ∃ d n, pt.next g =
      .failed (.ofLimit .steps c.line g.maxSteps) (pt.machine.counted.relevel d n) := by
  obtain ⟨m, f, fs, rest, rfl, hseg⟩ := exists_of_upcoming? hu
  exact next_of_fail hseg (Action.ofCommand_of_exhausted c rest hi hs) fs

theorem continues_next (hs : pt.machine.steps < g.maxSteps) :
    (pt.machine.counted.announced g c.line).Continues (pt.next g).machine := by
  obtain ⟨m, f, fs, rest, rfl, hseg⟩ := exists_of_upcoming? hu
  obtain ⟨d, n, hn⟩ := exists_machine_next hseg g m fs
  have hchange : Machine.Change g c rest (m.counted.announced g c.line) _ :=
    Action.change_ofStatement
  have hc := hchange.continues
  rw [hn, Action.ofCommand_of_started c rest hi hs]
  exact ⟨hc.interrupted, hc.steps, hc.events, hc.executed⟩

theorem steps_next (g : Guard) : (pt.next g).machine.steps = pt.machine.steps + 1 := by
  rcases Nat.lt_or_ge pt.machine.steps g.maxSteps with hs | hs
  · exact (continues_next hu hi hs).steps
  · obtain ⟨d, n, hn⟩ := next_of_exhausted hu hi hs
    rw [hn]
    rfl

end Upcoming

theorem exists_machine_next_of_upcoming?_eq_none {pt : Point} (hu : pt.upcoming? = none)
    (g : Guard) : ∃ d n, (pt.next g).machine = pt.machine.relevel d n := by
  obtain ⟨m, fs⟩ := pt
  cases fs with
  | nil => exact ⟨m.depth, m.nesting, rfl⟩
  | cons f fs =>
    have hs : f.segment = [] := by simpa [upcoming?] using hu
    rw [next_of_segment_eq_nil hs]
    exact f.scope.exists_leave m

theorem calm_next {g : Guard} (hg : g.alarm = none) {pt : Point}
    (hi : pt.machine.interrupted = false) : (pt.next g).machine.interrupted = false := by
  cases hu : pt.upcoming? with
  | none =>
    obtain ⟨d, n, hn⟩ := exists_machine_next_of_upcoming?_eq_none hu g
    rw [hn]
    exact hi
  | some c =>
    rcases Nat.lt_or_ge pt.machine.steps g.maxSteps with hs | hs
    · have hc := (continues_next hu hi hs).interrupted
      simpa [Machine.announced, Machine.counted, hi, hg] using hc
    · obtain ⟨d, n, hn⟩ := next_of_exhausted hu hi hs
      rw [hn]
      exact hi

end Point

namespace Progress

variable {g g' : Guard}

theorem Leads.grows {x y : Progress} (h : Leads g x y) : x.machine.Grows y.machine := by
  induction h with
  | refl x => exact .refl _
  | @step pt y _ ih => exact (pt.grows_next g).trans ih

theorem Leads.linear {x y z : Progress} (h : Leads g x y) (h' : Leads g x z) :
    Leads g y z ∨ Leads g z y := by
  induction h with
  | refl => exact .inl h'
  | step h ih =>
    cases h' with
    | refl => exact .inr (.step h)
    | step h' => exact ih h'

theorem Leads.eq_of_isEnd {x y : Progress} (h : Leads g x y) (hx : x.IsEnd) : y = x := by
  cases h with
  | refl => rfl
  | step => exact absurd hx (by simp [IsEnd])

theorem Leads.end_unique {x y z : Progress} (h : Leads g x y) (h' : Leads g x z) (hy : y.IsEnd)
    (hz : z.IsEnd) : y = z := by
  rcases h.linear h' with hl | hl
  · exact (hl.eq_of_isEnd hy).symm
  · exact hl.eq_of_isEnd hz

theorem Leads.next_of_isEnd {pt : Point} {y : Progress} (h : Leads g (.running pt) y)
    (hy : y.IsEnd) : Leads g (pt.next g) y := by
  cases h with
  | refl => exact absurd hy (by simp [IsEnd])
  | step h => exact h

/-- The two runs are at related points, or have ended alike on related machines. -/
inductive Rel (I : Point → Point → Prop) (E : Machine → Machine → Prop) :
    Progress → Progress → Prop where
  | running {pt pt' : Point} : I pt pt' → Rel I E (.running pt) (.running pt')
  | failed {e : Error} {m m' : Machine} : E m m' → Rel I E (.failed e m) (.failed e m')
  | finished {m m' : Machine} : E m m' → Rel I E (.finished m) (.finished m')

section Lockstep

variable {I S : Point → Point → Prop} {E : Machine → Machine → Prop}

theorem Rel.isEnd {x y : Progress} (h : Rel I E x y) (hx : x.IsEnd) : y.IsEnd := by
  cases h with
  | running => exact hx
  | failed | finished => trivial

theorem Rel.result {r r' : Exec.Result Unit} (h : Rel I E (ofResult r) (ofResult r')) :
    (∃ m m', r = .ok () m ∧ r' = .ok () m' ∧ E m m') ∨
      ∃ e m m', r = .error e m ∧ r' = .error e m' ∧ E m m' := by
  cases r with
  | ok u m =>
    cases r' with
    | error e m' => cases h
    | ok u' m' =>
      cases h with
      | finished hE => exact .inl ⟨m, m', rfl, rfl, hE⟩
  | error e m =>
    cases r' with
    | ok u m' => cases h
    | error e' m' =>
      cases h with
      | failed hE => exact .inr ⟨e, m, m', rfl, rfl, hE⟩

/-- Two runs stay related to where the one leads, unless they part at a pair of related points. -/
theorem Leads.lockstep
    (hstep : ∀ pt pt', I pt pt' → S pt pt' ∨ Rel I E (pt.next g) (pt'.next g'))
    {x y x' : Progress} (h : Leads g x y) (hx : Rel I E x x') :
    (∃ y', Leads g' x' y' ∧ Rel I E y y') ∨
      ∃ pt pt', I pt pt' ∧ S pt pt' ∧ Leads g x (.running pt) ∧ Leads g' x' (.running pt') := by
  induction h generalizing x' with
  | refl x => exact .inl ⟨x', .refl _, hx⟩
  | @step pt y _ ih =>
    cases hx with
    | @running _ pt' hI =>
      rcases hstep pt pt' hI with hS | hn
      · exact .inr ⟨pt, pt', hI, hS, .refl _, .refl _⟩
      · rcases ih hn with ⟨y', hl, hr⟩ | ⟨pt₁, pt₁', hI₁, hS₁, hl, hl'⟩
        · exact .inl ⟨y', .step hl, hr⟩
        · exact .inr ⟨pt₁, pt₁', hI₁, hS₁, .step hl, .step hl'⟩

end Lockstep

end Progress

namespace Exec

open Progress

variable {g g' : Guard} {p p' : Program} {m m' : Machine} {pt : Point}

theorem eq_run_of_leads {y : Progress} (h : Leads g (.running (.start p m)) y) (hy : y.IsEnd) :
    y = ofResult (run g p m) :=
  h.end_unique (leads_run g p m) hy (isEnd_ofResult _)

theorem Reaches.leads_run (h : Reaches g p m pt) :
    Leads g (.running pt) (ofResult (run g p m)) := by
  rcases Leads.linear h (Progress.leads_run g p m) with hl | hl
  · exact hl
  · have := hl.eq_of_isEnd (isEnd_ofResult _)
    exact absurd (isEnd_ofResult (run g p m)) (by simp [← this, IsEnd])

theorem Reaches.run_eq_error (h : Reaches g p m pt) {e : Error}
    (hn : pt.next g = .failed e m') : run g p m = .error e m' := by
  have hl : Leads g (.running (.start p m)) (.failed e m') :=
    Leads.trans h (.step (hn ▸ .refl _))
  have he := eq_run_of_leads hl trivial
  cases hr : run g p m with
  | ok u m₁ =>
    rw [hr] at he
    cases he
  | error e₁ m₁ =>
    rw [hr] at he
    cases he
    rfl

theorem machine_ofResult (r : Result Unit) : (ofResult r).machine = final r := by
  cases r <;> rfl

theorem Reaches.grows_next (h : Reaches g p m pt) :
    (pt.next g).machine.Grows (final (run g p m)) := by
  rw [← machine_ofResult]
  exact (h.leads_run.next_of_isEnd (isEnd_ofResult _)).grows

section Lockstep

variable {I S : Point → Point → Prop} {E : Machine → Machine → Prop}

/-- Two runs end alike, or part at a pair of related points that they reach. -/
theorem lockstep
    (hstep : ∀ pt pt', I pt pt' → S pt pt' ∨ Rel I E (pt.next g) (pt'.next g'))
    (hstart : I (.start p m) (.start p' m')) :
    Rel I E (ofResult (run g p m)) (ofResult (run g' p' m')) ∨
      ∃ pt pt', I pt pt' ∧ S pt pt' ∧ Reaches g p m pt ∧ Reaches g' p' m' pt' := by
  rcases (Progress.leads_run g p m).lockstep hstep (.running hstart) with ⟨y', hl, hr⟩ | hpart
  · left
    rwa [← eq_run_of_leads hl (hr.isEnd (isEnd_ofResult _))]
  · exact .inr hpart

end Lockstep

end Exec

end LineScript
