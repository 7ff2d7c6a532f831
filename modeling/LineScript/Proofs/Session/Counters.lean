import LineScript.Proofs.Machine.Levels
import LineScript.Proofs.Session.Limits

/-! # The counters of a run

At every stage of a run its counters are within their limits and agree with what has been reported.
Whatever is entered is left with the counters as they were, so at the end they are back at zero.
-/

namespace LineScript

structure Machine.SameLevels (m m' : Machine) : Prop where
  depth : m'.depth = m.depth
  nesting : m'.nesting = m.nesting

def Machine.CallsWithin (limit : Nat) (m : Machine) : Prop :=
  ∀ name depth, .called name depth ∈ m.events → 1 ≤ depth ∧ depth ≤ limit

theorem Machine.CallsWithin.report {limit : Nat} {m : Machine} (h : m.CallsWithin limit)
    {e : Event} (he : ∀ name depth, e = .called name depth → 1 ≤ depth ∧ depth ≤ limit) :
    (m.report e).CallsWithin limit := by
  intro name depth hm
  rcases List.mem_cons.mp hm with hc | hc
  · exact he name depth hc.symm
  · exact h name depth hc

theorem Machine.Change.callsWithin {g : Guard} {c : Command} {rest : Program} {m m' : Machine}
    (h : Change g c rest m m') (hm : m.CallsWithin g.maxCallDepth) :
    m'.CallsWithin g.maxCallDepth := by
  cases h with
  | none | assign | print => exact hm
  | select | define | undefined | unrecognized => exact hm.report (by simp)
  | @decide condition =>
    cases condition with
    | compare lhs op rhs => exact hm.report (by simp)
    | invalid text => exact (hm.report (by simp)).report (by simp)
  | call _ _ hd =>
    refine hm.report ?_
    rintro _ _ ⟨⟩
    exact ⟨Nat.succ_pos _, hd⟩

namespace Point

theorem preserved_callsWithin (g : Guard) :
    Preserved g (Machine.CallsWithin g.maxCallDepth) fun _ => True where
  enter := fun scope _ h => by cases scope <;> exact h
  leave := fun scope _ h => by cases scope <;> exact h
  action := fun {_ c rest m} _ hm _ =>
    Action.machine_ofCommand (P := Machine.CallsWithin g.maxCallDepth) hm hm
      fun _ _ _ hc => hc.callsWithin (Machine.CallsWithin.report (m := m.counted) hm (by simp))
  advance := fun _ _ _ => trivial
  block := fun _ _ _ _ => trivial
  call := fun _ _ _ => trivial

theorem Preserved.next {g : Guard} {P : Machine → Prop} {R : Frame → Prop}
    (h : Preserved g P R) {pt : Point} (hi : P pt.machine ∧ ∀ f ∈ pt.frames, R f) :
    P (pt.next g).machine := by
  cases hn : pt.next g with
  | running pt' => exact (h.step (step_of_next hn) hi).1
  | failed e m => exact h.fails (fails_of_next hn) hi
  | finished m =>
    obtain rfl := eq_of_next_eq_finished hn
    exact hi.1

end Point

namespace Progress

/-- The number of statements, one at most, that were started but for want of steps not executed. -/
def overrun : Progress → Nat
  | failed e _ => if e.kind = .steps then 1 else 0
  | running _ | finished _ => 0

theorem overrun_le_one (x : Progress) : x.overrun ≤ 1 := by
  cases x with
  | failed e m =>
    simp only [overrun]
    split <;> omega
  | running | finished => exact Nat.zero_le 1

structure Tallied (g : Guard) (x : Progress) : Prop where
  steps : x.machine.steps = x.machine.executed.length + x.overrun
  executed_le : x.machine.executed.length ≤ g.maxSteps

end Progress

namespace Point

variable {g : Guard} {pt : Point}

theorem overrun_next_of_lt (hs : pt.machine.steps < g.maxSteps) : (pt.next g).overrun = 0 := by
  cases hn : pt.next g with
  | running | finished => rfl
  | failed e m =>
    have hk : e.kind ≠ .steps := fun hk =>
      absurd ((fails_of_next hn).of_kind.2.1 hk) (Nat.not_le.mpr hs)
    exact if_neg hk

theorem overrun_next_of_upcoming?_eq_none (hu : pt.upcoming? = none) :
    (pt.next g).overrun = 0 := by
  cases hn : pt.next g with
  | running | finished => rfl
  | failed e m =>
    obtain ⟨f, fs, c, rest, hf, hs⟩ := (fails_of_next hn).exists_segment
    simp [upcoming?, hf, hs] at hu

theorem tallied_next (h : (Progress.running pt).Tallied g) : (pt.next g).Tallied g := by
  obtain ⟨hsteps, hle⟩ := h
  replace hsteps : pt.machine.steps = pt.machine.executed.length := hsteps
  replace hle : pt.machine.executed.length ≤ g.maxSteps := hle
  cases hu : pt.upcoming? with
  | none =>
    obtain ⟨d, n, hn⟩ := exists_machine_next_of_upcoming?_eq_none hu g
    constructor
    · rw [hn, overrun_next_of_upcoming?_eq_none hu]
      exact hsteps
    · rw [hn]
      exact hle
  | some c =>
    cases hi : pt.machine.interrupted with
    | true =>
      obtain ⟨m, f, fs, rest, rfl, hseg⟩ := exists_of_upcoming? hu
      obtain ⟨d, n, hn⟩ := next_of_fail hseg (Action.ofCommand_of_interrupted (g := g) c rest hi) fs
      rw [hn]
      exact ⟨hsteps, hle⟩
    | false =>
      rcases Nat.lt_or_ge pt.machine.steps g.maxSteps with hs | hs
      · have hc := continues_next hu hi hs
        constructor
        · rw [hc.steps, hc.executed, overrun_next_of_lt hs]
          exact congrArg (· + 1) hsteps
        · rw [hc.executed]
          change pt.machine.executed.length + 1 ≤ g.maxSteps
          omega
      · obtain ⟨d, n, hn⟩ := next_of_exhausted hu hi hs
        rw [hn]
        exact ⟨congrArg (· + 1) hsteps, hle⟩

def interrupt (pt : Point) : Point := { pt with machine.interrupted := true }

end Point

namespace Exec

variable (g : Guard) (room : Nat)

theorem sameLevels_call (l : Line) (name : Text) (m : Machine) :
    m.SameLevels (final (call g (nested g room) l name m)) := by
  have hevolves := evolves_counters g
  have hc : Machine.Change g ⟨l, .call name⟩ [] m _ := Action.change_ofCall rfl
  have hp := hevolves.perform (hevolves.nested room) l [] (Action.ofCall g l name m)
  rw [← call_apply, bind_return, final_returning] at hp
  obtain ⟨hd, hn⟩ := hevolves.trans hc.counters hp
  exact ⟨hd, hn⟩

theorem sameLevels_nested (l : Line) (p : Program) (m : Machine) :
    m.SameLevels (final (nested g room l p m)) := by
  obtain ⟨hd, hn⟩ := (evolves_counters g).nested room l p m
  exact ⟨hd, hn⟩

theorem sameLevels_runFrom (skip : Nat) (p : Program) (m : Machine) :
    m.SameLevels (final (runFrom g (nested g room) skip p m)) := by
  rw [runFrom_eq_drop]
  obtain ⟨hd, hn⟩ := (evolves_counters g).runFrom room (p.drop skip) m
  exact ⟨hd, hn⟩

end Exec

namespace Session

/--
The stages of the run of a source, which lie between statements. At each an interrupt may arrive.
-/
inductive Stage (g : Guard) (s : Session) (source : Text) : Progress → Prop where
  | unread {e : Error} : Program.ofText source = .error e →
      Stage g s source (.failed e (s.machine g source))
  | start {p : Program} : Program.ofText source = .ok p →
      Stage g s source (.running (.start p (s.machine g source)))
  | next {pt : Point} : Stage g s source (.running pt) → Stage g s source (pt.next g)
  | interrupt {pt : Point} : Stage g s source (.running pt) →
      Stage g s source (.running pt.interrupt)

variable {g : Guard} {s : Session} {source : Text} {x : Progress}

namespace Stage

theorem of_leads {y : Progress} (h : Progress.Leads g x y) (hx : Stage g s source x) :
    Stage g s source y := by
  induction h with
  | refl => exact hx
  | step _ ih => exact ih hx.next

theorem leveled (h : Stage g s source x) : x.Leveled g := by
  induction h with
  | unread => exact ⟨rfl, rfl⟩
  | start => exact Point.leveled_start g _ rfl rfl
  | next _ ih => exact Point.Leveled.next ih
  | interrupt _ ih => exact ⟨ih.depth, ih.nesting, ih.depth_le, ih.nesting_le⟩

theorem tallied (h : Stage g s source x) : x.Tallied g := by
  induction h with
  | @unread e he =>
    have ho : (Progress.failed e (s.machine g source)).overrun = 0 := by
      simp [Progress.overrun, Program.kind_of_ofLines_eq_error he]
    exact ⟨by rw [ho]; rfl, Nat.zero_le _⟩
  | start => exact ⟨rfl, Nat.zero_le _⟩
  | next _ ih => exact Point.tallied_next ih
  | interrupt _ ih => exact ⟨ih.steps, ih.executed_le⟩

theorem callsWithin (h : Stage g s source x) : x.machine.CallsWithin g.maxCallDepth := by
  have hm : (s.machine g source).CallsWithin g.maxCallDepth :=
    Machine.CallsWithin.report (fun _ _ h => absurd h List.not_mem_nil) (by simp)
  induction h with
  | unread => exact hm
  | start => exact hm
  | next _ ih => exact (Point.preserved_callsWithin g).next ⟨ih, fun _ _ => trivial⟩
  | interrupt _ ih => exact ih

theorem kind_ne_callDepth (hlt : g.maxNesting < g.maxCallDepth) {e : Error} {m : Machine}
    (h : Stage g s source (.failed e m)) : e.kind ≠ .callDepth := by
  generalize hx : Progress.failed e m = x at h
  cases h with
  | unread he =>
    cases hx
    simp [Program.kind_of_ofLines_eq_error he]
  | start => cases hx
  | interrupt => cases hx
  | @next pt h =>
    intro hk
    have hl : pt.Leveled g := h.leveled
    have hd := (Point.fails_of_next hx.symm).of_kind.2.2 hk
    have hle := hl.depth_le_nesting
    have hn := hl.nesting_le
    omega

end Stage

theorem exists_stage (g : Guard) (s : Session) (source : Text) :
    ∃ r, Stage g s source (.ofResult r) ∧ run g s source = report r := by
  cases hp : Program.ofText source with
  | error e => exact ⟨.error e (s.machine g source), .unread hp, run_of_ofText_eq_error hp⟩
  | ok p => exact ⟨_, .of_leads (Progress.leads_run g p _) (.start hp), run_of_ofText_eq_ok hp⟩

/-- A run ends with the levels at zero, and what it reports is within the limits. -/
theorem counters_run (g : Guard) (s : Session) (source : Text) :
    (run g s source).machine.depth = 0 ∧ (run g s source).machine.nesting = 0 ∧
    (run g s source).executed.length ≤ g.maxSteps ∧
    (run g s source).machine.CallsWithin g.maxCallDepth := by
  obtain ⟨r, hst, hr⟩ := exists_stage g s source
  have hx := hst.tallied.executed_le
  have hc := hst.callsWithin
  rw [Exec.machine_ofResult] at hx hc
  rw [hr, executed_report, List.length_reverse]
  cases r with
  | ok u m =>
    obtain ⟨hd, hn⟩ := hst.leveled
    exact ⟨hd, hn, hx, hc.report (by simp)⟩
  | error e m =>
    obtain ⟨hd, hn⟩ := hst.leveled
    exact ⟨hd, hn, hx, hc.report (by simp)⟩

/--
The counters of a run are kept. At every stage, whatever interrupts arrive, calls are no deeper than
blocks and calls are nested, all counters are within their limits, and the steps counted are the
statements executed, apart from one that was started past the limit. A call raises its own level
first, and between the two it is at most one above the other; both are raised before anything of its
body is next. Whatever runs a segment, a body or a call leaves both levels as
it found them, so no level is lowered below zero and at the end both are back at zero. Where nesting
is more limited than calls are, no run ends because a call is too deep.
-/
theorem counters_kept (g : Guard) (s : Session) (source : Text) :
    (∀ x, Stage g s source x →
      x.machine.depth ≤ x.machine.nesting ∧ x.machine.nesting ≤ g.maxNesting ∧
      x.machine.depth ≤ g.maxCallDepth ∧ x.machine.steps ≤ g.maxSteps + 1 ∧
      x.machine.steps = x.machine.executed.length + x.overrun ∧
      x.machine.executed.length ≤ g.maxSteps ∧
      (∀ name depth, .called name depth ∈ x.machine.events →
        1 ≤ depth ∧ depth ≤ g.maxCallDepth) ∧
      (x.IsEnd → x.machine.depth = 0 ∧ x.machine.nesting = 0) ∧
      (g.maxSteps < UInt64.size - 1 → x.machine.steps < UInt64.size) ∧
      (g.maxNesting < g.maxCallDepth → ∀ e m, x = .failed e m → e.kind ≠ .callDepth) ∧
      ∀ pt m, x = .running pt → pt.Calls g m →
        m.depth ≤ m.nesting + 1 ∧ m.nesting ≤ g.maxNesting ∧ m.depth ≤ g.maxCallDepth) ∧
    (∀ (room : Nat) (m : Machine),
      let inner := Exec.nested g room
      (∀ skip p, m.SameLevels (Exec.final (Exec.runFrom g inner skip p m))) ∧
      (∀ l p, m.SameLevels (Exec.final (inner l p m))) ∧
      (∀ l name, m.SameLevels (Exec.final (Exec.call g inner l name m))) ∧
      (∀ p, 0 < (Exec.final (Exec.runFrom g inner 0 p m.enterBlock)).nesting) ∧
      (∀ l p, 0 < (Exec.final (inner l p m.enterCall)).depth)) ∧
    (run g s source).machine.depth = 0 ∧ (run g s source).machine.nesting = 0 ∧
    (run g s source).executed.length ≤ g.maxSteps ∧
    (∀ name depth, .called name depth ∈ (run g s source).events →
      1 ≤ depth ∧ depth ≤ g.maxCallDepth) ∧
    (g.maxNesting < g.maxCallDepth →
      ∀ e, (run g s source).result = .error e → e.kind ≠ .callDepth) := by
  refine ⟨fun x hst => ?_, fun room m => ⟨?_, ?_, ?_, ?_, ?_⟩, ?_⟩
  · have hsteps := hst.tallied.steps
    have hle := hst.tallied.executed_le
    have hover := x.overrun_le_one
    obtain ⟨hdn, hn, hd⟩ := hst.leveled.le
    refine ⟨hdn, hn, hd, by omega, hsteps, hle, hst.callsWithin, hst.leveled.of_isEnd, by omega, ?_,
      ?_⟩
    · rintro hlt e m rfl
      exact hst.kind_ne_callDepth hlt
    · rintro pt m rfl hm
      exact Point.Leveled.calls hst.leveled hm
  · exact fun skip p => Exec.sameLevels_runFrom g room skip p m
  · exact fun l p => Exec.sameLevels_nested g room l p m
  · exact fun l name => Exec.sameLevels_call g room l name m
  · intro p
    rw [(Exec.sameLevels_runFrom g room 0 p m.enterBlock).nesting]
    exact Nat.succ_pos m.nesting
  · intro l p
    rw [(Exec.sameLevels_nested g room l p m.enterCall).depth]
    exact Nat.succ_pos m.depth
  · obtain ⟨hd, hn, hx, hc⟩ := counters_run g s source
    refine ⟨hd, hn, hx, fun name depth hm => hc name depth (List.mem_reverse.mp hm), ?_⟩
    intro hlt e he
    obtain ⟨r, hst, hr⟩ := exists_stage g s source
    rw [hr] at he
    cases r with
    | ok u m => cases he
    | error e' m =>
      cases he
      exact hst.kind_ne_callDepth hlt

/-- A function that calls itself comes to the limit on nesting, not to that on calls. -/
theorem counters_of_recursion :
    let s := (run {} {} "DEFINE F AS FUNCTION\nCALL F\nENDFUNCTION".toList).session
    let g : Guard := { maxCallDepth := 3, maxNesting := 2 }
    let source := "CALL F".toList
    (run g s source).result = .error (.ofLimit .nesting ⟨2, "CALL F".toList⟩ 2) ∧
      (run g s source).machine.depth = 0 ∧
      (∀ e, (run g s source).result = .error e → e.kind ≠ .callDepth) ∧
      ∀ x, Stage g s source x → x.machine.steps < UInt64.size := by
  intro s g source
  obtain ⟨hst, -, hd, -, -, -, hk⟩ := counters_kept g s source
  refine ⟨by decide +kernel, hd, hk (by decide), fun x hx => ?_⟩
  obtain ⟨-, -, -, -, -, -, -, -, hlt, -⟩ := hst x hx
  exact hlt (by decide)

end Session

end LineScript
