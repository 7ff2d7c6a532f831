import LineScript.Proofs.Machine.Extension
import LineScript.Proofs.Machine.Sequence
import LineScript.Proofs.Numbering
import LineScript.Proofs.Session.Shown

/-! # Sequential composition

Two sources that run to their ends one after the other run to the end as one source, and do what
the two do. The first source closes all its blocks, so the seam is a place between two commands;
the second one is numbered as if the lines of the first stood before it.
-/

namespace LineScript

namespace Text

theorem lines_replicate_newline (n : Nat) (b : Text) :
    lines (List.replicate n '\n' ++ b) = List.replicate n [] ++ lines b := by
  induction n with
  | zero => rfl
  | succ n ih =>
    rw [List.replicate_succ, List.cons_append, lines_cons, ih]
    rfl

end Text

namespace Line

theorem numbered_replicate_nil (k n : Nat) : numbered k (List.replicate n []) = [] := by
  simp only [numbered, List.filter_eq_nil_iff, List.mem_map]
  rintro _ ⟨⟨t, i⟩, ht, rfl⟩
  obtain rfl : t = [] := List.eq_of_mem_replicate (List.fst_mem_of_mem_zipIdx ht)
  have ht : Text.trim [] = [] := rfl
  simp [isEmpty, ofText, ht]

theorem split_append {a : Text} (ha : a = [] ∨ ['\n'] <:+ a) (b : Text) :
    split (a ++ b) = split a ++ split (List.replicate (Text.lines a).length '\n' ++ b) := by
  have hsplit (t : Text) : split t = numbered 1 (Text.lines t) := rfl
  rw [hsplit, hsplit, hsplit, Text.lines_append ha, Text.lines_replicate_newline, numbered_append,
    numbered_append, numbered_replicate_nil, List.length_replicate, List.nil_append]

end Line

namespace Session

variable {g : Guard} {s : Session} {source : Text}

def opening (source : Text) : Machine := { events := [.started (Line.split source).length] }

theorem exec_machine (hg : g.alarm = none) (p : Program) (s : Session) (source : Text) :
    Exec.run g p (s.machine g source) =
      Exec.mapMachine (opening source).extendedBy (Exec.run g p (.ofSession g s)) := by
  have hi : (Machine.ofSession g s).interrupted = false :=
    Machine.interrupted_ofSession (by simp [hg]) s
  have hz : (opening source).steps = 0 := rfl
  exact Exec.run_extendedBy hg hi p (.inl hz)

theorem extendedBy_ofSession (hg : g.alarm = none) {p : Program} {m : Machine} {u : Unit}
    (h : Exec.run g p (.ofSession g s) = .ok u m) :
    m.extendedBy (.ofSession g m.toSession) = m := by
  obtain ⟨hd, hn⟩ := (Exec.evolves_counters g).of_run h
  have hm : (Machine.ofSession g s).Tallied g :=
    ⟨Machine.interrupted_ofSession (by simp [hg]) s, by simp [Machine.executed, Machine.ofSession]⟩
  have hi := (Exec.tallied_final (p := p) hg hm).calm
  rw [h] at hi
  obtain ⟨⟨vars, functions, interrupted⟩, output, depth, nesting, steps, events⟩ := m
  simp_all [Machine.extendedBy, Machine.ofSession, Exec.final]

theorem run_of_exec (hg : g.alarm = none) {p : Program} {m : Machine}
    (hp : Program.ofText source = .ok p) (h : Exec.run g p (.ofSession g s) = .ok () m) :
    (run g s source).result = .ok m.output.shown ∧ (run g s source).machine.steps = m.steps ∧
      (run g s source).session = m.toSession := by
  rw [run_of_ofText_eq_ok hp, exec_machine hg, h]
  refine ⟨?_, rfl, rfl⟩
  simp [report, Machine.extendedBy, opening]

theorem exec_of_ok (hg : g.alarm = none) {shown : Text}
    (h : (run g s source).result = .ok shown) :
    ∃ p m, Program.ofText source = .ok p ∧ Exec.run g p (.ofSession g s) = .ok () m := by
  cases hp : Program.ofText source with
  | error e =>
    rw [run_of_ofText_eq_error hp] at h
    cases h
  | ok p =>
    rw [run_of_ofText_eq_ok hp, exec_machine hg] at h
    cases hr : Exec.run g p (.ofSession g s) with
    | error e m =>
      rw [hr] at h
      cases h
    | ok u m => exact ⟨p, m, rfl, hr⟩

/-- The second program goes on where the first one stopped as it runs from the session. -/
theorem exec_append (hg : g.alarm = none) {p q : Program} {m₁ m₂ : Machine}
    (h₁ : Exec.run g p (.ofSession g s) = .ok () m₁)
    (h₂ : Exec.run g q (.ofSession g m₁.toSession) = .ok () m₂)
    (hs : m₁.steps + m₂.steps ≤ g.maxSteps) :
    Exec.run g (p ++ q) (.ofSession g s) = .ok () (m₁.extendedBy m₂) := by
  have hi : (Machine.ofSession g m₁.toSession).interrupted = false :=
    Machine.interrupted_ofSession (by simp [hg]) m₁.toSession
  have hsum : (Exec.final (Exec.run g q (.ofSession g m₁.toSession))).steps + m₁.steps ≤
      g.maxSteps := by
    rw [h₂, Nat.add_comm]
    exact hs
  calc Exec.run g (p ++ q) (.ofSession g s)
      = Exec.run g q m₁ := Exec.run_append h₁ q
    _ = Exec.run g q (m₁.extendedBy (.ofSession g m₁.toSession)) := by
        rw [extendedBy_ofSession hg h₁]
    _ = Exec.mapMachine m₁.extendedBy (Exec.run g q (.ofSession g m₁.toSession)) :=
        Exec.run_extendedBy hg hi q (.inr hsum)
    _ = .ok () (m₁.extendedBy m₂) := by rw [h₂, Exec.mapMachine_ok]

/--
Sequential composition. If two sources run to their ends one after the other, the second with as
many line ends before it as the first has lines, and both together stay within the limit on steps,
then the two joined run to their end from the first session, in as many steps as both. What was
emitted is what both emitted, and the session that is left is the one that the second run left.
-/
theorem sources_compose (limits : Limits) (s : Session) {a b : Text}
    (ha : a = [] ∨ ['\n'] <:+ a) :
    let g : Guard := ⟨limits, none⟩
    let first := run g s a
    let second := run g first.session (List.replicate (Text.lines a).length '\n' ++ b)
    let whole := run g s (a ++ b)
    ∀ o₁ o₂, first.result = .ok o₁ → second.result = .ok o₂ →
      first.machine.steps + second.machine.steps ≤ limits.maxSteps →
      whole.result = .ok (Output.showing (Output.emittedIn o₁ ++ Output.emittedIn o₂)) ∧
      whole.machine.steps = first.machine.steps + second.machine.steps ∧
      whole.session = second.session := by
  intro g first second whole o₁ o₂ h₁ h₂ hsteps
  have hg : g.alarm = none := rfl
  obtain ⟨p, m₁, hp, hr₁⟩ := exec_of_ok hg h₁
  obtain ⟨q, m₂, hq, hr₂⟩ := exec_of_ok hg h₂
  obtain ⟨ho₁, hs₁, hsession₁⟩ : first.result = _ ∧ first.machine.steps = _ ∧
      first.session = _ := run_of_exec hg hp hr₁
  obtain ⟨ho₂, hs₂, hsession₂⟩ : second.result = _ ∧ second.machine.steps = _ ∧
      second.session = _ := run_of_exec hg hq hr₂
  have hread : Program.ofText (a ++ b) = .ok (p ++ q) := by
    unfold Program.ofText
    rw [Line.split_append ha]
    exact Program.ofLines_append hp hq
  have hr : Exec.run g (p ++ q) (.ofSession g s) = .ok () (m₁.extendedBy m₂) := by
    refine exec_append hg hr₁ (hsession₁ ▸ hr₂) ?_
    rwa [hs₁, hs₂] at hsteps
  obtain ⟨ho, hs, hsession⟩ := run_of_exec hg hread hr
  refine ⟨?_, ?_, hsession.trans hsession₂.symm⟩
  · cases h₁.symm.trans ho₁
    cases h₂.symm.trans ho₂
    refine ho.trans (congrArg Except.ok ?_)
    exact (Exec.terminated_of_run rfl hr₁).shown_append (Exec.terminated_of_run rfl hr₂)
  · rw [hs₁, hs₂, Nat.add_comm]
    exact hs

/-- An assignment and a function that prints the variable, run as two sources and as one. -/
theorem assignment_and_call_compose :
    ∃ (a b : Text) (second : Report), a = "X = 1\nPRINT(X)\n\n".toList ∧
      b = "DEFINE F AS FUNCTION\nPRINT(X)\nENDFUNCTION\nCALL F".toList ∧
      second = run {} (run {} {} a).session (List.replicate (Text.lines a).length '\n' ++ b) ∧
      ((run {} {} a).result = .ok "1\n".toList ∧ (run {} {} a).machine.steps = 2) ∧
      (second.result = .ok "1\n".toList ∧ second.machine.steps = 3) ∧
      (run {} {} (a ++ b)).result = .ok "1\n1\n".toList ∧
      (run {} {} (a ++ b)).machine.steps = 5 ∧
      (run {} {} (a ++ b)).session = second.session := by
  obtain ⟨a, ha⟩ : ∃ a, a = "X = 1\nPRINT(X)\n\n".toList := ⟨_, rfl⟩
  obtain ⟨b, hb⟩ : ∃ b, b = "DEFINE F AS FUNCTION\nPRINT(X)\nENDFUNCTION\nCALL F".toList :=
    ⟨_, rfl⟩
  obtain ⟨second, hsecond⟩ : ∃ r, r = run {} (run {} {} a).session
      (List.replicate (Text.lines a).length '\n' ++ b) := ⟨_, rfl⟩
  have hend : ['\n'] <:+ a := by
    rw [ha]
    decide
  have h₁ : (run {} {} a).result = .ok "1\n".toList ∧ (run {} {} a).machine.steps = 2 := by
    rw [ha]
    decide +kernel
  have h₂ : second.result = .ok "1\n".toList ∧ second.machine.steps = 3 := by
    rw [hsecond, ha, hb]
    decide +kernel
  have h := sources_compose {} {} (b := b) (.inr hend) _ _ h₁.1 (hsecond ▸ h₂.1)
  dsimp only at h
  rw [← hsecond, h₁.2, h₂.2] at h
  obtain ⟨hresult, hsteps, hsession⟩ := h (by decide)
  exact ⟨a, b, second, ha, hb, hsecond, h₁, h₂, hresult, hsteps, hsession⟩

end Session

end LineScript
