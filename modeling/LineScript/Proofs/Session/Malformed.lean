import LineScript.Proofs.Session.Bodies

/-! # Malformed sources

A point of a run fails by an interrupt, by a limit, or at a header of the whole program whose block
is not closed: segments entered from it are balanced, and stored bodies can be read. So a syntax
error is only ever that of the source itself, found before anything has run.
-/

namespace LineScript

namespace Point

/-- A sound point fails by an interrupt, by a limit, or at an open block of the whole program. -/
theorem Sound.of_fails {g : Guard} {pt : Point} {e : Error} {m' : Machine} (hs : Sound pt)
    (h : Fails g pt e m') :
    e.kind = .interrupted ∨ e.kind.isLimit = true ∨
      ∃ m f fs c, ∃ (rest : Program), ∃ b, pt = ⟨m, f :: fs⟩ ∧ f.scope = .whole ∧
        f.segment = c :: rest ∧ c.statement.opens = some b ∧ rest.closer? b = none ∧
        e = .ofOpenBlock c.line b := by
  cases h with
  | enter => exact .inr (.inl rfl)
  | call => exact .inr (.inl rfl)
  | @action m m' f fs c rest e hseg ha =>
    have hk := Action.control_ofCommand g c rest m
    rw [ha] at hk
    cases hk with
    | interrupted => exact .inl rfl
    | steps => exact .inr (.inl rfl)
    | callDepth => exact .inr (.inl rfl)
    | malformed hget hp =>
      obtain ⟨q, hq, -⟩ := hs.functions _ _ hget
      cases hq.symm.trans hp
    | @unclosed b _ ho hc =>
      refine .inr (.inr ⟨m, f, fs, c, rest, b, rfl, ?_, hseg, ho, hc, rfl⟩)
      by_contra hw
      have hb := (hs.frames f List.mem_cons_self).balanced hw
      rw [hseg] at hb
      obtain ⟨i, hi, -⟩ := hb.closer? ho
      cases hc.symm.trans hi

theorem Sound.kind_ne_malformed {g : Guard} {pt : Point} {e : Error} {m' : Machine}
    (hs : Sound pt) (h : Fails g pt e m') : e.kind ≠ .malformed := by
  rcases hs.of_fails h with hk | hk | ⟨m, f, fs, c, rest, b, -, -, -, -, -, rfl⟩
  · simp [hk]
  · rintro hm
    simp [hm, ErrorKind.isLimit] at hk
  · simp [Error.ofOpenBlock]

end Point

namespace Session

variable {g : Guard} {s : Session} {source : Text}

theorem kind_ne_malformed_of_ofText (hs : Functions.Sound s.functions) {p : Program}
    (hp : Program.ofText source = .ok p) {e : Error} (h : (run g s source).result = .error e) :
    e.kind ≠ .malformed := by
  obtain ⟨m, hr⟩ := exec_of_result_eq_error hp h
  obtain ⟨pt, hpt, hn⟩ := Exec.exists_reaches_of_run_eq_error hr
  exact (hpt.sound hs (Program.isRead_of_ofLines hp)).kind_ne_malformed (Point.fails_of_next hn)

/-- A run ends in a syntax error exactly if some line of its source is malformed. -/
theorem malformed_iff (hs : Functions.Sound s.functions) (g : Guard) (source : Text) :
    (∃ e, (run g s source).result = .error e ∧ e.kind = .malformed) ↔
      ∃ l ∈ Line.split source, ¬ l.IsReadable := by
  constructor
  · rintro ⟨e, he, hk⟩
    by_contra hn
    push Not at hn
    obtain ⟨p, hp⟩ := Program.exists_ofLines_of_readable hn
    exact kind_ne_malformed_of_ofText hs hp he hk
  · rintro ⟨l, hl, hn⟩
    cases hp : Program.ofText source with
    | ok p => exact absurd (Program.readable_of_ofLines hp l hl) hn
    | error e =>
      obtain ⟨-, l', -, f, -, -, -, rfl⟩ := Program.exists_of_ofLines_eq_error hp
      exact ⟨_, by rw [run_of_ofText_eq_error hp], rfl⟩

/--
Syntax errors are atomic. A run ends in one exactly if a line of its source is malformed; it is then
that of the first such line, nothing was executed, and the tables are as before. Hence no body that
is stored at any point of any run fails to be read again.
-/
theorem syntax_errors_atomic (hs : Reachable s) (g : Guard) (source : Text) :
    ((∃ e, (run g s source).result = .error e ∧ e.kind = .malformed) ↔
      ∃ l ∈ Line.split source, ¬ l.IsReadable) ∧
    (∀ before l after f, Line.split source = before ++ l :: after →
      (∀ l' ∈ before, l'.IsReadable) → Statement.read l.text = .error f →
      (run g s source).result = .error (.ofFault l f) ∧
      (∀ l', .executed l' ∉ (run g s source).events) ∧
      (run g s source).session.vars = s.vars ∧
      (run g s source).session.functions = s.functions) ∧
    (∀ p pt name body, Program.ofText source = .ok p →
      Exec.Reaches g p (s.machine g source) pt → pt.machine.functions.get? name = some body →
      ∃ q, Program.ofLines body = .ok q) := by
  refine ⟨malformed_iff hs.sound g source, ?_, ?_⟩
  · intro before l after f hsplit hbefore hf
    have hp : Program.ofText source = .error (.ofFault l f) := by
      unfold Program.ofText
      rw [hsplit]
      exact Program.ofLines_append_of_fault hbefore hf
    rw [run_of_ofText_eq_error hp]
    refine ⟨rfl, fun l' hl' => ?_, rfl, rfl⟩
    simp [Report.events, machine, Machine.report, Machine.ofSession] at hl'
  · intro p pt name body hp hpt hget
    obtain ⟨q, hq, -⟩ :=
      (hpt.sound hs.sound (Program.isRead_of_ofLines hp)).functions name body hget
    exact ⟨q, hq⟩

/-- A call stands before the malformed line, and is not made. -/
theorem syntax_error_after_call :
    ∃ s : Session, Reachable s ∧ s.functions.names = [['F']] ∧
      ∀ g, (run g s "CALL F\nPRINT X\nIF".toList).result =
          .error (.ofFault ⟨2, "PRINT X".toList⟩ .noLeftParenthesis) ∧
        (run g s "CALL F\nPRINT X\nIF".toList).session.functions = s.functions := by
  have hs : Reachable (run {} {} "DEFINE F AS FUNCTION\nX = 1\nENDFUNCTION".toList).session :=
    .run .new _ _
  refine ⟨_, hs, by decide +kernel, fun g => ?_⟩
  have ha := (syntax_errors_atomic hs g "CALL F\nPRINT X\nIF".toList).2.1
    [⟨1, "CALL F".toList⟩] ⟨2, "PRINT X".toList⟩ [⟨3, "IF".toList⟩] .noLeftParenthesis
    (by decide) (by simpa using ⟨.call ['F'], by decide⟩) (by decide)
  exact ⟨ha.1, ha.2.2.2⟩

end Session

end LineScript
